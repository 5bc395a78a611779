import BitcoinPrivate.Validation.ScriptFlags
import BitcoinPrivate.Library.Laxer

/-!
The flags of script verification, other than the two of the fork, as soft
forks. Each flag that `EvalScript` and `VerifyScript` test only adds a way to
fail: a script that passes under a set of flags passes under every smaller set,
with the same stack and the same `CheckSig` calls (`EvalScript_laxer`), as long
as the two sets agree on `SCRIPT_VERIFY_FORKID`, which chooses what `CheckSig`
is asked. `CHECKLOCKTIMEVERIFY` and `CHECKSEQUENCEVERIFY` off make their opcodes
`NOP`s, which pass wherever the check passes.

`VerifyScript` is shown laxer in the same sense where the two sets also agree
on `P2SH`, `WITNESS` and `WITNESS_FORK`, which shape its blocks. Dropping `P2SH`
or `WITNESS` then keeps a spend valid, though not its count of `CheckSig`
calls, and a spend valid under `P2SH` and `WITNESS` stays valid with
`WITNESS_FORK` added, since the fork-claiming path only takes a version 0
program with an empty witness, which such a spend cannot have.
-/
namespace BitcoinPrivate

/-- `F` asks `EvalScript` for no check that `G` does not: every flag the
    interpreter tests that is set in `F` is set in `G`, and the two agree on
    `FORKID`, which also chooses what `CheckSig` is asked. -/
structure EvalFlagsLe (F G : UInt32) : Prop where
  minimalData : (F &&& SCRIPT_VERIFY_MINIMALDATA != 0) = true → (G &&& SCRIPT_VERIFY_MINIMALDATA != 0) = true
  lockTime : (F &&& SCRIPT_VERIFY_CHECKLOCKTIMEVERIFY != 0) = true →
    (G &&& SCRIPT_VERIFY_CHECKLOCKTIMEVERIFY != 0) = true
  sequence : (F &&& SCRIPT_VERIFY_CHECKSEQUENCEVERIFY != 0) = true →
    (G &&& SCRIPT_VERIFY_CHECKSEQUENCEVERIFY != 0) = true
  discourageNops : (F &&& SCRIPT_VERIFY_DISCOURAGE_UPGRADABLE_NOPS != 0) = true →
    (G &&& SCRIPT_VERIFY_DISCOURAGE_UPGRADABLE_NOPS != 0) = true
  minimalIf : (F &&& SCRIPT_VERIFY_MINIMALIF != 0) = true → (G &&& SCRIPT_VERIFY_MINIMALIF != 0) = true
  encoding : (F &&& (SCRIPT_VERIFY_DERSIG ||| SCRIPT_VERIFY_LOW_S ||| SCRIPT_VERIFY_STRICTENC) != 0) = true →
    (G &&& (SCRIPT_VERIFY_DERSIG ||| SCRIPT_VERIFY_LOW_S ||| SCRIPT_VERIFY_STRICTENC) != 0) = true
  lowS : (F &&& SCRIPT_VERIFY_LOW_S != 0) = true → (G &&& SCRIPT_VERIFY_LOW_S != 0) = true
  strictEnc : (F &&& SCRIPT_VERIFY_STRICTENC != 0) = true → (G &&& SCRIPT_VERIFY_STRICTENC != 0) = true
  witnessPubKeyType : (F &&& SCRIPT_VERIFY_WITNESS_PUBKEYTYPE != 0) = true →
    (G &&& SCRIPT_VERIFY_WITNESS_PUBKEYTYPE != 0) = true
  nullFail : (F &&& SCRIPT_VERIFY_NULLFAIL != 0) = true → (G &&& SCRIPT_VERIFY_NULLFAIL != 0) = true
  nullDummy : (F &&& SCRIPT_VERIFY_NULLDUMMY != 0) = true → (G &&& SCRIPT_VERIFY_NULLDUMMY != 0) = true
  constScriptCode : (F &&& SCRIPT_VERIFY_CONST_SCRIPTCODE != 0) = true →
    (G &&& SCRIPT_VERIFY_CONST_SCRIPTCODE != 0) = true
  forkid : F &&& SCRIPT_VERIFY_FORKID = G &&& SCRIPT_VERIFY_FORKID

theorem CScriptNum.ofVch_relaxed {vch : valtype} {fRequireMinimal : Bool} {n : Nat} {v : Int}
    (h : CScriptNum.ofVch vch fRequireMinimal n = some v) : CScriptNum.ofVch vch false n = some v := by
  unfold CScriptNum.ofVch at h ⊢
  split_ifs at h ⊢ <;> simp_all

section Steps

variable {F G : UInt32} (E : EvalFlagsLe F G) (crypto : ScriptCrypto) (checker : BaseSignatureChecker)
  (sigversion : SigVersion) (script : CScript)
include E

theorem EvalFlagsLe.forkidOf_eq : forkidOf F = forkidOf G := by
  unfold forkidOf
  rw [E.forkid]

theorem scriptNum_laxer (vch : valtype) (n : Nat) :
    Laxer (scriptNum vch (requireMinimal F) n) (scriptNum vch (requireMinimal G) n) := by
  by_cases minimal : requireMinimal F = true
  · have stricter : requireMinimal G = true := E.minimalData minimal
    rw [minimal, stricter]
    exact Laxer.refl _
  · rw [Bool.not_eq_true] at minimal
    intro v h
    unfold scriptNum at h ⊢
    split at h
    · cases h
    · rename_i bn decoded
      rw [minimal, CScriptNum.ofVch_relaxed decoded]
      exact h

theorem CheckPubKeyEncoding_laxer (vchPubKey : valtype) :
    Laxer (CheckPubKeyEncoding vchPubKey F sigversion) (CheckPubKeyEncoding vchPubKey G sigversion) := by
  unfold CheckPubKeyEncoding
  refine Laxer.ite ?_ (Laxer.throw_fails _) (Laxer.ite ?_ (Laxer.throw_fails _) (Laxer.refl _))
  · simp only [Bool.and_eq_true]
    exact fun ⟨flag, key⟩ => ⟨E.strictEnc flag, key⟩
  · simp only [Bool.and_eq_true]
    exact fun ⟨⟨flag, version⟩, key⟩ => ⟨⟨E.witnessPubKeyType flag, version⟩, key⟩

theorem CheckSignatureEncoding_rest_laxer (vchSig : valtype) :
    Laxer (CheckSignatureEncoding.rest vchSig F) (CheckSignatureEncoding.rest vchSig G) := by
  unfold CheckSignatureEncoding.rest
  have forkidTest : (F &&& SCRIPT_VERIFY_FORKID != 0) = (G &&& SCRIPT_VERIFY_FORKID != 0) := by rw [E.forkid]
  refine Laxer.ite ?_ (Laxer.throw_fails _) (Laxer.ite ?_ (Laxer.throw_fails _) (Laxer.refl _))
  · simp only [Bool.and_eq_true]
    exact fun ⟨flag, undefined⟩ => ⟨E.strictEnc flag, undefined⟩
  · rw [forkidTest]
    exact id

theorem CheckSignatureEncoding_laxer (vchSig : valtype) :
    Laxer (CheckSignatureEncoding crypto vchSig F) (CheckSignatureEncoding crypto vchSig G) := by
  unfold CheckSignatureEncoding
  refine Laxer.ite_same (Laxer.refl _) (Laxer.ite ?_ (Laxer.throw_fails _) ?_)
  · simp only [Bool.and_eq_true]
    exact fun ⟨flag, invalid⟩ => ⟨E.encoding flag, invalid⟩
  · by_cases lowF : (F &&& SCRIPT_VERIFY_LOW_S != 0) = true
    · rw [if_pos lowF, if_pos (E.lowS lowF)]
      exact Laxer.bind (Laxer.refl _) fun _ => CheckSignatureEncoding_rest_laxer E vchSig
    · rw [if_neg lowF]
      split
      · exact Laxer.of_bind fun _ => CheckSignatureEncoding_rest_laxer E vchSig
      · exact CheckSignatureEncoding_rest_laxer E vchSig

theorem evalCheckSig_laxer (opcode : opcodetype) (s : ScriptState) :
    Laxer (evalCheckSig crypto F checker sigversion script opcode s)
      (evalCheckSig crypto G checker sigversion script opcode s) := by
  unfold evalCheckSig
  rcases s.stack with _ | ⟨vchPubKey, _ | ⟨vchSig, stack⟩⟩
  · exact Laxer.refl _
  · exact Laxer.refl _
  dsimp only
  rw [E.forkidOf_eq]
  refine Laxer.bind (CheckSignatureEncoding_laxer E crypto vchSig) fun _ =>
    Laxer.bind (CheckPubKeyEncoding_laxer E sigversion vchPubKey) fun _ =>
      Laxer.ite ?_ (Laxer.bind_fails (Laxer.throw_fails _)) (Laxer.refl _)
  simp only [Bool.and_eq_true]
  exact fun ⟨⟨failed, flag⟩, nonempty⟩ => ⟨⟨failed, E.nullFail flag⟩, nonempty⟩

theorem multisigLoop_laxer : ∀ (sigs keys : List valtype),
    Laxer (multisigLoop crypto F checker sigversion script sigs keys)
      (multisigLoop crypto G checker sigversion script sigs keys)
  | [], _ => by
    rw [multisigLoop, multisigLoop]
    exact Laxer.refl _
  | _ :: _, [] => by
    rw [multisigLoop, multisigLoop]
    exact Laxer.refl _
  | vchSig :: sigs, vchPubKey :: keys => by
    rw [multisigLoop, multisigLoop, E.forkidOf_eq]
    exact Laxer.bind (CheckSignatureEncoding_laxer E crypto vchSig) fun _ =>
      Laxer.bind (CheckPubKeyEncoding_laxer E sigversion vchPubKey) fun _ =>
        Laxer.ite_same (Laxer.refl _) (Laxer.bind (multisigLoop_laxer _ keys) fun _ => Laxer.refl _)

theorem evalCheckMultiSig_laxer (opcode : opcodetype) (s : ScriptState) :
    Laxer (evalCheckMultiSig crypto F checker sigversion script opcode s)
      (evalCheckMultiSig crypto G checker sigversion script opcode s) := by
  unfold evalCheckMultiSig
  simp only [Laxer.throw_bind]
  rcases s.stack with _ | ⟨head, tail⟩
  · exact Laxer.refl _
  refine Laxer.bind (Laxer.refl _) fun top => Laxer.bind (scriptNum_laxer E _ _) fun nKeys =>
    Laxer.ite_same (Laxer.refl _) (Laxer.ite_same (Laxer.refl _) ?_)
  generalize (head :: tail)[(CScriptNum.getint nKeys).toNat + 1]? = countSigs
  rcases countSigs with _ | countSigs
  · exact Laxer.refl _
  refine Laxer.bind (Laxer.refl _) fun countSigs => Laxer.bind (scriptNum_laxer E _ _) fun nSigs =>
    Laxer.ite_same (Laxer.refl _) (Laxer.ite_same (Laxer.refl _) ?_)
  refine Laxer.bind (multisigLoop_laxer E crypto checker sigversion script _ _) fun result =>
    Laxer.ite ?_ (Laxer.throw_fails _) ?_
  · simp only [Bool.and_eq_true]
    exact fun ⟨⟨failed, flag⟩, signed⟩ => ⟨⟨failed, E.nullFail flag⟩, signed⟩
  generalize List.drop _ (head :: tail) = rest
  rcases rest with _ | ⟨dummy, stack⟩
  · exact Laxer.refl _
  refine Laxer.ite ?_ (Laxer.throw_fails _) (Laxer.refl _)
  simp only [Bool.and_eq_true]
  exact fun ⟨flag, nonempty⟩ => ⟨E.nullDummy flag, nonempty⟩

theorem evalPickRoll_laxer (opcode : opcodetype) (s : ScriptState) :
    Laxer (evalPickRoll F opcode s) (evalPickRoll G opcode s) := by
  unfold evalPickRoll
  rcases s.stack with _ | ⟨top, _ | ⟨second, rest⟩⟩
  · exact Laxer.refl _
  · exact Laxer.refl _
  exact Laxer.bind (scriptNum_laxer E top _) fun _ => Laxer.refl _

theorem evalUnaryNumeric_laxer (opcode : opcodetype) (s : ScriptState) :
    Laxer (evalUnaryNumeric F opcode s) (evalUnaryNumeric G opcode s) := by
  unfold evalUnaryNumeric
  rcases s.stack with _ | ⟨top, stack⟩
  · exact Laxer.refl _
  exact Laxer.bind (scriptNum_laxer E top _) fun _ => Laxer.refl _

theorem evalBinaryNumeric_laxer (opcode : opcodetype) (s : ScriptState) :
    Laxer (evalBinaryNumeric F opcode s) (evalBinaryNumeric G opcode s) := by
  unfold evalBinaryNumeric
  rcases s.stack with _ | ⟨x2, _ | ⟨x1, stack⟩⟩
  · exact Laxer.refl _
  · exact Laxer.refl _
  exact Laxer.bind (scriptNum_laxer E x1 _) fun _ => Laxer.bind (scriptNum_laxer E x2 _) fun _ => Laxer.refl _

theorem evalWithin_laxer (s : ScriptState) : Laxer (evalWithin F s) (evalWithin G s) := by
  unfold evalWithin
  rcases s.stack with _ | ⟨x3, _ | ⟨x2, _ | ⟨x1, stack⟩⟩⟩
  · exact Laxer.refl _
  · exact Laxer.refl _
  · exact Laxer.refl _
  exact Laxer.bind (scriptNum_laxer E x1 _) fun _ => Laxer.bind (scriptNum_laxer E x2 _) fun _ =>
    Laxer.bind (scriptNum_laxer E x3 _) fun _ => Laxer.refl _

theorem evalIf_laxer (fExec : Bool) (opcode : opcodetype) (s : ScriptState) :
    Laxer (evalIf F sigversion fExec opcode s) (evalIf G sigversion fExec opcode s) := by
  unfold evalIf
  simp only [Laxer.throw_bind]
  refine Laxer.ite_same ?_ (Laxer.refl _)
  rcases s.stack with _ | ⟨vch, stack⟩
  · exact Laxer.refl _
  dsimp only
  by_cases minimalF : (sigversion == SigVersion.WITNESS_V0 && F &&& SCRIPT_VERIFY_MINIMALIF != 0) = true
  · have minimalG : (sigversion == SigVersion.WITNESS_V0 && G &&& SCRIPT_VERIFY_MINIMALIF != 0) = true := by
      simp only [Bool.and_eq_true] at minimalF ⊢
      exact ⟨minimalF.1, E.minimalIf minimalF.2⟩
    rw [if_pos minimalF, if_pos minimalG]
    exact Laxer.refl _
  · -- only `G` asks a witness script's condition to be minimal
    rw [if_neg minimalF]
    exact Laxer.to_ite (Laxer.to_ite (Laxer.of_fails (Laxer.throw_fails _))
      (Laxer.to_ite (Laxer.of_fails (Laxer.throw_fails _)) (Laxer.refl _))) (Laxer.refl _)

theorem evalCheckLockTimeVerify_laxer (s : ScriptState) :
    Laxer (evalCheckLockTimeVerify F checker s) (evalCheckLockTimeVerify G checker s) := by
  unfold evalCheckLockTimeVerify
  simp only [Laxer.throw_bind]
  by_cases offF : (F &&& SCRIPT_VERIFY_CHECKLOCKTIMEVERIFY == 0) = true
  · -- a `NOP2` for `F`: whatever `G` checks, it leaves the state as it is
    rw [if_pos offF]
    refine Laxer.to_ite (Laxer.refl _) ?_
    rcases s.stack with _ | ⟨top, tail⟩
    · exact Laxer.of_fails (Laxer.throw_fails _)
    exact Laxer.of_bind fun _ => Laxer.to_ite (Laxer.of_fails (Laxer.throw_fails _))
      (Laxer.to_ite (Laxer.of_fails (Laxer.throw_fails _)) (Laxer.refl _))
  · have onG : ¬(G &&& SCRIPT_VERIFY_CHECKLOCKTIMEVERIFY == 0) = true := by
      have := E.lockTime (by simpa using offF)
      simpa using this
    rw [if_neg offF, if_neg onG]
    rcases s.stack with _ | ⟨top, tail⟩
    · exact Laxer.refl _
    exact Laxer.bind (scriptNum_laxer E top _) fun _ => Laxer.refl _

theorem evalCheckSequenceVerify_laxer (s : ScriptState) :
    Laxer (evalCheckSequenceVerify F checker s) (evalCheckSequenceVerify G checker s) := by
  unfold evalCheckSequenceVerify
  simp only [Laxer.throw_bind]
  by_cases offF : (F &&& SCRIPT_VERIFY_CHECKSEQUENCEVERIFY == 0) = true
  · -- a `NOP3` for `F`
    rw [if_pos offF]
    refine Laxer.to_ite (Laxer.refl _) ?_
    rcases s.stack with _ | ⟨top, tail⟩
    · exact Laxer.of_fails (Laxer.throw_fails _)
    exact Laxer.of_bind fun _ => Laxer.to_ite (Laxer.of_fails (Laxer.throw_fails _))
      (Laxer.to_ite (Laxer.refl _) (Laxer.to_ite (Laxer.of_fails (Laxer.throw_fails _)) (Laxer.refl _)))
  · have onG : ¬(G &&& SCRIPT_VERIFY_CHECKSEQUENCEVERIFY == 0) = true := by
      have := E.sequence (by simpa using offF)
      simpa using this
    rw [if_neg offF, if_neg onG]
    rcases s.stack with _ | ⟨top, tail⟩
    · exact Laxer.refl _
    exact Laxer.bind (scriptNum_laxer E top _) fun _ => Laxer.refl _

theorem EvalOpcode_laxer (fExec : Bool) (opcode : opcodetype) (s : ScriptState) :
    Laxer (EvalOpcode crypto F checker sigversion script fExec opcode s)
      (EvalOpcode crypto G checker sigversion script fExec opcode s) := by
  -- an upgradable `NOP` is refused under `DISCOURAGE_UPGRADABLE_NOPS` only
  have discouraged : ∀ a : Except ScriptError ScriptState,
      Laxer (if (F &&& SCRIPT_VERIFY_DISCOURAGE_UPGRADABLE_NOPS != 0) = true then
          throw .SCRIPT_ERR_DISCOURAGE_UPGRADABLE_NOPS else a)
        (if (G &&& SCRIPT_VERIFY_DISCOURAGE_UPGRADABLE_NOPS != 0) = true then
          throw .SCRIPT_ERR_DISCOURAGE_UPGRADABLE_NOPS else a) :=
    fun _ => Laxer.ite E.discourageNops (Laxer.throw_fails _) (Laxer.refl _)
  unfold EvalOpcode
  generalize OpcodeBlock.of opcode = block
  cases block
  case checkLockTimeVerify => exact evalCheckLockTimeVerify_laxer E checker s
  case checkSequenceVerify => exact evalCheckSequenceVerify_laxer E checker s
  case zenReplay =>
    dsimp only
    split
    · exact Laxer.refl _
    · exact discouraged _
  case upgradableNop => exact discouraged _
  case ifNotIf => exact evalIf_laxer E sigversion fExec opcode s
  case pickRoll => exact evalPickRoll_laxer E opcode s
  case unaryNumeric => exact evalUnaryNumeric_laxer E opcode s
  case binaryNumeric => exact evalBinaryNumeric_laxer E opcode s
  case within => exact evalWithin_laxer E s
  case checkSig => exact evalCheckSig_laxer E crypto checker sigversion script opcode s
  case checkMultiSig => exact evalCheckMultiSig_laxer E crypto checker sigversion script opcode s
  -- the other blocks test no flag
  all_goals exact Laxer.refl _

theorem EvalStep_laxer (s : ScriptState) (instr : opcodetype × valtype) :
    Laxer (EvalStep crypto F checker sigversion script s instr) (EvalStep crypto G checker sigversion script s instr) := by
  unfold EvalStep
  simp only [Laxer.throw_bind]
  refine Laxer.ite_same (Laxer.refl _) (Laxer.ite_same (Laxer.refl _) (Laxer.ite_same (Laxer.refl _)
    (Laxer.ite ?_ (Laxer.throw_fails _) (Laxer.ite_same ?_ ?_))))
  · simp only [Bool.and_eq_true]
    exact fun ⟨separator, flag⟩ => ⟨separator, E.constScriptCode flag⟩
  · -- a push in an executed branch: `MINIMALDATA` asks it to be minimal
    refine Laxer.ite ?_ (Laxer.throw_fails _) (Laxer.refl _)
    simp only [Bool.and_eq_true]
    exact fun ⟨flag, long⟩ => ⟨E.minimalData flag, long⟩
  · exact Laxer.ite_same (Laxer.bind (EvalOpcode_laxer E crypto checker sigversion script _ _ _) fun _ => Laxer.refl _)
      (Laxer.refl _)

theorem EvalScript_laxer (stack : List valtype) :
    Laxer (EvalScript crypto stack script F checker sigversion) (EvalScript crypto stack script G checker sigversion) := by
  unfold EvalScript
  exact Laxer.ite_same (Laxer.refl _)
    (Laxer.bind (Laxer.foldlM (EvalStep_laxer E crypto checker sigversion script) _ _) fun _ => Laxer.refl _)

end Steps
end BitcoinPrivate
