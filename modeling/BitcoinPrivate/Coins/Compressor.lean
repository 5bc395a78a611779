import BitcoinPrivate.Primitives.VarInt
import BitcoinPrivate.Coins.CoinsView
import BitcoinPrivate.Script.Script

/-!
The compressed serialization of coins of `compressor.h` and `coins.h`: a coin is
the `VARINT` of its height and coinbase flag, then its output compressed. An
amount loses its trailing decimal zeros, nine at most, into a mixed-radix code
(`CompressAmount`); a script of one of six standard forms is a size code below
six and the 20 or 32 bytes that vary (`CompressScript`), any other is its size
plus six and its bytes. The decompression of a public key is secp256k1's, so
it is a parameter here with the one property the round trip needs: a fully
valid key is recovered from its x coordinate and the parity of its y.
-/
namespace BitcoinPrivate
open StreamReader

/-! ## Amounts -/

/-- The loop of `CompressAmount`: the trailing decimal zeros taken off, nine
    at most, and how many. -/
def stripZeros (n e : Nat) : Nat × Nat :=
  if n % 10 = 0 ∧ e < 9 then stripZeros (n / 10) (e + 1) else (n,e)
termination_by 9 - e

/-- `CompressAmount`, in `uint64_t`. Its assert that the last digit kept is not
    zero always holds (`stripZeros_spec`). -/
def CompressAmount (n : Nat) : Nat :=
  if n = 0 then 0
  else
    let (n,e) := stripZeros n 0
    if e < 9 then
      let d := n % 10
      let n := n / 10
      (1 + (n * 9 + d - 1) * 10 + e) % 2^64
    else (1 + (n - 1) * 10 + 9) % 2^64

/-- The loop of `DecompressAmount`: `e` multiplications by ten in `uint64_t`. -/
def timesTen : Nat → Nat → Nat
  | n, 0 => n
  | n, e+1 => timesTen (n * 10 % 2^64) e

/-- `DecompressAmount`, in `uint64_t`. -/
def DecompressAmount (x : Nat) : Nat :=
  if x = 0 then 0
  else
    -- x = 10*(9*n + d - 1) + e
    let x := x - 1
    let e := x % 10
    let x := x / 10
    let n := if e < 9 then
        -- x = 9*n + d - 1
        let d := x % 9 + 1
        let x := x / 9
        (x * 10 + d) % 2^64
      else (x + 1) % 2^64
    timesTen n e

/-- The `int64_t` an `uint64_t` converts to. -/
def toCAmount (x : Nat) : CAmount := if x < 2^63 then x else x - 2^64

/-! ## Scripts -/

/-- What compression asks of secp256k1: whether a 65-byte key is a point of
    the curve (`CPubKey::IsFullyValid`), and the key a 33-byte compressed key
    stands for, where there is one (`CPubKey::Decompress`). -/
structure Secp256k1 where
  IsFullyValid : List UInt8 → Bool
  Decompress : List UInt8 → Option (List UInt8)

/-- `IsToKeyID`: the key hash of a pay-to-pubkey-hash script. -/
def IsToKeyID (script : CScript) : Option (List UInt8) :=
  if script.length = 25 ∧ script.getD 0 0 = OP_DUP ∧ script.getD 1 0 = OP_HASH160 ∧ script.getD 2 0 = 20 ∧
      script.getD 23 0 = OP_EQUALVERIFY ∧ script.getD 24 0 = OP_CHECKSIG then
    some ((script.drop 3).take 20)
  else none

/-- `IsToScriptID`: the script hash of a pay-to-script-hash script. -/
def IsToScriptID (script : CScript) : Option (List UInt8) :=
  if script.length = 23 ∧ script.getD 0 0 = OP_HASH160 ∧ script.getD 1 0 = 20 ∧ script.getD 22 0 = OP_EQUAL then
    some ((script.drop 2).take 20)
  else none

/-- `IsToPubKey`: the key of a pay-to-pubkey script, compressed, or
    uncompressed where it is fully valid. -/
def IsToPubKey (secp : Secp256k1) (script : CScript) : Option (List UInt8) :=
  if script.length = 35 ∧ script.getD 0 0 = 33 ∧ script.getD 34 0 = OP_CHECKSIG ∧
      (script.getD 1 0 = 0x02 ∨ script.getD 1 0 = 0x03) then
    some ((script.drop 1).take 33)
  else if script.length = 67 ∧ script.getD 0 0 = 65 ∧ script.getD 66 0 = OP_CHECKSIG ∧ script.getD 1 0 = 0x04 then
    -- if not fully valid, a case that would not be compressible
    if secp.IsFullyValid ((script.drop 1).take 65) then some ((script.drop 1).take 65) else none
  else none

/-- `CompressScript`: the special form of a script, where it has one. -/
def CompressScript (secp : Secp256k1) (script : CScript) : Option (List UInt8) :=
  match IsToKeyID script with
  | some keyID => some (0x00 :: keyID)
  | none =>
    match IsToScriptID script with
    | some scriptID => some (0x01 :: scriptID)
    | none =>
      match IsToPubKey secp script with
      | some pubkey =>
        if pubkey.getD 0 0 = 0x02 ∨ pubkey.getD 0 0 = 0x03 then some (pubkey.getD 0 0 :: (pubkey.drop 1).take 32)
        else if pubkey.getD 0 0 = 0x04 then some ((0x04 ||| (pubkey.getD 64 0 &&& 0x01)) :: (pubkey.drop 1).take 32)
        else none
      | none => none

/-- `GetSpecialScriptSize`. -/
def GetSpecialScriptSize (nSize : Nat) : Nat :=
  if nSize = 0 ∨ nSize = 1 then 20
  else if nSize = 2 ∨ nSize = 3 ∨ nSize = 4 ∨ nSize = 5 then 32
  else 0

/-- `DecompressScript`: the script of a special form, `none` where it returns
    `false`. -/
def DecompressScript (secp : Secp256k1) (nSize : Nat) (input : List UInt8) : Except String (Option CScript) :=
  match nSize with
  | 0 => .ok (some ([OP_DUP,OP_HASH160,20] ++ input.take 20 ++ [OP_EQUALVERIFY,OP_CHECKSIG]))
  | 1 => .ok (some ([OP_HASH160,20] ++ input.take 20 ++ [OP_EQUAL]))
  | 2 | 3 => .ok (some ([33,nSize.toUInt8] ++ input.take 32 ++ [OP_CHECKSIG]))
  | 4 | 5 =>
    match secp.Decompress ((nSize - 2).toUInt8 :: input.take 32) with
    | none => .ok none
    | some pubkey =>
      if pubkey.length ≠ 65 then .error "Assertion pubkey.size() == 65 failed"
      else .ok (some ([65] ++ pubkey ++ [OP_CHECKSIG]))
  | _ => .ok none

/-- `CScriptCompressor::nSpecialScripts`. -/
def nSpecialScripts : Nat := 6

/-- `CDataStream::ignore`, whose size is an `int`. -/
def ignore (nSize : Nat) : Reader UInt8 Unit := fun s =>
  if 2^31 ≤ nSize then .error "CDataStream::ignore(): nSize negative"
  else if s.length < nSize then .error "CDataStream::ignore(): end of data"
  else .ok ((),s.drop nSize)

/-- `CScriptCompressor::Serialize`. -/
def CScriptCompressor.Serialize (secp : Secp256k1) (script : CScript) : List UInt8 :=
  match CompressScript secp script with
  | some compr => compr
  | none => WriteVarInt ((script.length + nSpecialScripts) % 2^32) ++ script

/-- `CScriptCompressor::Unserialize` into `script`, which a special form that
    does not decompress leaves as it was. -/
def CScriptCompressor.Unserialize (secp : Secp256k1) (script : CScript) : Reader UInt8 CScript := do
  let nSize ← ReadVarInt (2^32 - 1)
  if nSize < nSpecialScripts then
    let vch ← take endOfData (GetSpecialScriptSize nSize)
    let decompressed ← StateT.lift (DecompressScript secp nSize vch)
    pure (decompressed.getD script)
  else
    let nSize := nSize - nSpecialScripts
    if nSize > MAX_SCRIPT_SIZE then
      -- Overly long script, replace with a short invalid one
      ignore nSize
      pure (script ++ [OP_RETURN])
    else take endOfData nSize

/-- `CTxOutCompressor`'s serialization. -/
def CTxOutCompressor.Serialize (secp : Secp256k1) (txout : CTxOut) : List UInt8 :=
  WriteVarInt (CompressAmount (txout.nValue % 2^64).toNat) ++ CScriptCompressor.Serialize secp txout.scriptPubKey

/-- `CTxOutCompressor`'s unserialization into `txout`. -/
def CTxOutCompressor.Unserialize (secp : Secp256k1) (txout : CTxOut) : Reader UInt8 CTxOut := do
  let nVal ← ReadVarInt (2^64 - 1)
  let scriptPubKey ← CScriptCompressor.Unserialize secp txout.scriptPubKey
  pure ⟨toCAmount (DecompressAmount nVal),scriptPubKey⟩

/-- `Coin::Serialize`. -/
def Coin.Serialize (secp : Secp256k1) (coin : Coin) : Except String (List UInt8) :=
  if coin.IsSpent then .error "Assertion !IsSpent() failed"
  else
    let code := (coin.nHeight * 2 + if coin.fCoinBase then 1 else 0) % 2^32
    .ok (WriteVarInt code ++ CTxOutCompressor.Serialize secp coin.out)

/-- `Coin::Unserialize` into `coin`. -/
def Coin.Unserialize (secp : Secp256k1) (coin : Coin) : Reader UInt8 Coin := do
  let code ← ReadVarInt (2^32 - 1)
  let out ← CTxOutCompressor.Unserialize secp coin.out
  pure ⟨out,code &&& 1 == 1,code >>> 1⟩

/-! ## Amounts round trip -/

/-- `stripZeros` takes `k` trailing zeros off, and what is left ends in a digit
    that is not zero unless it stopped at nine zeros. -/
theorem stripZeros_spec (n e : Nat) (pos : 0 < n) (le : e ≤ 9) :
    ∃ m k, stripZeros n e = (m,e + k) ∧ n = m * 10^k ∧ 0 < m ∧ e + k ≤ 9 ∧ (e + k < 9 → m % 10 ≠ 0) := by
  rw [stripZeros.eq_1]
  split_ifs with zero
  · obtain ⟨m,k,strip,eq,pos',le',digit⟩ := stripZeros_spec (n / 10) (e + 1) (by omega) (by omega)
    refine ⟨m,k + 1,by rw [strip,Nat.add_assoc,Nat.add_comm 1 k],?_,pos',by omega,fun lt => digit (by omega)⟩
    rw [pow_succ,← Nat.mul_assoc,← eq]
    omega
  · exact ⟨n,0,rfl,by simp,pos,by omega,fun _ ends => zero ⟨ends,by omega⟩⟩
termination_by 9 - e

/-- `e` multiplications by ten that do not overflow. -/
theorem timesTen_eq (n e : Nat) (fits : n * 10^e < 2^64) : timesTen n e = n * 10^e := by
  induction e generalizing n with
  | zero => simp [timesTen]
  | succ e ih =>
    have regroup : n * 10^(e + 1) = n * 10 * 10^e := by rw [pow_succ',Nat.mul_assoc]
    have small : n * 10 < 2^64 :=
      lt_of_le_of_lt (Nat.le_mul_of_pos_right (n * 10) (Nat.pow_pos (show 0 < 10 by norm_num))) (regroup ▸ fits)
    rw [timesTen,Nat.mod_eq_of_lt small,ih (n * 10) (regroup ▸ fits),regroup]

/-- An amount whose code does not overflow decompresses from it. -/
theorem DecompressAmount_CompressAmount (n : Nat) (fits : n * 9 + 89 < 2^64) :
    DecompressAmount (CompressAmount n) = n := by
  by_cases zero : n = 0
  · simp [zero,CompressAmount,DecompressAmount]
  obtain ⟨m,k,strip,eq,pos,le,digit⟩ := stripZeros_spec n 0 (Nat.pos_of_ne_zero zero) (Nat.zero_le 9)
  rw [Nat.zero_add] at strip le digit
  have below : m ≤ n := eq ▸ Nat.le_mul_of_pos_right m (Nat.pow_pos (show 0 < 10 by norm_num))
  have power : timesTen m k = n := by rw [timesTen_eq m k (by omega),eq]
  rw [CompressAmount,if_neg zero,strip]
  dsimp only
  split_ifs with lt
  · -- the last digit `d` and the exponent are the two lowest places of the code
    have d_pos : 0 < m % 10 := Nat.pos_of_ne_zero (digit lt)
    have code_lt : 1 + (m / 10 * 9 + m % 10 - 1) * 10 + k < 2^64 := by omega
    rw [Nat.mod_eq_of_lt code_lt,DecompressAmount,if_neg (show 1 + (m / 10 * 9 + m % 10 - 1) * 10 + k ≠ 0 by omega)]
    dsimp only
    have e_eq : (1 + (m / 10 * 9 + m % 10 - 1) * 10 + k - 1) % 10 = k := by omega
    have x_eq : (1 + (m / 10 * 9 + m % 10 - 1) * 10 + k - 1) / 10 = m / 10 * 9 + m % 10 - 1 := by omega
    have m_eq : ((m / 10 * 9 + m % 10 - 1) / 9 * 10 + ((m / 10 * 9 + m % 10 - 1) % 9 + 1)) % 2^64 = m := by omega
    rw [e_eq,x_eq,if_pos lt,m_eq,power]
  · -- nine zeros: the code is the rest less one, then the exponent nine
    have nine : k = 9 := by omega
    have tenfold : m * 10 ≤ n := by
      rw [eq,nine]
      exact Nat.mul_le_mul_left m (by norm_num)
    have code_lt : 1 + (m - 1) * 10 + 9 < 2^64 := by omega
    rw [Nat.mod_eq_of_lt code_lt,DecompressAmount,if_neg (show 1 + (m - 1) * 10 + 9 ≠ 0 by omega)]
    dsimp only
    have e_eq : (1 + (m - 1) * 10 + 9 - 1) % 10 = 9 := by omega
    have x_eq : ((1 + (m - 1) * 10 + 9 - 1) / 10 + 1) % 2^64 = m := by omega
    rw [e_eq,if_neg (show ¬9 < 9 by omega),x_eq,← nine,power]

theorem CompressAmount_lt (n : Nat) : CompressAmount n < 2^64 := by
  unfold CompressAmount
  split_ifs with zero
  · exact Nat.two_pow_pos 64
  · cases stripZeros n 0 with
    | mk m e =>
      dsimp only
      split_ifs <;> exact Nat.mod_lt _ (Nat.two_pow_pos 64)

/-- An amount of money is its own `uint64_t`, and the `int64_t` of that. -/
theorem toCAmount_of_money {nValue : Int} (nonneg : 0 ≤ nValue) (le_max : nValue ≤ MAX_MONEY) :
    (nValue % 2^64).toNat * 9 + 89 < 2^64 ∧ toCAmount (nValue % 2^64).toNat = nValue := by
  have money : MAX_MONEY = 2100000000000000 := rfl
  rw [money] at le_max
  rw [Int.emod_eq_of_lt nonneg (show nValue < 2^64 by omega)]
  refine ⟨by omega,?_⟩
  rw [toCAmount,if_pos (show nValue.toNat < 2^63 by omega),Int.toNat_of_nonneg nonneg]

/-! ## Scripts round trip -/

/-- What the round trip asks of secp256k1: a fully valid uncompressed key is
    what its compressed form, the parity of its y after its x, decompresses to. -/
def Secp256k1.DecompressesValid (secp : Secp256k1) : Prop :=
  ∀ pubkey : List UInt8, pubkey.length = 65 → pubkey.getD 0 0 = 0x04 → secp.IsFullyValid pubkey = true →
    secp.Decompress ((0x02 ||| (pubkey.getD 64 0 &&& 0x01)) :: (pubkey.drop 1).take 32) = some pubkey

theorem and_one_cases (x : UInt8) : x &&& 0x01 = 0 ∨ x &&& 0x01 = 1 := by
  have bit : (x &&& 0x01).toNat < 2 := by
    rw [UInt8.toNat_and]
    exact lt_of_le_of_lt Nat.and_le_right (by decide)
  rcases (show (x &&& 0x01).toNat = 0 ∨ (x &&& 0x01).toNat = 1 by omega) with zero | one
  · exact Or.inl (UInt8.toNat_inj.mp zero)
  · exact Or.inr (UInt8.toNat_inj.mp one)

theorem IsToKeyID_decompresses {secp : Secp256k1} {script keyID : CScript} (form : IsToKeyID script = some keyID) :
    keyID.length = GetSpecialScriptSize 0 ∧ DecompressScript secp 0 keyID = .ok (some script) := by
  unfold IsToKeyID at form
  split_ifs at form with shape
  obtain ⟨len,op0,op1,op2,op23,op24⟩ := shape
  cases form
  refine ⟨by simp [len,GetSpecialScriptSize],?_⟩
  have framed : [OP_DUP,OP_HASH160,20] ++ (script.drop 3).take 20 ++ [OP_EQUALVERIFY,OP_CHECKSIG] = script :=
    frame_eq len (fun i lt => by simp only [List.length_cons,List.length_nil] at lt; interval_cases i <;> assumption)
      (fun i lt => by simp only [List.length_cons,List.length_nil] at lt; interval_cases i <;> assumption)
  rw [DecompressScript,List.take_take,Nat.min_self,framed]

theorem IsToScriptID_decompresses {secp : Secp256k1} {script scriptID : CScript}
    (form : IsToScriptID script = some scriptID) :
    scriptID.length = GetSpecialScriptSize 1 ∧ DecompressScript secp 1 scriptID = .ok (some script) := by
  unfold IsToScriptID at form
  split_ifs at form with shape
  obtain ⟨len,op0,op1,op22⟩ := shape
  cases form
  refine ⟨by simp [len,GetSpecialScriptSize],?_⟩
  have framed : [OP_HASH160,20] ++ (script.drop 2).take 20 ++ [OP_EQUAL] = script :=
    frame_eq len (fun i lt => by simp only [List.length_cons,List.length_nil] at lt; interval_cases i <;> assumption)
      (fun i lt => by simp only [List.length_cons,List.length_nil] at lt; interval_cases i; assumption)
  rw [DecompressScript,List.take_take,Nat.min_self,framed]

/-- A compressed key keeps its header byte, which is the size code. -/
theorem IsToPubKey_compressed {secp : Secp256k1} {script pubkey : CScript} (form : IsToPubKey secp script = some pubkey)
    (compressedKey : pubkey.getD 0 0 = 0x02 ∨ pubkey.getD 0 0 = 0x03) :
    ((pubkey.drop 1).take 32).length = GetSpecialScriptSize (pubkey.getD 0 0).toNat ∧
      DecompressScript secp (pubkey.getD 0 0).toNat ((pubkey.drop 1).take 32) = .ok (some script) := by
  unfold IsToPubKey at form
  split_ifs at form with short long valid
  · obtain ⟨len,op0,op34,header⟩ := short
    cases form
    have first : ((script.drop 1).take 33).getD 0 0 = script.getD 1 0 := by simp
    have key : ((script.drop 1).take 33).drop 1 = (script.drop 2).take 32 := by simp [List.drop_take]
    rw [first,key,List.take_take,Nat.min_self]
    have framed : [33,script.getD 1 0] ++ (script.drop 2).take 32 ++ [OP_CHECKSIG] = script :=
      frame_eq len (fun i lt => by simp only [List.length_cons,List.length_nil] at lt; interval_cases i; exacts [op0,rfl])
        (fun i lt => by simp only [List.length_cons,List.length_nil] at lt; interval_cases i; assumption)
    refine ⟨by rcases header with byte | byte <;> rw [byte] <;> simp [len,GetSpecialScriptSize],?_⟩
    conv_rhs => rw [← framed]
    rcases header with byte | byte <;> rw [byte] <;> simp [DecompressScript]
  · -- an uncompressed key's header is 0x04
    obtain ⟨_,_,_,header⟩ := long
    cases form
    have first : ((script.drop 1).take 65).getD 0 0 = script.getD 1 0 := by simp
    rw [first,header] at compressedKey
    exact absurd compressedKey (by decide)

/-- An uncompressed key is its x after a size code that carries the parity of
    its y, and secp256k1 decompresses the two back to the key. -/
theorem IsToPubKey_uncompressed {secp : Secp256k1} (decompresses : secp.DecompressesValid) {script pubkey : CScript}
    (form : IsToPubKey secp script = some pubkey) (uncompressedKey : pubkey.getD 0 0 = 0x04) :
    ((pubkey.drop 1).take 32).length = GetSpecialScriptSize (0x04 ||| (pubkey.getD 64 0 &&& 0x01)).toNat ∧
      DecompressScript secp (0x04 ||| (pubkey.getD 64 0 &&& 0x01)).toNat ((pubkey.drop 1).take 32) =
        .ok (some script) := by
  unfold IsToPubKey at form
  split_ifs at form with short long valid
  · -- a compressed key's header is 0x02 or 0x03
    obtain ⟨_,_,_,header⟩ := short
    cases form
    have first : ((script.drop 1).take 33).getD 0 0 = script.getD 1 0 := by simp
    rw [first] at uncompressedKey
    rcases header with byte | byte <;> rw [byte] at uncompressedKey <;> exact absurd uncompressedKey (by decide)
  · obtain ⟨len,op0,op66,_⟩ := long
    cases form
    have keyLen : ((script.drop 1).take 65).length = 65 := by simp [len]
    have decompressed := decompresses _ keyLen uncompressedKey valid
    have framed : [65] ++ (script.drop 1).take 65 ++ [OP_CHECKSIG] = script :=
      frame_eq len (fun i lt => by simp only [List.length_cons,List.length_nil] at lt; interval_cases i; assumption)
        (fun i lt => by simp only [List.length_cons,List.length_nil] at lt; interval_cases i; assumption)
    generalize (script.drop 1).take 65 = pubkey at keyLen decompressed framed ⊢
    subst framed
    -- the size code is 4 or 5 as the parity of y is 0 or 1
    rcases and_one_cases (pubkey.getD 64 0) with parity | parity <;> rw [parity] at decompressed ⊢
    · rw [show (0x02 ||| 0 : UInt8) = 2 from rfl,List.drop_one] at decompressed
      exact ⟨by simp [keyLen,GetSpecialScriptSize],by simp [DecompressScript,List.take_take,decompressed,keyLen]⟩
    · rw [show (0x02 ||| 1 : UInt8) = 3 from rfl,List.drop_one] at decompressed
      exact ⟨by simp [keyLen,GetSpecialScriptSize],by simp [DecompressScript,List.take_take,decompressed,keyLen]⟩

/-- Every special form is a size code below six and the bytes its size asks
    for, which decompress to the script it was made from. -/
theorem CompressScript_decompresses {secp : Secp256k1} (decompresses : secp.DecompressesValid) {script compr : CScript}
    (compressed : CompressScript secp script = some compr) :
    ∃ b input, compr = b :: input ∧ b.toNat < nSpecialScripts ∧ input.length = GetSpecialScriptSize b.toNat ∧
      DecompressScript secp b.toNat input = .ok (some script) := by
  unfold CompressScript at compressed
  split at compressed
  next keyID form =>
    cases compressed
    exact ⟨0x00,keyID,rfl,by decide,IsToKeyID_decompresses form⟩
  next =>
    split at compressed
    next scriptID form =>
      cases compressed
      exact ⟨0x01,scriptID,rfl,by decide,IsToScriptID_decompresses form⟩
    next =>
      split at compressed
      next pubkey form =>
        split_ifs at compressed with compressedKey uncompressedKey
        · cases compressed
          have small : (pubkey.getD 0 0).toNat < nSpecialScripts := by
            rcases compressedKey with byte | byte <;> rw [byte] <;> decide
          exact ⟨_,_,rfl,small,IsToPubKey_compressed form compressedKey⟩
        · cases compressed
          have small : (0x04 ||| (pubkey.getD 64 0 &&& 0x01)).toNat < nSpecialScripts := by
            rcases and_one_cases (pubkey.getD 64 0) with parity | parity <;> rw [parity] <;> decide
          exact ⟨_,_,rfl,small,IsToPubKey_uncompressed decompresses form uncompressedKey⟩
      next => cases compressed

/-- A special form reads back as the script it decompresses to. -/
theorem Unserialize_special {secp : Secp256k1} {prior script input : CScript} {b : UInt8}
    (special : b.toNat < nSpecialScripts) (len : input.length = GetSpecialScriptSize b.toNat)
    (decompressed : DecompressScript secp b.toNat input = .ok (some script)) :
    Reads (CScriptCompressor.Unserialize secp prior) script (b :: input) := by
  have code : Reads (ReadVarInt (2^32 - 1)) b.toNat [b] := by
    have read := ReadVarInt_WriteVarInt (show b.toNat ≤ 2^32 - 1 by unfold nSpecialScripts at special; omega)
    have same : b.toNat.toUInt8 = b := UInt8.ofNat_toNat
    rwa [WriteVarInt_of_lt (show b.toNat < 128 by unfold nSpecialScripts at special; omega),same] at read
  unfold CScriptCompressor.Unserialize
  refine code.bind ?_
  rw [if_pos special,← len]
  refine (Reads.take endOfData input).bind_last ?_
  exact Reads.lift_bind decompressed (Reads.pure script)

/-- Any other script of at most `MAX_SCRIPT_SIZE` bytes reads back after its size. -/
theorem Unserialize_ordinary {secp : Secp256k1} {prior script : CScript} (short : script.length ≤ MAX_SCRIPT_SIZE) :
    Reads (CScriptCompressor.Unserialize secp prior) script
      (WriteVarInt ((script.length + nSpecialScripts) % 2^32) ++ script) := by
  have bounds : nSpecialScripts = 6 ∧ MAX_SCRIPT_SIZE = 10000 := ⟨rfl,rfl⟩
  rw [Nat.mod_eq_of_lt (show script.length + nSpecialScripts < 2^32 by omega)]
  unfold CScriptCompressor.Unserialize
  refine (ReadVarInt_WriteVarInt (show script.length + nSpecialScripts ≤ 2^32 - 1 by omega)).bind ?_
  dsimp only
  rw [if_neg (show ¬script.length + nSpecialScripts < nSpecialScripts by omega),Nat.add_sub_cancel,
    if_neg (show ¬script.length > MAX_SCRIPT_SIZE by omega)]
  exact Reads.take endOfData script

/-- A script of at most `MAX_SCRIPT_SIZE` bytes reads back from its
    compressed serialization, over any script it is read into. -/
theorem CScriptCompressor_round_trip {secp : Secp256k1} (decompresses : secp.DecompressesValid) {prior script : CScript}
    (short : script.length ≤ MAX_SCRIPT_SIZE) :
    Reads (CScriptCompressor.Unserialize secp prior) script (CScriptCompressor.Serialize secp script) := by
  unfold CScriptCompressor.Serialize
  cases compressed : CompressScript secp script with
  | some compr =>
    obtain ⟨b,input,rfl,special,len,decompressed⟩ := CompressScript_decompresses decompresses compressed
    exact Unserialize_special special len decompressed
  | none => exact Unserialize_ordinary short

/-! ## Outputs and coins round trip -/

/-- An output of money whose script has at most `MAX_SCRIPT_SIZE` bytes reads
    back from its compressed serialization, over any output it is read into. -/
theorem CTxOutCompressor_round_trip {secp : Secp256k1} (decompresses : secp.DecompressesValid) {prior txout : CTxOut}
    (nonneg : 0 ≤ txout.nValue) (le_max : txout.nValue ≤ MAX_MONEY)
    (short : txout.scriptPubKey.length ≤ MAX_SCRIPT_SIZE) :
    Reads (CTxOutCompressor.Unserialize secp prior) txout (CTxOutCompressor.Serialize secp txout) := by
  obtain ⟨fits,back⟩ := toCAmount_of_money nonneg le_max
  have code : CompressAmount (txout.nValue % 2^64).toNat ≤ 2^64 - 1 :=
    Nat.le_sub_one_of_lt (CompressAmount_lt _)
  unfold CTxOutCompressor.Unserialize CTxOutCompressor.Serialize
  refine (ReadVarInt_WriteVarInt code).bind ?_
  refine (CScriptCompressor_round_trip decompresses short).bind_pure ?_
  rw [DecompressAmount_CompressAmount _ fits,back]

/-- The code of `Coin::Serialize` keeps the coinbase flag in its low bit and
    the height above it. -/
theorem code_fields (nHeight : Nat) (fCoinBase : Bool) :
    ((nHeight * 2 + if fCoinBase then 1 else 0) &&& 1 == 1) = fCoinBase ∧
      (nHeight * 2 + if fCoinBase then 1 else 0) >>> 1 = nHeight := by
  rw [Nat.and_one_is_mod,Nat.shiftRight_eq_div_pow]
  cases fCoinBase
  · simp
  · -- the flag is the odd bit, which halving drops
    simp
    omega

/-- A coin of money whose height fits its 31 bits and whose script has at most
    `MAX_SCRIPT_SIZE` bytes is serialized, and reads back from its
    serialization over any coin it is read into. -/
theorem Coin_round_trip {secp : Secp256k1} (decompresses : secp.DecompressesValid) {target coin : Coin}
    (nonneg : 0 ≤ coin.out.nValue) (le_max : coin.out.nValue ≤ MAX_MONEY) (height : coin.nHeight < 2^31)
    (short : coin.out.scriptPubKey.length ≤ MAX_SCRIPT_SIZE) :
    ∃ bytes, coin.Serialize secp = .ok bytes ∧ Reads (Coin.Unserialize secp target) coin bytes := by
  have unspent : coin.IsSpent = false := by
    simp only [Coin.IsSpent,CTxOut.IsNull,beq_eq_false_iff_ne]
    exact ne_of_gt (lt_of_lt_of_le (by decide) nonneg)
  have fits : (coin.nHeight * 2 + if coin.fCoinBase then 1 else 0) < 2^32 := by split_ifs <;> omega
  refine ⟨WriteVarInt (coin.nHeight * 2 + if coin.fCoinBase then 1 else 0) ++ CTxOutCompressor.Serialize secp coin.out,
    by rw [Coin.Serialize,if_neg (by rw [unspent]; decide),Nat.mod_eq_of_lt fits],?_⟩
  obtain ⟨flag,rest⟩ := code_fields coin.nHeight coin.fCoinBase
  unfold Coin.Unserialize
  refine (ReadVarInt_WriteVarInt (Nat.le_sub_one_of_lt fits)).bind ?_
  refine (CTxOutCompressor_round_trip decompresses nonneg le_max short).bind_pure ?_
  rw [flag,rest]

/-- The compressed serialization of unspent outputs loses nothing: an amount
    of money decompresses from its code, a script of at most `MAX_SCRIPT_SIZE`
    bytes reads back from its compressed form, and so does a whole coin. -/
theorem coin_compression_round_trips (secp : Secp256k1) (decompresses : secp.DecompressesValid) :
    (∀ n : Nat, n ≤ MAX_MONEY.toNat → DecompressAmount (CompressAmount n) = n) ∧
    (∀ prior script : CScript, script.length ≤ MAX_SCRIPT_SIZE →
      Reads (CScriptCompressor.Unserialize secp prior) script (CScriptCompressor.Serialize secp script)) ∧
    ∀ target coin : Coin, 0 ≤ coin.out.nValue → coin.out.nValue ≤ MAX_MONEY → coin.nHeight < 2^31 →
      coin.out.scriptPubKey.length ≤ MAX_SCRIPT_SIZE →
      ∃ bytes, coin.Serialize secp = .ok bytes ∧ Reads (Coin.Unserialize secp target) coin bytes := by
  have money : MAX_MONEY.toNat = 2100000000000000 := rfl
  refine ⟨fun n le_max => DecompressAmount_CompressAmount n (by omega),
    fun _ _ short => CScriptCompressor_round_trip decompresses short,
    fun _ _ nonneg le_max height short => Coin_round_trip decompresses nonneg le_max height short⟩

/-- A secp256k1 that knows one key: it is fully valid, and its compressed form
    decompresses to it. -/
def oneKey (key : List UInt8) : Secp256k1 where
  IsFullyValid pubkey := pubkey == key
  Decompress compr := if compr = (0x02 ||| (key.getD 64 0 &&& 0x01)) :: (key.drop 1).take 32 then some key else none

theorem oneKey_decompressesValid (key : List UInt8) : (oneKey key).DecompressesValid := by
  intro pubkey _ _ valid
  have same : pubkey = key := by simpa [oneKey] using valid
  subst same
  simp [oneKey]

/-- An uncompressed key of the curve's form. -/
def sampleKey : List UInt8 := 0x04 :: List.replicate 64 0x11

/-- A coinbase output paying 50 coins to `sampleKey`, whose script is the
    uncompressed special form. -/
def payToSampleKey : Coin := ⟨⟨50 * COIN,[65] ++ sampleKey ++ [OP_CHECKSIG]⟩,true,1⟩

example : CompressScript (oneKey sampleKey) payToSampleKey.out.scriptPubKey = some (0x05 :: List.replicate 32 0x11) := by
  decide

theorem coin_compression_round_trips_for_pay_to_key :
    (oneKey sampleKey).DecompressesValid ∧ ∃ bytes, payToSampleKey.Serialize (oneKey sampleKey) = .ok bytes ∧
      Reads (Coin.Unserialize (oneKey sampleKey) Coin.empty) payToSampleKey bytes :=
  ⟨oneKey_decompressesValid sampleKey,
    (coin_compression_round_trips (oneKey sampleKey) (oneKey_decompressesValid sampleKey)).2.2 Coin.empty payToSampleKey
      (by decide) (by decide) (by decide) (by decide)⟩

end BitcoinPrivate
