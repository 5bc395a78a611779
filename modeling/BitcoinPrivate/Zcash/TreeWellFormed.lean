import BitcoinPrivate.Coins.CoinsView
import BitcoinPrivate.Primitives.Unserialize

/-!
The representation invariant of `IncrementalMerkleTree`, the shape `wfcheck`
accepts: fewer than `Depth` parents, the last of them present, and no right leaf
or parent without a left leaf. The empty tree has it and `append` keeps it; the
tree's `SerializationOp` writes the three fields and, reading, checks it, so a
tree that has it reads back from its bytes, and nothing without it is read.
-/
namespace BitcoinPrivate.Zcash
open StreamReader

namespace IncrementalMerkleTree

variable {Hash : Type}

/-- The shape `wfcheck` accepts. -/
structure WellFormed (Depth : Nat) (t : IncrementalMerkleTree Hash) : Prop where
  parents_lt : t.parents.length < Depth
  last_parent : ∀ p, t.parents.getLast? = some p → p.isSome
  right_of_left : t.left = none → t.right = none
  parents_of_left : t.left = none → t.parents = []

theorem last_parent_iff {ps : List (Option Hash)} :
    (ps.getLast?.any Option.isNone) = false ↔ ∀ p, ps.getLast? = some p → p.isSome := by
  cases ps.getLast? with
  | none => simp
  | some p => cases p <;> simp

theorem wfcheck_eq_ok {Depth : Nat} {t : IncrementalMerkleTree Hash} :
    t.wfcheck Depth = .ok () ↔ WellFormed Depth t := by
  obtain ⟨left,right,parents⟩ := t
  unfold wfcheck
  constructor
  · intro accepted
    split_ifs at accepted with many last right_present early
    refine ⟨by omega,last_parent_iff.mp (by simpa using last),fun none_left => ?_,fun none_left => ?_⟩
    · dsimp only at none_left ⊢
      simpa [none_left] using right_present
    · dsimp only at none_left ⊢
      simpa [none_left] using early
  · rintro ⟨few,last,right_none,parents_nil⟩
    have few' : ¬ Depth ≤ parents.length := by simpa using few
    have last' : (parents.getLast?.any Option.isNone) = false := last_parent_iff.mpr last
    have right' : ¬ (left.isNone && right.isSome) = true := by
      cases left <;> simp_all
    have early' : ¬ (left.isNone && decide (0 < parents.length)) = true := by
      cases left <;> simp_all
    simp only [few',last',right',early',if_false,Bool.false_eq_true]


theorem WellFormed.empty {Depth : Nat} (deep : 1 ≤ Depth) : WellFormed Depth (empty : IncrementalMerkleTree Hash) :=
  ⟨deep,by simp [IncrementalMerkleTree.empty],fun _ => rfl,fun _ => rfl⟩

section carry

variable (combine : Hash → Hash → Hash)

/-- With a level left for each parent, the carry lengthens the parents only
    when every one of them is present. -/
theorem carry_length {fuel : Nat} {ps : List (Option Hash)} {c : Hash} (room : ps.length < fuel) :
    (carry combine fuel ps c).length = if ps.all Option.isSome then ps.length + 1 else ps.length := by
  induction ps generalizing fuel c with
  | nil =>
    cases fuel with
    | zero => simp at room
    | succ fuel => simp [carry]
  | cons p ps ih =>
    cases fuel with
    | zero => simp at room
    | succ fuel =>
      cases p with
      | none => simp [carry]
      | some p =>
        have room' : ps.length < fuel := by simp at room; omega
        simp only [carry,List.length_cons,ih room',List.all_cons,Option.isSome_some,Bool.true_and]
        split_ifs <;> rfl

theorem carry_ne_nil {fuel : Nat} {ps : List (Option Hash)} {c : Hash} (positive : 0 < fuel) :
    carry combine fuel ps c ≠ [] := by
  obtain ⟨fuel,rfl⟩ := Nat.exists_eq_add_of_lt positive
  rcases ps with _ | ⟨_ | _,_⟩ <;> simp [carry]

/-- The carry ends on a present parent when the parents it starts from do. -/
theorem carry_last {fuel : Nat} {ps : List (Option Hash)} {c : Hash} (room : ps.length < fuel)
    (last : ∀ p, ps.getLast? = some p → p.isSome) :
    ∀ p, (carry combine fuel ps c).getLast? = some p → p.isSome := by
  induction ps generalizing fuel c with
  | nil =>
    cases fuel with
    | zero => simp at room
    | succ fuel => simp [carry]
  | cons q ps ih =>
    cases fuel with
    | zero => simp at room
    | succ fuel =>
      have room' : ps.length < fuel := by simp at room; omega
      -- the parents after the first keep the last one
      have last' : ∀ p, ps.getLast? = some p → p.isSome := by
        intro p at_end
        cases ps with
        | nil => simp at at_end
        | cons b l => exact last p (by rwa [List.getLast?_cons_cons])
      cases q with
      | none =>
        cases ps with
        | nil => simp [carry]
        | cons b l => simpa [carry,List.getLast?_cons_cons] using last
      | some q =>
        have nonempty : carry combine fuel ps (combine q c) ≠ [] := carry_ne_nil combine (by omega)
        obtain ⟨x,xs,carried⟩ := List.exists_cons_of_ne_nil nonempty
        simp only [carry]
        rw [carried,List.getLast?_cons_cons,← carried]
        exact ih room' last'

/-- `append` keeps the shape: a leaf fills the first empty slot, and a full
    pair of leaves is carried into the parents, which stay below `Depth`
    because `append` refuses a complete tree. -/
theorem WellFormed.append {Depth : Nat} {t t' : IncrementalMerkleTree Hash} {obj : Hash}
    (wf : WellFormed Depth t) (appended : t.append combine Depth obj = .ok t') : WellFormed Depth t' := by
  obtain ⟨left,right,parents⟩ := t
  obtain ⟨few,last,right_none,parents_nil⟩ := wf
  dsimp only at few last right_none parents_nil
  unfold IncrementalMerkleTree.append at appended
  split_ifs at appended with full
  cases left with
  | none =>
    cases appended
    exact ⟨by simp [parents_nil rfl]; omega,by simp [parents_nil rfl],fun _ => right_none rfl,fun _ => parents_nil rfl⟩
  | some l =>
    cases right with
    | none =>
      cases appended
      exact ⟨few,last,nofun,nofun⟩
    | some r =>
      cases appended
      have incomplete : ¬ (parents.length + 1 = Depth ∧ parents.all Option.isSome) := by
        simpa [is_complete] using full
      refine ⟨?_,carry_last combine few last,nofun,nofun⟩
      rw [carry_length combine few]
      split_ifs with all_present
      · exact Nat.lt_of_le_of_ne few fun at_depth => incomplete ⟨at_depth,all_present⟩
      · exact few

end carry

section serialization

variable (serHash : Hash → List UInt8) (readHash : Reader UInt8 Hash)

/-- `SerializationOp` writing: `left`, `right`, then `parents`. -/
def Serialize (t : IncrementalMerkleTree Hash) : List UInt8 :=
  serOptional serHash t.left ++ serOptional serHash t.right ++ serVector (serOptional serHash) t.parents

/-- The reads of `SerializationOp`, before its `wfcheck()`. -/
def unserializeFields : Reader UInt8 (IncrementalMerkleTree Hash) := do
  let left ← unserializeOptional readHash
  let right ← unserializeOptional readHash
  let parents ← unserializeVector (unserializeOptional readHash)
  pure ⟨left,right,parents⟩

/-- `SerializationOp` reading: the fields, then `wfcheck()`. -/
def Unserialize (Depth : Nat) : Reader UInt8 (IncrementalMerkleTree Hash) := do
  let t ← unserializeFields readHash
  StateT.lift (t.wfcheck Depth)
  pure t

variable {serHash readHash}

theorem unserializeFields_reads (hashes : ∀ h, Reads readHash h (serHash h)) {t : IncrementalMerkleTree Hash}
    (short : t.parents.length ≤ MAX_SIZE) : Reads (unserializeFields readHash) t (t.Serialize serHash) := by
  have each : ∀ o : Option Hash, Reads (unserializeOptional readHash) o (serOptional serHash o) :=
    fun o => unserializeOptional_reads fun h _ => hashes h
  obtain ⟨left,right,parents⟩ := t
  intro rest
  simp only [Serialize,unserializeFields,List.append_assoc]
  rw [run_bind_ok (each left _),run_bind_ok (each right _),
    run_bind_ok (unserializeVector_reads (fun o _ => each o) short rest)]
  rfl

/-- A well-formed tree reads back from its bytes, when its parents fit in a
    vector `ReadCompactSize` accepts. -/
theorem Unserialize_reads (hashes : ∀ h, Reads readHash h (serHash h)) {Depth : Nat} {t : IncrementalMerkleTree Hash}
    (wf : WellFormed Depth t) (bounded : Depth ≤ MAX_SIZE + 1) : Reads (Unserialize readHash Depth) t (t.Serialize serHash) := by
  intro rest
  have fields := unserializeFields_reads hashes (show t.parents.length ≤ MAX_SIZE by have := wf.parents_lt; omega) rest
  rw [Unserialize,run_bind_ok fields,run_lift_bind_ok (wfcheck_eq_ok.mpr wf)]
  rfl

/-- Fields that read but do not form a well-formed tree are refused. -/
theorem Unserialize_rejects {Depth : Nat} {bytes rest : List UInt8} {t : IncrementalMerkleTree Hash}
    (fields : (unserializeFields readHash).run bytes = .ok (t,rest)) (bad : ¬ WellFormed Depth t) :
    ∃ msg, (Unserialize readHash Depth).run bytes = .error msg := by
  cases check : t.wfcheck Depth with
  | ok u => exact absurd (wfcheck_eq_ok.mp check) bad
  | error msg => exact ⟨msg,by rw [Unserialize,run_bind_ok fields,run_lift_bind_error check]⟩

/-- Every tree read is well formed. -/
theorem Unserialize_wellFormed {Depth : Nat} {bytes rest : List UInt8} {t : IncrementalMerkleTree Hash}
    (accepted : (Unserialize readHash Depth).run bytes = .ok (t,rest)) : WellFormed Depth t := by
  obtain ⟨t',after,fields,checked⟩ := run_bind_eq_ok.mp accepted
  cases check : t'.wfcheck Depth with
  | error msg => rw [run_lift_bind_error check] at checked; cases checked
  | ok u =>
    rw [run_lift_bind_ok check] at checked
    cases checked
    exact wfcheck_eq_ok.mp check

end serialization

end IncrementalMerkleTree

open IncrementalMerkleTree

/-- The invariant `wfcheck` enforces, at the hash the code uses and the depths
    it instantiates the tree at: the empty tree has it, every `append` that
    returns keeps it, a tree that has it reads back from its bytes, fields that
    read without it are refused, and every tree read has it. -/
theorem wfcheck_invariant_and_round_trip (Depth : Nat) (combine : uint256 → uint256 → uint256)
    (instantiated : Instantiated Depth) :
    WellFormed Depth (empty : IncrementalMerkleTree uint256) ∧
      (∀ (t t' : IncrementalMerkleTree uint256) obj, WellFormed Depth t → t.append combine Depth obj = .ok t' →
        WellFormed Depth t') ∧
      (∀ t : IncrementalMerkleTree uint256, WellFormed Depth t → ∀ rest,
        (Unserialize (base_blob.Unserialize 32) Depth).run (t.Serialize base_blob.Serialize ++ rest) = .ok (t,rest)) ∧
      (∀ (bytes rest : List UInt8) (t : IncrementalMerkleTree uint256),
        (unserializeFields (base_blob.Unserialize 32)).run bytes = .ok (t,rest) → ¬ WellFormed Depth t →
          ∃ msg, (Unserialize (base_blob.Unserialize 32) Depth).run bytes = .error msg) ∧
      (∀ (bytes rest : List UInt8) (t : IncrementalMerkleTree uint256),
        (Unserialize (base_blob.Unserialize 32) Depth).run bytes = .ok (t,rest) → WellFormed Depth t) := by
  obtain ⟨deep,shallow⟩ := instantiated.bounds
  -- a well-formed tree has fewer parents than `Depth`, far fewer than `MAX_SIZE`
  have bounded : Depth ≤ MAX_SIZE + 1 := le_trans shallow (by decide)
  exact ⟨WellFormed.empty deep,fun _ _ _ wf appended => wf.append combine appended,
    fun _ wf => Unserialize_reads base_blob.Unserialize_reads wf bounded,
    fun _ _ _ fields bad => Unserialize_rejects fields bad,fun _ _ _ accepted => Unserialize_wellFormed accepted⟩

theorem empty_tree_reads_back :
    Instantiated INCREMENTAL_MERKLE_TREE_DEPTH ∧
    (Unserialize (base_blob.Unserialize 32) INCREMENTAL_MERKLE_TREE_DEPTH).run
      ((empty : IncrementalMerkleTree uint256).Serialize base_blob.Serialize) = .ok (empty,[]) := by
  have deployed : Instantiated INCREMENTAL_MERKLE_TREE_DEPTH := .inl rfl
  have facts := wfcheck_invariant_and_round_trip INCREMENTAL_MERKLE_TREE_DEPTH (fun a _ => a) deployed
  have read := facts.2.2.1 empty facts.1 []
  rw [List.append_nil] at read
  exact ⟨deployed,read⟩

end BitcoinPrivate.Zcash
