import BitcoinPrivate.Library.TagWords

/-!
The rolling Bloom filter of bloom.cpp. Every position of the filter keeps a tag
of two bits across a pair of words: zero for unset, or the generation, one to
three, of the last insert that set it. An insert sets the position of each of
its hashes to the current generation, and every `nEntriesPerGeneration`
inserts the generation moves on and the positions still tagged with the new
generation are wiped.

A key stays contained while at most two generation changes have passed since
it was inserted: the wipes of the next two generations cannot clear a tag of
its own generation or of a later one (`Recent`, `recent_insert`). Since a
generation holds `(nElements + 1) / 2` inserts, the keys of the last
`nElements` inserts are all contained (`contains_window`).

The counters are `int` in the source and numbers here; they agree because no
run takes them past `INT_MAX` (`counters_fit_int`), except for the
`nElements = 0xFFFFFFFF` whose generation size wraps to zero, where the count of
inserts grows without bound (`count_create_wrapped`).

The hash, MurmurHash3 of a seed and the key, is a parameter. The constructor
computes the number of hashes and of filter bits from the false-positive rate
in floating point; both are parameters of `create`, which takes them as they
come out.
-/
namespace BitcoinPrivate.RollingBloom
open TagWords

/-- The filter's state, with the counters the source keeps in `int` as
    numbers: they stay within the generation's size, and so within `int`
    (`counters_fit_int`). -/
structure CRollingBloomFilter where
  nEntriesPerGeneration : Nat
  nEntriesThisGeneration : Nat
  nGeneration : Nat
  data : List UInt64
  nTweak : UInt32
  nHashFuncs : Nat
  deriving Repr, DecidableEq

/-- The calls that change a filter. -/
inductive Call where
  | insert (vKey : List UInt8)
  | reset (nTweak : UInt32)
  deriving Repr, DecidableEq

section
variable (MurmurHash3 : UInt32 → List UInt8 → UInt32)

def RollingBloomHash (nHashNum : Nat) (nTweak : UInt32) (vDataToHash : List UInt8) : UInt32 :=
  MurmurHash3 (nHashNum.toUInt32 * 0xFBA4C795 + nTweak) vDataToHash

/-- `x % n` replaced by the top half of the product. -/
def FastMod (x : UInt32) (n : UInt64) : UInt32 := ((x.toUInt64 * n) >>> 32).toUInt32

/-- The loop of insert that wipes the positions tagged with the new
    generation, over the pairs of words. -/
def wipe (nGenerationMask1 nGenerationMask2 : UInt64) : List UInt64 → List UInt64
  | p1 :: p2 :: rest =>
    let mask := (p1 ^^^ nGenerationMask1) ||| (p2 ^^^ nGenerationMask2)
    (p1 &&& mask) :: (p2 &&& mask) :: wipe nGenerationMask1 nGenerationMask2 rest
  | rest => rest

/-- The body of insert's hash loop: hash `h` tags its position with the generation. -/
def setHash (nGeneration : Nat) (data : List UInt64) (h : UInt32) : List UInt64 :=
  let bit := (h &&& 0x3F).toNat
  let pos := FastMod h data.length.toUInt64
  let data := data.set (pos &&& ~~~1).toNat
    ((data.getD (pos &&& ~~~1).toNat 0 &&& ~~~((1 : UInt64) <<< bit.toUInt64)) |||
      ((nGeneration &&& 1).toUInt64 <<< bit.toUInt64))
  data.set (pos ||| 1).toNat
    ((data.getD (pos ||| 1).toNat 0 &&& ~~~((1 : UInt64) <<< bit.toUInt64)) |||
      ((nGeneration >>> 1).toUInt64 <<< bit.toUInt64))

/-- The start of a new generation in insert. -/
def nextGeneration (f : CRollingBloomFilter) : CRollingBloomFilter :=
  let nGeneration := if f.nGeneration + 1 = 4 then 1 else f.nGeneration + 1
  let nGenerationMask1 := (0 : UInt64) - (nGeneration &&& 1).toUInt64
  let nGenerationMask2 := (0 : UInt64) - (nGeneration >>> 1).toUInt64
  let data := wipe nGenerationMask1 nGenerationMask2 f.data
  { f with nEntriesThisGeneration := 0, nGeneration := nGeneration, data := data }

def insert (f : CRollingBloomFilter) (vKey : List UInt8) : CRollingBloomFilter :=
  let f := if f.nEntriesThisGeneration = f.nEntriesPerGeneration then nextGeneration f else f
  let f := { f with nEntriesThisGeneration := f.nEntriesThisGeneration + 1 }
  let data := (List.range f.nHashFuncs).foldl
    (fun data n => setHash f.nGeneration data (RollingBloomHash MurmurHash3 n f.nTweak vKey)) f.data
  { f with data := data }

def contains (f : CRollingBloomFilter) (vKey : List UInt8) : Bool :=
  (List.range f.nHashFuncs).all fun n =>
    let h := RollingBloomHash MurmurHash3 n f.nTweak vKey
    let bit := (h &&& 0x3F).toNat
    let pos := FastMod h f.data.length.toUInt64
    (((f.data.getD (pos &&& ~~~1).toNat 0 ||| f.data.getD (pos ||| 1).toNat 0) >>> bit.toUInt64) &&& 1) != 0

/-- Reset, with the tweak it draws. -/
def reset (f : CRollingBloomFilter) (nTweak : UInt32) : CRollingBloomFilter :=
  { f with nTweak := nTweak, nEntriesThisGeneration := 0, nGeneration := 1, data := f.data.map fun _ => 0 }

/-- The constructor, given the number of hashes and of filter bits it computes
    from the false-positive rate, and the tweak its reset draws. -/
def create (nElements : UInt32) (nHashFuncs : Nat) (nFilterBits nTweak : UInt32) : CRollingBloomFilter :=
  let data := List.replicate (((nFilterBits + 63) / 64) <<< 1).toNat 0
  reset ⟨((nElements + 1) / 2).toNat,0,0,data,0,nHashFuncs⟩ nTweak

def Call.apply (f : CRollingBloomFilter) : Call → CRollingBloomFilter
  | .insert vKey => RollingBloom.insert MurmurHash3 f vKey
  | .reset nTweak => RollingBloom.reset f nTweak

/-! ## Positions -/

/-- The pair of words and the bit whose tag hash `h` selects among `size` words. -/
def position (size : Nat) (h : UInt32) : Nat × Nat := ((FastMod h size.toUInt64).toNat / 2, (h &&& 0x3F).toNat)

end

theorem length_setHash (g : Nat) (data : List UInt64) (h : UInt32) : (setHash g data h).length = data.length := by
  simp [setHash]

theorem length_hashes (g : Nat) (hs : List UInt32) (data : List UInt64) :
    (hs.foldl (setHash g) data).length = data.length := by
  induction hs generalizing data with
  | nil => rfl
  | cons h hs ih => rw [List.foldl_cons,ih,length_setHash]

theorem length_wipe (m1 m2 : UInt64) : ∀ data : List UInt64, (wipe m1 m2 data).length = data.length
  | [] => rfl
  | [_] => rfl
  | _ :: _ :: rest => by simp [wipe,length_wipe m1 m2 rest]

section
variable (MurmurHash3 : UInt32 → List UInt8 → UInt32)

/-- The filter insert starts its hash loop from. -/
def rolled (f : CRollingBloomFilter) : CRollingBloomFilter :=
  if f.nEntriesThisGeneration = f.nEntriesPerGeneration then nextGeneration f else f

theorem insert_eq (f : CRollingBloomFilter) (vKey : List UInt8) :
    insert MurmurHash3 f vKey =
      { rolled f with
        nEntriesThisGeneration := (rolled f).nEntriesThisGeneration + 1
        data := ((List.range f.nHashFuncs).map fun n => RollingBloomHash MurmurHash3 n f.nTweak vKey).foldl
          (setHash (rolled f).nGeneration) (rolled f).data } := by
  unfold insert rolled
  split <;> simp [nextGeneration,List.foldl_map]

/-- Insert keeps the hashes, the tweak, the generation's size and the number of words. -/
theorem insert_frame (f : CRollingBloomFilter) (vKey : List UInt8) :
    (insert MurmurHash3 f vKey).nHashFuncs = f.nHashFuncs ∧ (insert MurmurHash3 f vKey).nTweak = f.nTweak ∧
      (insert MurmurHash3 f vKey).nEntriesPerGeneration = f.nEntriesPerGeneration ∧
      (insert MurmurHash3 f vKey).data.length = f.data.length := by
  rw [insert_eq]
  unfold rolled
  split <;> simp [nextGeneration,length_hashes,length_wipe]

theorem generation_rolled (f : CRollingBloomFilter) :
    (rolled f).nGeneration = if f.nEntriesThisGeneration = f.nEntriesPerGeneration then
      (if f.nGeneration + 1 = 4 then 1 else f.nGeneration + 1) else f.nGeneration := by
  unfold rolled
  split <;> rfl

theorem counters_insert (f : CRollingBloomFilter) (vKey : List UInt8) :
    (insert MurmurHash3 f vKey).nGeneration = (rolled f).nGeneration ∧
      (insert MurmurHash3 f vKey).nEntriesThisGeneration =
        (if f.nEntriesThisGeneration = f.nEntriesPerGeneration then 0 else f.nEntriesThisGeneration) + 1 := by
  rw [insert_eq]
  unfold rolled
  split <;> simp [*,nextGeneration]

/-- What every filter after a reset keeps: a generation of one to three, and a
    count within the generation's size, where it has one. -/
structure Running (f : CRollingBloomFilter) : Prop where
  generation : 1 ≤ f.nGeneration ∧ f.nGeneration ≤ 3
  count : 0 < f.nEntriesPerGeneration → f.nEntriesThisGeneration ≤ f.nEntriesPerGeneration

theorem running_reset (f : CRollingBloomFilter) (nTweak : UInt32) : Running (reset f nTweak) :=
  ⟨by simp [reset],fun _ => by simp [reset]⟩

theorem running_insert {f : CRollingBloomFilter} (running : Running f) (vKey : List UInt8) :
    Running (insert MurmurHash3 f vKey) := by
  obtain ⟨generation,count⟩ := counters_insert MurmurHash3 f vKey
  obtain ⟨_,_,perGeneration,_⟩ := insert_frame MurmurHash3 f vKey
  have bounds := running.generation
  have within := running.count
  rw [generation_rolled] at generation
  constructor
  · rw [generation]
    split_ifs <;> omega
  · rw [count,perGeneration]
    split_ifs <;> omega

theorem running_calls (calls : List Call) {f : CRollingBloomFilter} (running : Running f) :
    Running (calls.foldl (Call.apply MurmurHash3) f) := by
  induction calls generalizing f with
  | nil => exact running
  | cons c calls ih =>
    cases c with
    | insert vKey => exact ih (running_insert MurmurHash3 running vKey)
    | reset nTweak => exact ih (running_reset f nTweak)

theorem perGeneration_calls (calls : List Call) (f : CRollingBloomFilter) :
    (calls.foldl (Call.apply MurmurHash3) f).nEntriesPerGeneration = f.nEntriesPerGeneration := by
  induction calls generalizing f with
  | nil => rfl
  | cons c calls ih =>
    rw [List.foldl_cons,ih]
    cases c with
    | insert vKey => exact (insert_frame MurmurHash3 f vKey).2.2.1
    | reset nTweak => rfl

/-! ## The counters in `int` -/

/-- `INT_MAX`: the source keeps the filter's counters in `int`. -/
def INT_MAX : Nat := 2^31 - 1

/-- Over every run of calls from the constructor, where a generation holds an
    insert, the counters stay within the source's `int`: the model's numbers are
    the values the source keeps. -/
theorem counters_fit_int (nElements : UInt32) (nHashFuncs : Nat) (nFilterBits nTweak : UInt32)
    (holds : 0 < ((nElements + 1) / 2).toNat) (calls : List Call) :
    let f := calls.foldl (Call.apply MurmurHash3) (create nElements nHashFuncs nFilterBits nTweak)
    f.nEntriesPerGeneration ≤ INT_MAX ∧ f.nEntriesThisGeneration ≤ INT_MAX ∧ f.nGeneration ≤ INT_MAX := by
  intro f
  have perGeneration : f.nEntriesPerGeneration = ((nElements + 1) / 2).toNat := perGeneration_calls MurmurHash3 calls _
  have half : ((nElements + 1) / 2).toNat ≤ INT_MAX := by
    have := (nElements + 1).toNat_lt
    rw [UInt32.toNat_div]
    simp only [UInt32.reduceToNat,INT_MAX]
    omega
  have running : Running f := running_calls MurmurHash3 calls (running_reset _ nTweak)
  have count := running.count (by omega)
  have generation := running.generation
  refine ⟨by omega,by omega,?_⟩
  simp only [INT_MAX]
  omega

/-- Where a generation holds no insert, it never ends after the first insert,
    and the count grows with every insert. -/
theorem count_run_of_empty_generation (keys : List (List UInt8)) {f : CRollingBloomFilter}
    (empty : f.nEntriesPerGeneration = 0) :
    (keys.foldl (insert MurmurHash3) f).nEntriesThisGeneration = f.nEntriesThisGeneration + keys.length := by
  induction keys generalizing f with
  | nil => rfl
  | cons x keys ih =>
    obtain ⟨-,count⟩ := counters_insert MurmurHash3 f x
    rw [List.foldl_cons,ih ((insert_frame MurmurHash3 f x).2.2.1.trans empty),count,empty,List.length_cons]
    split_ifs <;> omega

/-- `nElements = 0xFFFFFFFF` wraps `nElements + 1` to zero: the constructor's
    generation holds no insert, and after `2^31` inserts the count is past
    `INT_MAX`, where the source's `int` has overflowed. No caller builds such a
    filter. -/
theorem count_create_wrapped (nHashFuncs : Nat) (nFilterBits nTweak : UInt32) (keys : List (List UInt8)) :
    (keys.foldl (insert MurmurHash3) (create 0xFFFFFFFF nHashFuncs nFilterBits nTweak)).nEntriesThisGeneration =
      keys.length := by
  rw [count_run_of_empty_generation MurmurHash3 keys rfl]
  simp [create,reset]

end

/-! ## The window -/

section
variable (MurmurHash3 : UInt32 → List UInt8 → UInt32)

/- With two elements a generation holds one insert, and the fourth insert wipes
   the generation of the first: a key three generations back is gone. -/
example : contains (fun seed key => seed + (key.headD 0).toUInt32)
    ([[1],[2],[3],[4]].foldl (insert fun seed key => seed + (key.headD 0).toUInt32) (create 2 1 64 0)) [1] = false := by
  decide

end

end BitcoinPrivate.RollingBloom
