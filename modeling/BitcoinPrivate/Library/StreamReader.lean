import Mathlib.Data.List.Basic
import Mathlib.Data.Vector.Basic
import Mathlib.Data.List.GetD

/-!
Readers of a stream: a reader takes what it needs off the front of the stream
and leaves the rest, or fails with a message. `Reads r a xs` says that `r`
reads `a` off exactly `xs`, whatever follows; a composite format's round trip
is put together from its fields' with `Reads.bind`, and a failure is carried
through the rest of a reader by `run_bind_error`. A record of a fixed layout
is the layout's constant items around its fields (`frame_eq`).
-/
namespace BitcoinPrivate.StreamReader

/-- A reader of `α` from a stream of `β`. -/
abbrev Reader (β α : Type) := StateT (List β) (Except String) α

variable {β α γ : Type}

/-- The next `n` items, or the message `eod` when the stream is shorter. -/
def take (eod : String) (n : Nat) : Reader β (List β) := fun s =>
  if n ≤ s.length then .ok (s.take n,s.drop n) else .error eod

/-- `take` with the length in the type. -/
def takeVector (eod : String) (n : Nat) : Reader β (Vector β n) := fun s =>
  if h : n ≤ s.length then .ok (⟨(s.take n).toArray,by simp [h]⟩,s.drop n) else .error eod

/-- `n` items, one after another. -/
def replicateM (r : Reader β α) : Nat → Reader β (List α)
  | 0 => pure []
  | n+1 => do
    let a ← r
    let as ← replicateM r n
    pure (a :: as)

/-- `n` items into a vector, in order of position. -/
def replicateVector (r : Reader β α) : (n : Nat) → Reader β (Vector α n)
  | 0 => pure #v[]
  | n+1 => do
    let as ← replicateVector r n
    let a ← r
    pure (as.push a)

/-- `r` reads `a` off exactly `xs`, whatever follows. -/
def Reads (r : Reader β α) (a : α) (xs : List β) : Prop :=
  ∀ rest, r.run (xs ++ rest) = .ok (a,rest)

theorem run_bind_ok {r : Reader β α} {f : α → Reader β γ} {s s' : List β} {a : α} (first : r.run s = .ok (a,s')) :
    (r >>= f).run s = (f a).run s' := by
  simp only [StateT.run_bind,first]
  rfl

theorem run_bind_error {r : Reader β α} {f : α → Reader β γ} {s : List β} {e : String} (first : r.run s = .error e) :
    (r >>= f).run s = .error e := by
  simp only [StateT.run_bind,first]
  rfl

theorem run_bind_eq_ok {r : Reader β α} {f : α → Reader β γ} {s s'' : List β} {b : γ} :
    (r >>= f).run s = .ok (b,s'') ↔ ∃ a s', r.run s = .ok (a,s') ∧ (f a).run s' = .ok (b,s'') := by
  simp only [StateT.run_bind]
  cases h : r.run s with
  | error e => simp [bind,Except.bind]
  | ok p =>
    obtain ⟨a,s'⟩ := p
    simp [bind,Except.bind]

/-- A check made without reading: the reader goes on where it passes. -/
theorem run_lift_bind_ok {x : Except String α} {f : α → Reader β γ} {s : List β} {a : α} (passes : x = .ok a) :
    (StateT.lift x >>= f).run s = (f a).run s := by
  subst passes
  rfl

theorem run_lift_bind_error {x : Except String α} {f : α → Reader β γ} {s : List β} {e : String}
    (fails : x = .error e) : (StateT.lift x >>= f).run s = .error e := by
  subst fails
  rfl

theorem Reads.pure (a : α) : Reads (Pure.pure a : Reader β α) a [] := fun _ => rfl

theorem Reads.bind {r : Reader β α} {f : α → Reader β γ} {a : α} {b : γ} {xs ys : List β}
    (first : Reads r a xs) (second : Reads (f a) b ys) : Reads (r >>= f) b (xs ++ ys) := by
  intro rest
  rw [List.append_assoc,run_bind_ok (first (ys ++ rest))]
  exact second rest

/-- The last field of a record, after which nothing more is read. -/
theorem Reads.bind_last {r : Reader β α} {f : α → Reader β γ} {a : α} {b : γ} {xs : List β}
    (first : Reads r a xs) (second : Reads (f a) b []) : Reads (r >>= f) b xs := by
  have whole := first.bind second
  rwa [List.append_nil] at whole

/-- The last field of a record, read and then made into the record. -/
theorem Reads.bind_pure {r : Reader β α} {g : α → γ} {a : α} {b : γ} {xs : List β} (read : Reads r a xs)
    (made : g a = b) : Reads (r >>= fun a => Pure.pure (g a)) b xs := by
  intro rest
  rw [run_bind_ok (read rest),made]
  rfl

/-- A check made without reading, which passes, and the rest read after it. -/
theorem Reads.lift_bind {x : Except String α} {f : α → Reader β γ} {a : α} {b : γ} {ys : List β}
    (passes : x = .ok a) (second : Reads (f a) b ys) : Reads (StateT.lift x >>= f) b ys := by
  intro rest
  rw [run_lift_bind_ok passes]
  exact second rest

theorem Reads.map {r : Reader β α} {a : α} {xs : List β} (g : α → γ) (read : Reads r a xs) :
    Reads (g <$> r) (g a) xs := by
  intro rest
  simp only [StateT.run_map,read rest]
  rfl

theorem Reads.take (eod : String) (xs : List β) : Reads (StreamReader.take eod xs.length) xs xs := by
  intro rest
  simp [StreamReader.take,StateT.run]

theorem Reads.takeVector (eod : String) {n : Nat} (v : Vector β n) :
    Reads (StreamReader.takeVector eod n) v v.toList := by
  intro rest
  simp [StreamReader.takeVector,StateT.run,Vector.toList]

/-- A list read item by item, each item from its own bytes. -/
theorem Reads.replicateM {r : Reader β α} {g : γ → α} {f : γ → List β} :
    ∀ {xs : List γ}, (∀ x ∈ xs, Reads r (g x) (f x)) → Reads (StreamReader.replicateM r xs.length) (xs.map g) (xs.flatMap f)
  | [], _ => Reads.pure []
  | x :: xs, each => by
    have head := each x List.mem_cons_self
    have tail := Reads.replicateM fun y mem => each y (List.mem_cons_of_mem x mem)
    have consed := tail.bind (f := fun as => (Pure.pure (g x :: as) : Reader β (List α))) (Reads.pure (g x :: xs.map g))
    rw [List.append_nil] at consed
    exact head.bind (f := fun a => StreamReader.replicateM r xs.length >>= fun as => Pure.pure (a :: as)) consed

/-- A vector read position by position, each item from its own bytes. -/
theorem Reads.replicateVector {r : Reader β α} {f : α → List β} :
    ∀ {n : Nat} (v : Vector α n), (∀ a ∈ v.toList, Reads r a (f a)) →
      Reads (StreamReader.replicateVector r n) v (v.toList.flatMap f)
  | 0, v, _ => by
    obtain rfl : v = #v[] := Vector.eq_empty
    exact Reads.pure _
  | n+1, v, each => by
    have split : v = v.pop.push v.back := (Vector.push_pop_back v).symm
    have front := Reads.replicateVector v.pop fun a mem => each a (by
      rw [split,Vector.toList_push]; exact List.mem_append_left _ mem)
    have last := each v.back (by rw [split,Vector.toList_push]; simp)
    have pushed := last.bind (f := fun a => (Pure.pure (v.pop.push a) : Reader β (Vector α (n+1)))) (Reads.pure _)
    rw [List.append_nil,← split] at pushed
    have whole := front.bind (f := fun as => r >>= fun a => Pure.pure (as.push a)) pushed
    have expand : v.toList.flatMap f = v.pop.toList.flatMap f ++ f v.back := by
      conv_lhs => rw [split]
      rw [Vector.toList_push,List.flatMap_append]
      simp only [List.flatMap_cons,List.flatMap_nil,List.append_nil]
    rwa [expand]

/-! ## Fixed layouts -/

theorem eq_of_getD {l l' : List β} {d : β} (len : l.length = l'.length)
    (each : ∀ i < l'.length, l.getD i d = l'.getD i d) : l = l' := by
  apply List.ext_getElem len
  intro i inside inside'
  have at_i := each i inside'
  rwa [List.getD_eq_getElem _ _ inside,List.getD_eq_getElem _ _ inside'] at at_i

theorem getElem?_eq_getD {l : List β} {i : Nat} {d : β} (inside : i < l.length) : l[i]? = some (l.getD i d) := by
  rw [List.getElem?_eq_getElem inside, List.getD_eq_getElem]

theorem exists_append_of_le {l : List β} {k : Nat} (le : k ≤ l.length) : ∃ a b, l = a ++ b ∧ a.length = k :=
  ⟨l.take k, l.drop k, (List.take_append_drop k l).symm, List.length_take_of_le le⟩

/-- A list that agrees with `pre` at its front and with `post` at its back,
    with `k` items between them, is those items framed by the two. -/
theorem frame_eq {l pre post : List β} {k : Nat} {d : β} (len : l.length = pre.length + k + post.length)
    (front : ∀ i < pre.length, l.getD i d = pre.getD i d)
    (back : ∀ i < post.length, l.getD (pre.length + k + i) d = post.getD i d) :
    pre ++ (l.drop pre.length).take k ++ post = l := by
  have head : l.take pre.length = pre :=
    eq_of_getD (d := d) (by simp; omega) fun i inside => by
      rw [List.getD_eq_getElem?_getD,List.getElem?_take_of_lt inside,← List.getD_eq_getElem?_getD]
      exact front i inside
  have tail : l.drop (pre.length + k) = post :=
    eq_of_getD (d := d) (by simp; omega) fun i inside => by
      rw [List.getD_eq_getElem?_getD,List.getElem?_drop,← List.getD_eq_getElem?_getD]
      exact back i inside
  conv_rhs => rw [← List.take_append_drop pre.length l,← List.take_append_drop k (l.drop pre.length),List.drop_drop]
  rw [head,tail,List.append_assoc]

end BitcoinPrivate.StreamReader
