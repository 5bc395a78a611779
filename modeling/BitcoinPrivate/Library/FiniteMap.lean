import Mathlib.Data.List.AList
import BitcoinPrivate.Library.Guards

/-!
Finite maps as association lists whose values do not depend on the key, and
batches of updates: a loop over the entries of one map that sets, at each
entry's key of another map, a value computed from the entry and the key's old
value, and that may fail. Since the keys of the entries are distinct, the result
at a key depends only on that key's entry and old value, whatever the order of
the entries, and the loop fails only where one of those computations does.
-/
namespace BitcoinPrivate.FiniteMap

variable {K V W ε : Type} [DecidableEq K]

/-- Set the value at `k`; `none` erases it. -/
def setAt (m : AList fun _ : K => V) (k : K) : Option V → AList fun _ : K => V
  | none => m.erase k
  | some v => m.insert k v

@[simp] theorem lookup_insert_ite (m : AList fun _ : K => V) (k k' : K) (v : V) :
    (m.insert k v).lookup k' = if k' = k then some v else m.lookup k' := by
  by_cases same : k' = k
  · subst same
    simp [AList.lookup_insert]
  · simp [same, AList.lookup_insert_ne]

@[simp] theorem lookup_erase_ite (m : AList fun _ : K => V) (k k' : K) :
    (m.erase k).lookup k' = if k' = k then none else m.lookup k' := by
  by_cases same : k' = k
  · subst same
    simp [AList.lookup_erase]
  · simp [same, AList.lookup_erase_ne]

@[simp] theorem lookup_setAt (m : AList fun _ : K => V) (k k' : K) (o : Option V) :
    (setAt m k o).lookup k' = if k' = k then o else m.lookup k' := by
  cases o <;> simp [setAt]

@[simp] theorem lookup_empty (k : K) : (∅ : AList fun _ : K => V).lookup k = none := AList.lookup_empty k

/-- A batch: each entry `⟨k, w⟩` of `l` sets `k` to what `f w` makes of its old
    value, in the order of `l`, and the batch stops at the first failure. -/
def batch (f : W → Option V → Except ε (Option V)) (l : List (Σ _ : K, W)) (m : AList fun _ : K => V) :
    Except ε (AList fun _ : K => V) :=
  l.foldlM (fun m e => setAt m e.1 <$> f e.2 (m.lookup e.1)) m

variable {f : W → Option V → Except ε (Option V)}

theorem batch_nil (m : AList fun _ : K => V) : batch f [] m = .ok m := rfl

theorem batch_cons (k : K) (w : W) (l : List (Σ _ : K, W)) (m : AList fun _ : K => V) :
    batch f (⟨k, w⟩ :: l) m = f w (m.lookup k) >>= fun o => batch f l (setAt m k o) := by
  simp only [batch, List.foldlM_cons]
  cases f w (m.lookup k) <;> rfl

/-- A batch over distinct keys succeeds when every entry's update of the key's
    old value does. -/
theorem batch_ok : ∀ {l : List (Σ _ : K, W)} {m : AList fun _ : K => V}, l.NodupKeys →
    (∀ e ∈ l, ∃ o, f e.2 (m.lookup e.1) = .ok o) → ∃ r, batch f l m = .ok r
  | [], m, _, _ => ⟨m, rfl⟩
  | ⟨k, w⟩ :: l, m, distinct, updates => by
    obtain ⟨fresh, rest⟩ := List.nodupKeys_cons.mp distinct
    obtain ⟨o, first⟩ := updates ⟨k, w⟩ List.mem_cons_self
    -- the later entries have other keys, so the first write does not change what they read
    have later : ∀ e ∈ l, ∃ o', f e.2 ((setAt m k o).lookup e.1) = .ok o' := by
      intro e mem
      have other : e.1 ≠ k := fun same => fresh (by rw [← same]; exact List.mem_keys_of_mem (s := e) mem)
      simpa [other] using updates e (List.mem_cons_of_mem _ mem)
    obtain ⟨r, done⟩ := batch_ok rest later
    exact ⟨r, by rw [batch_cons, first]; exact done⟩

/-- What a successful batch over distinct keys leaves at each key: the update of
    the old value where `l` has an entry, the old value elsewhere. -/
theorem batch_lookup : ∀ {l : List (Σ _ : K, W)} {m r : AList fun _ : K => V}, l.NodupKeys →
    batch f l m = .ok r → ∀ k,
      (∀ w, l.dlookup k = some w → f w (m.lookup k) = .ok (r.lookup k)) ∧
        (l.dlookup k = none → r.lookup k = m.lookup k)
  | [], m, r, _, done, k => by
    cases done
    simp
  | ⟨k₀, w₀⟩ :: l, m, r, distinct, done, k => by
    obtain ⟨fresh, rest⟩ := List.nodupKeys_cons.mp distinct
    obtain ⟨o, first, later⟩ := Guards.bind_eq_ok.mp ((batch_cons k₀ w₀ l m).symm.trans done)
    obtain ⟨entry, absent⟩ := batch_lookup rest later k
    by_cases here : k = k₀
    · subst here
      have notLater : l.dlookup k = none := List.dlookup_eq_none.mpr fresh
      refine ⟨?_, by simp [List.dlookup_cons_eq]⟩
      intro w found
      simp only [List.dlookup_cons_eq, Option.some.injEq] at found
      subst found
      rw [absent notLater, lookup_setAt, if_pos rfl]
      exact first
    · have skip : (⟨k₀, w₀⟩ :: l : List (Σ _ : K, W)).dlookup k = l.dlookup k :=
        List.dlookup_cons_ne l ⟨k₀, w₀⟩ here
      rw [skip]
      simpa [here] using And.intro entry absent

end BitcoinPrivate.FiniteMap
