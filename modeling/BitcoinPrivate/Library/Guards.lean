import Mathlib.Logic.Basic

/-!
Validators in the `Except` monad: a sequence of checks, each of which throws
its reason, succeeds exactly when every check succeeds in turn. And loops in
`Option`, where `none` is a step that is not defined.
-/
namespace BitcoinPrivate.Guards

@[simp]
theorem ok_bind {ε α β : Type} (a : α) (f : α → Except ε β) : (Except.ok a >>= f) = f a := rfl

theorem bind_eq_ok {ε α β : Type} {x : Except ε α} {f : α → Except ε β} {b : β} :
    (x >>= f) = .ok b ↔ ∃ a, x = .ok a ∧ f a = .ok b := by
  cases x <;> simp [bind,Except.bind]

/-- A check `if c then throw e` in the middle of a `do` block: the block goes on
    only where `c` fails. -/
theorem ite_throw_eq_ok {ε α β : Type} {c : Prop} [Decidable c] {e : ε} {k : α → Except ε β} {m : Except ε β}
    {b : β} : (if c then (throw e >>= k) else m) = .ok b ↔ ¬c ∧ m = .ok b := by
  by_cases h : c <;> simp [h,throw,throwThe,MonadExceptOf.throw,bind,Except.bind]

theorem forM_eq_ok {ε α : Type} {f : α → Except ε Unit} {xs : List α} :
    xs.forM f = .ok () ↔ ∀ x ∈ xs, f x = .ok () := by
  induction xs with
  | nil => simp [List.forM,pure,Except.pure]
  | cons x xs ih =>
    simp only [List.forM,bind_eq_ok,ih,List.mem_cons,forall_eq_or_imp]
    constructor
    · rintro ⟨⟨⟩,first,rest⟩
      exact ⟨first,rest⟩
    · rintro ⟨first,rest⟩
      exact ⟨(),first,rest⟩

/-- A loop of partial steps runs through when every step does. -/
theorem mapM_isSome {α β : Type} {f : α → Option β} :
    ∀ {xs : List α}, (∀ x ∈ xs, (f x).isSome) → (xs.mapM f).isSome
  | [], _ => rfl
  | x :: xs, defined => by
    obtain ⟨b,first⟩ := Option.isSome_iff_exists.mp (defined x List.mem_cons_self)
    obtain ⟨bs,rest⟩ := Option.isSome_iff_exists.mp
      (mapM_isSome fun y mem => defined y (List.mem_cons_of_mem x mem))
    simp [List.mapM_cons,first,rest]

end BitcoinPrivate.Guards
