import Mathlib.Logic.Basic

/-!
A computation in `Except` that makes fewer checks than another: where the other
succeeds, it succeeds too, with the same value (`Laxer`). The rules follow the
shape of a `do` block: a bind of laxer parts is laxer, a guard that throws is
laxer where its condition is weaker, and a loop of laxer steps is laxer.
-/
namespace BitcoinPrivate

/-- `a` is laxer than `b`: where `b` succeeds, `a` succeeds with the same value. -/
def Laxer {ε α : Type} (a b : Except ε α) : Prop := ∀ x, b = .ok x → a = .ok x

namespace Laxer

variable {ε α β σ : Type}

theorem refl (a : Except ε α) : Laxer a a := fun _ h => h

theorem trans {a b c : Except ε α} (first : Laxer a b) (second : Laxer b c) : Laxer a c :=
  fun x h => first x (second x h)

/-- Nothing is stricter than a computation that never succeeds. -/
theorem of_fails {a b : Except ε α} (fails : ∀ x, b ≠ .ok x) : Laxer a b :=
  fun x h => absurd h (fails x)

/-- A value is laxer than a computation that can only succeed with it. -/
theorem pure_of {b : Except ε α} {y : α} (only : ∀ x, b = .ok x → x = y) : Laxer (pure y) b :=
  fun x h => by rw [only x h]; rfl

/-- A `do` block stops at a `throw`: what follows it is never run. -/
theorem throw_bind (e : ε) (k : α → Except ε β) : (throw e >>= k : Except ε β) = throw e := rfl

theorem throw_fails (e : ε) : ∀ x, (throw e : Except ε α) ≠ .ok x :=
  fun _ h => by cases h

theorem bind_fails {b : Except ε α} {g : α → Except ε β} (fails : ∀ x, b ≠ .ok x) : ∀ y, (b >>= g) ≠ .ok y := by
  intro y h
  cases b with
  | error e => cases h
  | ok x => exact fails x rfl

theorem bind {a b : Except ε α} {f g : α → Except ε β} (first : Laxer a b) (rest : ∀ x, Laxer (f x) (g x)) :
    Laxer (a >>= f) (b >>= g) := by
  intro y h
  cases b with
  | error e => cases h
  | ok x =>
    rw [first x rfl]
    exact rest x y h

/-- A check that only the stricter side makes, before the rest. -/
theorem of_bind {a : Except ε β} {b : Except ε α} {g : α → Except ε β} (rest : ∀ y, Laxer a (g y)) :
    Laxer a (b >>= g) := by
  intro x h
  cases b with
  | error e => cases h
  | ok y => exact rest y x h

/-- A guard: the laxer side branches off where the stricter one does or
    never, and the branch the stricter side takes there fails. -/
theorem ite {c d : Prop} [Decidable c] [Decidable d] {a a' b b' : Except ε α} (weaker : c → d)
    (fails : ∀ x, b' ≠ .ok x) (rest : Laxer a b) : Laxer (if c then a' else a) (if d then b' else b) := by
  intro x h
  by_cases taken : d
  · rw [if_pos taken] at h
    exact absurd h (fails x)
  · rw [if_neg taken] at h
    rw [if_neg (mt weaker taken)]
    exact rest x h

/-- A branch on one condition, laxer on each side. -/
theorem ite_same {c : Prop} [Decidable c] {a a' b b' : Except ε α} (pos : Laxer a' b') (neg : Laxer a b) :
    Laxer (if c then a' else a) (if c then b' else b) := by
  by_cases taken : c
  · rw [if_pos taken, if_pos taken]
    exact pos
  · rw [if_neg taken, if_neg taken]
    exact neg

/-- A branch that only the stricter side makes, laxer on both of its sides. -/
theorem to_ite {c : Prop} [Decidable c] {a b b' : Except ε α} (pos : Laxer a b') (neg : Laxer a b) :
    Laxer a (if c then b' else b) := by
  by_cases taken : c
  · rw [if_pos taken]
    exact pos
  · rw [if_neg taken]
    exact neg

theorem foldlM {f g : σ → α → Except ε σ} (step : ∀ s x, Laxer (f s x) (g s x)) :
    ∀ (xs : List α) (s : σ), Laxer (xs.foldlM f s) (xs.foldlM g s)
  | [], _ => refl _
  | x :: xs, s => by
    simp only [List.foldlM_cons]
    exact bind (step s x) fun s' => foldlM step xs s'

end Laxer

/-- `a` is laxer than `b` in `ExceptT ε Option`, where `none` is a computation
    that stops: where `b` succeeds, `a` succeeds with the same value. -/
def LaxerT {ε α : Type} (a b : ExceptT ε Option α) : Prop := ∀ x, b.run = some (.ok x) → a.run = some (.ok x)

namespace LaxerT

variable {ε α β : Type}

theorem refl (a : ExceptT ε Option α) : LaxerT a a := fun _ h => h

theorem of_fails {a b : ExceptT ε Option α} (fails : ∀ x, b.run ≠ some (.ok x)) : LaxerT a b :=
  fun x h => absurd h (fails x)

theorem throw_bind (e : ε) (k : α → ExceptT ε Option β) : (throw e >>= k : ExceptT ε Option β) = throw e := rfl

theorem throw_fails (e : ε) : ∀ x, (throw e : ExceptT ε Option α).run ≠ some (.ok x) :=
  fun _ h => by cases h

theorem lift_none_bind (k : α → ExceptT ε Option β) : (ExceptT.lift none >>= k : ExceptT ε Option β) = ExceptT.lift none :=
  rfl

theorem lift_none_fails : ∀ x, (ExceptT.lift none : ExceptT ε Option α).run ≠ some (.ok x) :=
  fun _ h => by cases h

/-- A step in `Except`, lifted. -/
theorem lift {a b : Except ε α} (lax : Laxer a b) :
    LaxerT (liftM a : ExceptT ε Option α) (liftM b : ExceptT ε Option α) := by
  intro x h
  have ok : b = .ok x := by
    cases b with
    | error e => cases h
    | ok y => cases h; rfl
  rw [show (liftM a : ExceptT ε Option α) = ExceptT.mk (some a) from rfl, lax x ok]
  rfl

theorem bind {a b : ExceptT ε Option α} {f g : α → ExceptT ε Option β} (first : LaxerT a b)
    (rest : ∀ x, LaxerT (f x) (g x)) : LaxerT (a >>= f) (b >>= g) := by
  intro y h
  simp only [ExceptT.run_bind] at h ⊢
  cases hb : b.run with
  | none => rw [hb] at h; cases h
  | some r =>
    cases r with
    | error e => rw [hb] at h; cases h
    | ok x =>
      rw [hb] at h
      rw [first x hb]
      exact rest x y h

theorem ite {c d : Prop} [Decidable c] [Decidable d] {a a' b b' : ExceptT ε Option α} (weaker : c → d)
    (fails : ∀ x, b'.run ≠ some (.ok x)) (rest : LaxerT a b) : LaxerT (if c then a' else a) (if d then b' else b) := by
  intro x h
  by_cases taken : d
  · rw [if_pos taken] at h
    exact absurd h (fails x)
  · rw [if_neg taken] at h
    rw [if_neg (mt weaker taken)]
    exact rest x h

theorem ite_same {c : Prop} [Decidable c] {a a' b b' : ExceptT ε Option α} (pos : LaxerT a' b') (neg : LaxerT a b) :
    LaxerT (if c then a' else a) (if c then b' else b) := by
  by_cases taken : c
  · rw [if_pos taken, if_pos taken]
    exact pos
  · rw [if_neg taken, if_neg taken]
    exact neg

theorem to_ite {c : Prop} [Decidable c] {a b b' : ExceptT ε Option α} (pos : LaxerT a b') (neg : LaxerT a b) :
    LaxerT a (if c then b' else b) := by
  by_cases taken : c
  · rw [if_pos taken]
    exact pos
  · rw [if_neg taken]
    exact neg

end LaxerT

/-- `a` ends with a value: neither with an error nor stopped. -/
def Succeeds {ε α : Type} (a : ExceptT ε Option α) : Prop := ∃ x, a.run = some (.ok x)

namespace Succeeds

variable {ε α β γ δ : Type}

theorem pure (x : α) : Succeeds (Pure.pure x : ExceptT ε Option α) := ⟨x, rfl⟩

theorem liftM_iff {e : Except ε α} : Succeeds (liftM e : ExceptT ε Option α) ↔ ∃ x, e = .ok x := by
  cases e with
  | error e => exact ⟨fun ⟨_, h⟩ => (by cases h), fun ⟨_, h⟩ => (by cases h)⟩
  | ok x => exact ⟨fun _ => ⟨x, rfl⟩, fun _ => ⟨x, rfl⟩⟩

theorem throw_fails (e : ε) : ¬ Succeeds (throw e : ExceptT ε Option α) := fun ⟨_, h⟩ => by cases h

theorem ite {c d : Prop} [Decidable c] [Decidable d] {a a' : ExceptT ε Option α} {b b' : ExceptT ε Option β}
    (weaker : c → d) (fails : ¬ Succeeds b') (rest : Succeeds b → Succeeds a) :
    Succeeds (if d then b' else b) → Succeeds (if c then a' else a) := by
  by_cases taken : d
  · rw [if_pos taken]
    exact fun h => absurd h fails
  · rw [if_neg taken, if_neg (mt weaker taken)]
    exact rest

theorem of_laxerT {a b : ExceptT ε Option α} (lax : LaxerT a b) : Succeeds b → Succeeds a :=
  fun ⟨x, h⟩ => ⟨x, lax x h⟩

theorem bind_inv {b : ExceptT ε Option α} {g : α → ExceptT ε Option β} (h : Succeeds (b >>= g)) :
    ∃ y, b.run = some (.ok y) ∧ Succeeds (g y) := by
  obtain ⟨z, h⟩ := h
  simp only [ExceptT.run_bind] at h
  cases hb : b.run with
  | none => rw [hb] at h; cases h
  | some r =>
    cases r with
    | error e => rw [hb] at h; cases h
    | ok y =>
      rw [hb] at h
      exact ⟨y, rfl, z, h⟩

theorem bind {a : ExceptT ε Option α} {f : α → ExceptT ε Option β} {x : α} (first : a.run = some (.ok x))
    (rest : Succeeds (f x)) : Succeeds (a >>= f) := by
  obtain ⟨z, h⟩ := rest
  refine ⟨z, ?_⟩
  simp only [ExceptT.run_bind, first]
  exact h

/-- Where the rest of `a` succeeds after any value of its first step, whatever
    value the first step of `b` gave. -/
theorem bind_of {a : ExceptT ε Option α} {b : ExceptT ε Option γ} {f : α → ExceptT ε Option β}
    {g : γ → ExceptT ε Option δ} (first : Succeeds b → Succeeds a) (rest : ∀ x y, Succeeds (g y) → Succeeds (f x)) :
    Succeeds (b >>= g) → Succeeds (a >>= f) := by
  intro h
  obtain ⟨y, hb, hg⟩ := bind_inv h
  obtain ⟨x, ha⟩ := first ⟨y, hb⟩
  exact bind ha (rest x y hg)

/-- Where the first steps agree on their value. -/
theorem bind_laxerT {a b : ExceptT ε Option α} {f : α → ExceptT ε Option β} {g : α → ExceptT ε Option δ}
    (first : LaxerT a b) (rest : ∀ x, Succeeds (g x) → Succeeds (f x)) :
    Succeeds (b >>= g) → Succeeds (a >>= f) := by
  intro h
  obtain ⟨y, hb, hg⟩ := bind_inv h
  exact bind (first y hb) (rest y hg)

end Succeeds

end BitcoinPrivate
