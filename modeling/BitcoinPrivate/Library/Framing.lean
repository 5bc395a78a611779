import Mathlib

/-!
Streams of length-prefixed frames: a header of `H` items, from which `size`
reads the length of the payload that follows. `frames` cuts a stream into its
complete frames, each a header and its payload, and the part of a frame left
at its end, and fails at the first complete header that `ok` refuses.

Cutting the encoding of frames that are `Valid` (a header of `H` items that
passes `ok` and announces its payload) gives the frames back, whatever follows
(`frames_encode_append`); a prefix of such a stream cuts into a prefix of the
frames and a `Partial` frame (`frames_of_prefix`); and what `frames` returns
is such a cut of the stream (`frames_sound`).
-/
namespace BitcoinPrivate.Framing

variable {α : Type} (H : Nat) (size : List α → Nat) (ok : List α → Bool)

/-- The complete frames at the front of a stream and the part of a frame left
    at its end; `none` at the first complete header that `ok` refuses. -/
def frames [NeZero H] (stream : List α) : Option (List (List α × List α) × List α) :=
  if stream.length < H then some ([],stream)
  else if ok (stream.take H) = false then none
  else if stream.length < H + size (stream.take H) then some ([],stream)
  else
    (frames (stream.drop (H + size (stream.take H)))).map fun cut =>
      ((stream.take H,(stream.drop H).take (size (stream.take H))) :: cut.1,cut.2)
termination_by stream.length
decreasing_by
  have := Nat.pos_of_ne_zero (NeZero.ne H)
  simp only [List.length_drop]
  omega

/-- The stream of frames, each header followed by its payload. -/
def encode (fs : List (List α × List α)) : List α := fs.flatMap fun f => f.1 ++ f.2

/-- A frame whose header has `H` items, passes `ok` and announces its payload. -/
def Valid (f : List α × List α) : Prop := f.1.length = H ∧ ok f.1 = true ∧ size f.1 = f.2.length

/-- A proper part of a frame: less than a header, or a header that passes `ok`
    and less than its payload. -/
def Partial (r : List α) : Prop := r.length < H ∨ (ok (r.take H) = true ∧ r.length < H + size (r.take H))

@[simp] theorem encode_nil : encode ([] : List (List α × List α)) = [] := rfl

theorem encode_cons (f : List α × List α) (fs : List (List α × List α)) : encode (f :: fs) = f.1 ++ f.2 ++ encode fs := by
  simp [encode]

theorem encode_append (fs gs : List (List α × List α)) : encode (fs ++ gs) = encode fs ++ encode gs := by
  simp [encode]

theorem partial_nil [NeZero H] : Partial H size ok ([] : List α) := .inl (Nat.pos_of_ne_zero (NeZero.ne H))

theorem frames_partial_eq [NeZero H] {r : List α} (part : Partial H size ok r) : frames H size ok r = some ([],r) := by
  rw [frames]
  rcases part with short | ⟨passes,within⟩
  · rw [if_pos short]
  · by_cases short : r.length < H
    · rw [if_pos short]
    · rw [if_neg short,passes,if_neg (by decide),if_pos within]

/-- A stream fails to cut at a complete first header that `ok` refuses. -/
theorem frames_of_refused [NeZero H] {stream : List α} (long : H ≤ stream.length) (refused : ok (stream.take H) = false) :
    frames H size ok stream = none := by
  rw [frames,if_neg (by omega),if_pos refused]

/-- A stream that starts with a valid frame cuts into it and the cut of the rest. -/
theorem frames_valid_append [NeZero H] {f : List α × List α} (valid : Valid H size ok f) (rest : List α) :
    frames H size ok (f.1 ++ f.2 ++ rest) = (frames H size ok rest).map fun cut => (f :: cut.1,cut.2) := by
  obtain ⟨header,passes,announced⟩ := valid
  have take : (f.1 ++ f.2 ++ rest).take H = f.1 := by
    rw [List.append_assoc,List.take_append_of_le_length (by omega),List.take_of_length_le (by omega)]
  have drop : (f.1 ++ f.2 ++ rest).drop H = f.2 ++ rest := by
    rw [List.append_assoc,List.drop_append_of_le_length (by omega),List.drop_of_length_le (by omega),List.nil_append]
  have length : (f.1 ++ f.2 ++ rest).length = H + size f.1 + rest.length := by
    simp only [List.length_append]
    omega
  rw [frames,take,length,if_neg (by omega),passes,if_neg (by decide),if_neg (by omega),drop,
    List.take_append_of_le_length (by omega),List.take_of_length_le (by omega),
    show f.1 ++ f.2 ++ rest = (f.1 ++ f.2) ++ rest from rfl,List.drop_append_of_le_length (by simp; omega),
    List.drop_of_length_le (by simp; omega),List.nil_append]

/-- Cutting the encoding of valid frames gives them back, whatever follows. -/
theorem frames_encode_append [NeZero H] {fs : List (List α × List α)} (valid : ∀ f ∈ fs, Valid H size ok f) (rest : List α) :
    frames H size ok (encode fs ++ rest) = (frames H size ok rest).map fun cut => (fs ++ cut.1,cut.2) := by
  induction fs with
  | nil => simp
  | cons f fs ih =>
    rw [encode_cons,List.append_assoc,frames_valid_append H size ok (valid f List.mem_cons_self),
      ih fun g mem => valid g (List.mem_cons_of_mem f mem),Option.map_map]
    rfl

/-- What `frames` returns is a cut of the stream into valid frames and a partial one. -/
theorem frames_sound [NeZero H] (stream : List α) :
    ∀ {fs : List (List α × List α)} {r : List α}, frames H size ok stream = some (fs,r) →
      stream = encode fs ++ r ∧ (∀ f ∈ fs, Valid H size ok f) ∧ Partial H size ok r := by
  induction stream using frames.induct H size ok with
  | case1 stream short =>
    intro fs r cut
    rw [frames,if_pos short,Option.some.injEq,Prod.mk.injEq] at cut
    obtain ⟨rfl,rfl⟩ := cut
    exact ⟨rfl,by simp,.inl short⟩
  | case2 stream long refused =>
    intro fs r cut
    rw [frames,if_neg long,if_pos refused] at cut
    cases cut
  | case3 stream long passes within =>
    intro fs r cut
    rw [frames,if_neg long,if_neg passes,if_pos within,Option.some.injEq,Prod.mk.injEq] at cut
    obtain ⟨rfl,rfl⟩ := cut
    exact ⟨rfl,by simp,.inr ⟨by simpa using passes,within⟩⟩
  | case4 stream long passes complete ih =>
    intro fs r cut
    rw [frames,if_neg long,if_neg passes,if_neg complete,Option.map_eq_some_iff] at cut
    obtain ⟨⟨fs',r'⟩,rest,made⟩ := cut
    rw [Prod.mk.injEq] at made
    obtain ⟨rfl,rfl⟩ := made
    obtain ⟨split,valid,part⟩ := ih rest
    refine ⟨?_,?_,part⟩
    · rw [encode_cons,List.append_assoc,List.append_assoc,← split,← List.append_assoc,
        ← List.take_add,List.take_append_drop]
    · intro f mem
      rcases List.mem_cons.mp mem with rfl | later
      · refine ⟨by simp; omega,by simpa using passes,?_⟩
        simp only [List.length_take,List.length_drop]
        omega
      · exact valid f later

/-- Cutting a longer stream goes on from the partial frame where the shorter one
    stopped: how a stream is split into pieces does not change its frames. -/
theorem frames_append [NeZero H] {stream : List α} {fs : List (List α × List α)} {r : List α}
    (cut : frames H size ok stream = some (fs,r)) (more : List α) :
    frames H size ok (stream ++ more) = (frames H size ok (r ++ more)).map fun cut => (fs ++ cut.1,cut.2) := by
  obtain ⟨split,valid,-⟩ := frames_sound H size ok stream cut
  rw [split,List.append_assoc,frames_encode_append H size ok valid]

/-- A proper prefix of a valid frame is a partial frame. -/
theorem partial_of_prefix {f : List α × List α} (valid : Valid H size ok f) {r : List α} (pre : r <+: f.1 ++ f.2)
    (proper : r.length < f.1.length + f.2.length) : Partial H size ok r := by
  obtain ⟨header,passes,announced⟩ := valid
  by_cases short : r.length < H
  · exact .inl short
  · have take : r.take H = f.1 := by
      rw [List.prefix_iff_eq_take.mp pre,List.take_take,Nat.min_eq_left (by omega),
        List.take_append_of_le_length (by omega),List.take_of_length_le (by omega)]
    exact .inr ⟨by rw [take]; exact passes,by rw [take]; omega⟩

/-- A prefix of the encoding of valid frames cuts into a prefix of the frames
    and a partial frame. -/
theorem frames_of_prefix [NeZero H] {fs : List (List α × List α)} (valid : ∀ f ∈ fs, Valid H size ok f) :
    ∀ {p : List α}, p <+: encode fs →
      ∃ k r, frames H size ok p = some (fs.take k,r) ∧ p = encode (fs.take k) ++ r ∧ Partial H size ok r := by
  induction fs with
  | nil =>
    intro p pre
    rw [encode_nil,List.prefix_nil] at pre
    subst pre
    exact ⟨0,[],frames_partial_eq H size ok (partial_nil H size ok),rfl,partial_nil H size ok⟩
  | cons f fs ih =>
    intro p pre
    have first := valid f List.mem_cons_self
    have cut := List.prefix_iff_eq_take.mp pre
    rw [encode_cons] at cut
    by_cases inside : p.length < f.1.length + f.2.length
    · have within : p <+: f.1 ++ f.2 := by
        rw [cut,List.take_append_of_le_length (by simp; omega)]
        exact List.take_prefix _ _
      have part := partial_of_prefix H size ok first within inside
      exact ⟨0,p,frames_partial_eq H size ok part,rfl,part⟩
    · obtain ⟨k,r,cuts,split,part⟩ :=
        ih (fun g mem => valid g (List.mem_cons_of_mem f mem)) (List.take_prefix (p.length - (f.1 ++ f.2).length) (encode fs))
      have whole : p = f.1 ++ f.2 ++ (encode fs).take (p.length - (f.1 ++ f.2).length) := by
        conv_lhs => rw [cut]
        rw [List.take_append,List.take_of_length_le (by simp; omega)]
      refine ⟨k + 1,r,?_,?_,part⟩
      · rw [whole,frames_valid_append H size ok first,cuts]
        rfl
      · rw [whole,split,List.take_succ_cons,encode_cons]
        simp only [List.append_assoc]

end BitcoinPrivate.Framing
