/-!
# Systems whose moves commute

If any two moves from a state lead to one state again after one more move each, then one way to the end
is as good as any other: every way has the same length and the same end, and it never stops short.
-/

namespace Tandem

variable {α : Type} {step : α → α → Prop}

/-- A way of exactly `n` steps. -/
inductive Steps (step : α → α → Prop) : Nat → α → α → Prop
  | refl (a : α) : Steps step 0 a a
  | head {n : Nat} {a b c : α} (first : step a b) (rest : Steps step n b c) : Steps step (n + 1) a c

def IsFinal (step : α → α → Prop) (a : α) : Prop := ∀ b, ¬ step a b

namespace Steps

theorem single {a b : α} (h : step a b) : Steps step 1 a b := .head h (.refl b)

theorem trans {m n : Nat} {a b c : α} (hab : Steps step m a b) (hbc : Steps step n b c) :
    Steps step (m + n) a c := by
  induction hab with
  | refl a => rwa [Nat.zero_add]
  | head first rest ih =>
      rw [Nat.succ_add]
      exact .head first (ih hbc)

end Steps

/-- Every two steps from a state with property `keeps`, which steps keep, meet again after one more. -/
structure Diamond (step : α → α → Prop) (keeps : α → Prop) : Prop where
  next : ∀ {a b}, keeps a → step a b → keeps b
  join : ∀ {a b c}, keeps a → step a b → step a c → b = c ∨ ∃ d, step b d ∧ step c d

namespace Diamond

variable {keeps : α → Prop}

theorem step_toward (h : Diamond step keeps) {n : Nat} {a b z : α} (ha : keeps a)
    (hway : Steps step n a z) (hz : IsFinal step z) (hstep : step a b) :
    ∃ m, n = m + 1 ∧ Steps step m b z := by
  induction hway generalizing b with
  | refl a => exact absurd hstep (hz b)
  | @head n a c z first rest ih =>
      rcases h.join ha hstep first with rfl | ⟨d, hbd, hcd⟩
      · exact ⟨n, rfl, rest⟩
      · obtain ⟨m, rfl, hdz⟩ := ih (h.next ha first) hz hcd
        exact ⟨m + 1, rfl, .head hbd hdz⟩

theorem steps_toward (h : Diamond step keeps) {n k : Nat} {a b z : α} (ha : keeps a)
    (hway : Steps step n a z) (hz : IsFinal step z) (hb : Steps step k a b) :
    k ≤ n ∧ Steps step (n - k) b z := by
  induction hb generalizing n with
  | refl a => exact ⟨Nat.zero_le n, hway⟩
  | head first rest ih =>
      obtain ⟨m, rfl, hbz⟩ := h.step_toward ha hway hz first
      obtain ⟨hle, hend⟩ := ih (h.next ha first) hbz
      refine ⟨Nat.succ_le_succ hle, ?_⟩
      rwa [Nat.succ_sub_succ]

/-- Where no step is left, the end is reached, and all ways to it are of one length. -/
theorem eq_of_isFinal (h : Diamond step keeps) {n k : Nat} {a b z : α} (ha : keeps a)
    (hway : Steps step n a z) (hz : IsFinal step z) (hb : Steps step k a b)
    (hfinal : IsFinal step b) : k = n ∧ b = z := by
  obtain ⟨hle, hrest⟩ := h.steps_toward ha hway hz hb
  generalize hleft : n - k = left at hrest
  cases hrest with
  | refl => exact ⟨by omega, rfl⟩
  | head first _ => exact absurd first (hfinal _)

end Diamond

end Tandem
