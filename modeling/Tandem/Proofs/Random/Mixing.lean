import Mathlib.Data.Fintype.EquivFin
import Mathlib.Logic.Function.Iterate
import Tandem.Random.Xorshift

/-!
# Streams that never meet

Mixing is additive for the sum of words bit by bit, and no word but 0 is mixed to 0. So mixing is one to one,
and so is the multiplication that makes draws of words. Streams that begin apart stay apart for ever, in
their words and in their draws, and no stream that begins apart from 0 ever comes to it.
-/

namespace Tandem.RandomStream

/-! ## Words -/

theorem eq_zero_of_shiftRight_eq {x k : UInt64} (hk : 0 < k.toNat % 64) (h : x >>> k = x) : x = 0 := by
  have hdiv : x.toNat / 2 ^ (k.toNat % 64) = x.toNat := by
    rw [← Nat.shiftRight_eq_div_pow, ← UInt64.toNat_shiftRight, h]
  refine UInt64.toNat_inj.1 (Nat.eq_zero_of_not_pos fun hpos => ?_)
  exact absurd hdiv (Nat.ne_of_lt (Nat.div_lt_self hpos (Nat.one_lt_two_pow (Nat.ne_of_gt hk))))

theorem eq_zero_of_shiftLeft_eq {x k : UInt64} (hk : 0 < k.toNat % 64) (h : x <<< k = x) : x = 0 := by
  let c := 2 ^ (k.toNat % 64)
  have hmul : x.toNat * c % 2 ^ 64 = x.toNat := by
    rw [← Nat.shiftLeft_eq, ← UInt64.toNat_shiftLeft, h]
  -- any number of shifts leaves `x` as it is, but 64 of them leave nothing of it
  have hpow : ∀ n, x.toNat * c ^ n % 2 ^ 64 = x.toNat := by
    intro n
    induction n with
    | zero => rw [Nat.pow_zero, Nat.mul_one, Nat.mod_eq_of_lt x.toNat_lt]
    | succ n ih => rw [Nat.pow_succ, ← Nat.mul_assoc, ← Nat.mod_mul_mod, ih, hmul]
  have hdvd : 2 ^ 64 ∣ x.toNat * c ^ 64 := by
    rw [← Nat.pow_mul]
    exact Nat.dvd_mul_left_of_dvd (Nat.pow_dvd_pow 2 (Nat.le_mul_of_pos_left 64 hk)) _
  exact UInt64.toNat_inj.1 ((hpow 64).symm.trans (Nat.mod_eq_zero_of_dvd hdvd))

theorem bijective_of_injective {f : UInt64 → UInt64} (h : f.Injective) : f.Bijective :=
  have : Finite UInt64 := .of_injective UInt64.toFin fun _ _ => UInt64.toFin_inj.1
  Finite.injective_iff_bijective.1 h

/-! ## Mixing -/

/-- A word and its bits `k` places down, added. -/
def foldDown (k x : UInt64) : UInt64 := x ^^^ (x >>> k)

/-- A word and its bits `k` places up, added. -/
def foldUp (k x : UInt64) : UInt64 := x ^^^ (x <<< k)

theorem mix_eq (x : UInt64) : mix x = foldDown 27 (foldUp 25 (foldDown 12 x)) := rfl

theorem foldDown_xor (k x y : UInt64) : foldDown k (x ^^^ y) = foldDown k x ^^^ foldDown k y := by
  unfold foldDown
  rw [UInt64.shiftRight_xor]
  ac_rfl

theorem foldUp_xor (k x y : UInt64) : foldUp k (x ^^^ y) = foldUp k x ^^^ foldUp k y := by
  unfold foldUp
  rw [UInt64.shiftLeft_xor]
  ac_rfl

theorem mix_xor (x y : UInt64) : mix (x ^^^ y) = mix x ^^^ mix y := by
  rw [mix_eq, mix_eq, mix_eq, foldDown_xor, foldUp_xor, foldDown_xor]

theorem eq_zero_of_foldDown_eq_zero {k x : UInt64} (hk : 0 < k.toNat % 64) (h : foldDown k x = 0) : x = 0 :=
  eq_zero_of_shiftRight_eq hk (UInt64.xor_eq_zero_iff.1 h).symm

theorem eq_zero_of_foldUp_eq_zero {k x : UInt64} (hk : 0 < k.toNat % 64) (h : foldUp k x = 0) : x = 0 :=
  eq_zero_of_shiftLeft_eq hk (UInt64.xor_eq_zero_iff.1 h).symm

theorem mix_zero : mix 0 = 0 := rfl

theorem mix_eq_zero_iff {x : UInt64} : mix x = 0 ↔ x = 0 := by
  refine ⟨fun h => ?_, fun h => h ▸ mix_zero⟩
  rw [mix_eq] at h
  exact eq_zero_of_foldDown_eq_zero (by decide) (eq_zero_of_foldUp_eq_zero (by decide)
    (eq_zero_of_foldDown_eq_zero (by decide) h))

theorem mix_injective : mix.Injective := by
  intro x y h
  rw [← UInt64.xor_eq_zero_iff, ← mix_eq_zero_iff, mix_xor, h, UInt64.xor_self]

/-! ## Draws -/

/-- The factor that undoes `factor`. -/
def cofactor : UInt64 := 0x59071d96d81ecd35

theorem mul_factor_mul_cofactor (x : UInt64) : x * factor * cofactor = x := by
  have hone : factor * cofactor = 1 := by decide
  rw [UInt64.mul_assoc, hone, UInt64.mul_one]

theorem mul_factor_injective : (fun x : UInt64 => x * factor).Injective :=
  Function.LeftInverse.injective (g := fun x => x * cofactor) mul_factor_mul_cofactor

theorem mul_factor_eq_zero_iff {x : UInt64} : x * factor = 0 ↔ x = 0 := by
  rw [← mul_factor_injective.eq_iff (a := x) (b := 0), UInt64.zero_mul]

/-! ## Streams -/

def after (stream : RandomStream) : Nat → RandomStream
  | 0 => stream
  | n + 1 => (stream.after n).next.2

def draw (stream : RandomStream) (n : Nat) : UInt64 := (stream.after n).next.1

theorem word_after (stream : RandomStream) (n : Nat) : (stream.after n).word = mix^[n] stream.word := by
  induction n with
  | zero => rfl
  | succ n ih => rw [Function.iterate_succ_apply', ← ih, after, next]

theorem after_add (stream : RandomStream) (m n : Nat) : stream.after (m + n) = (stream.after m).after n := by
  induction n with
  | zero => rfl
  | succ n ih => rw [← Nat.add_assoc, after, after, ih]

theorem draw_eq (stream : RandomStream) (n : Nat) :
    stream.draw n = (stream.after (n + 1)).word * factor := rfl

theorem word_after_inj {first second : RandomStream} {n : Nat} :
    (first.after n).word = (second.after n).word ↔ first.word = second.word := by
  rw [word_after, word_after]
  exact (mix_injective.iterate n).eq_iff

theorem draw_inj {first second : RandomStream} {n : Nat} :
    first.draw n = second.draw n ↔ first.word = second.word := by
  rw [draw_eq, draw_eq]
  exact mul_factor_injective.eq_iff.trans word_after_inj

theorem word_after_eq_zero_iff {stream : RandomStream} {n : Nat} :
    (stream.after n).word = 0 ↔ stream.word = 0 := by
  induction n with
  | zero => rfl
  | succ n ih => exact mix_eq_zero_iff.trans ih

theorem draw_eq_zero_iff {stream : RandomStream} {n : Nat} : stream.draw n = 0 ↔ stream.word = 0 := by
  rw [draw_eq, mul_factor_eq_zero_iff, word_after_eq_zero_iff]

/-! ## Seeds -/

theorem word_ofSeed_ne_zero (seed : UInt64) : (ofSeed seed).word ≠ 0 := by
  unfold ofSeed
  split
  · decide
  next h => exact h

/-- Only the seeds 0 and 1 stand for the same stream. -/
theorem word_ofSeed_inj {a b : UInt64} :
    (ofSeed a).word = (ofSeed b).word ↔ a = b ∨ a = 0 ∧ b = 1 ∨ a = 1 ∧ b = 0 := by
  unfold ofSeed
  split <;> split <;> grind

/-- A draw takes words to words one to one. So streams of different seeds are never at one word and never
give one draw after equally many draws, but for the seeds 0 and 1; and no stream of a seed is ever at 0 or
draws it. -/
theorem streams_never_meet :
    (Function.Bijective fun word => (next ⟨word⟩).2.word) ∧
      (next ⟨0⟩).2.word = 0 ∧
      (Function.Bijective fun word => word * factor) ∧
      (∀ stream : RandomStream, stream.next.1 = stream.next.2.word * factor) ∧
      (∀ a b : UInt64, a ≠ b → ¬ (a = 0 ∧ b = 1) → ¬ (a = 1 ∧ b = 0) → ∀ n,
        ((ofSeed a).after n).word ≠ ((ofSeed b).after n).word ∧ (ofSeed a).draw n ≠ (ofSeed b).draw n) ∧
      ∀ seed n, ((ofSeed seed).after n).word ≠ 0 ∧ (ofSeed seed).draw n ≠ 0 := by
  refine ⟨bijective_of_injective mix_injective, mix_zero, bijective_of_injective mul_factor_injective,
    fun stream => rfl, fun a b hne hnot hnot' n => ?_, fun seed n => ?_⟩
  · have hapart : (ofSeed a).word ≠ (ofSeed b).word := fun h => by
      rcases word_ofSeed_inj.1 h with heq | hpair | hpair
      · exact hne heq
      · exact hnot hpair
      · exact hnot' hpair
    exact ⟨fun h => hapart (word_after_inj.1 h), fun h => hapart (draw_inj.1 h)⟩
  · exact ⟨fun h => word_ofSeed_ne_zero seed (word_after_eq_zero_iff.1 h),
      fun h => word_ofSeed_ne_zero seed (draw_eq_zero_iff.1 h)⟩

theorem streams_of_zero_and_two_never_meet :
    ((0 : UInt64) ≠ 2 ∧ ¬ ((0 : UInt64) = 0 ∧ (2 : UInt64) = 1) ∧ ¬ ((0 : UInt64) = 1 ∧ (2 : UInt64) = 0)) ∧
      ((ofSeed 0).after 1000000).word ≠ ((ofSeed 2).after 1000000).word ∧
      (ofSeed 0).draw 1000000 ≠ (ofSeed 2).draw 1000000 ∧ (ofSeed 0).draw 1000000 ≠ 0 := by
  have hseeds : (0 : UInt64) ≠ 2 ∧ ¬ ((0 : UInt64) = 0 ∧ (2 : UInt64) = 1) ∧
      ¬ ((0 : UInt64) = 1 ∧ (2 : UInt64) = 0) := by decide
  obtain ⟨-, -, -, -, hapart, hnonzero⟩ := streams_never_meet
  obtain ⟨hwords, hdraws⟩ := hapart 0 2 hseeds.1 hseeds.2.1 hseeds.2.2 1000000
  exact ⟨hseeds, hwords, hdraws, (hnonzero 0 1000000).2⟩

end Tandem.RandomStream
