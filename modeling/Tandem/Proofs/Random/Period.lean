import Mathlib.Data.List.Prime
import Mathlib.Data.Nat.Bitwise
import Mathlib.Dynamics.PeriodicPts.Lemmas
import Mathlib.Tactic.NormNum.Prime
import Tandem.Proofs.Random.Mixing

/-!
# The period of a stream

A polynomial over two elements says which words to add of those that mixing leads to. Mixing a word many times
over is a polynomial of degree below 64, and one that squaring leads to in few steps. Of the words that mixing
leads to from 1, the one after `2 ^ 64 - 1` mixings is 1 again, and none after a part of that by a prime is.
So there are `2 ^ 64 - 1` of them, and they are all words but 0: every stream that is not at 0 goes through
all of these.
-/

namespace Tandem.RandomStream

/-! ## Polynomials of mixing -/

def ifOdd (q : Nat) (x : UInt64) : UInt64 := if q % 2 = 1 then x else 0

/-- The sum of the words that up to `n` mixings lead to from `x`, each if its digit of `q` is set: what the
polynomial with the binary digits of `q` makes of `x`. -/
def jump : Nat → Nat → UInt64 → UInt64
  | 0, _, _ => 0
  | n + 1, q, x => ifOdd q x ^^^ jump n (q / 2) (mix x)

theorem ifOdd_xor (q r : Nat) (x : UInt64) : ifOdd (q ^^^ r) x = ifOdd q x ^^^ ifOdd r x := by
  unfold ifOdd
  rw [Nat.xor_mod_two_eq, Nat.add_mod]
  obtain hq | hq := Nat.mod_two_eq_zero_or_one q <;> obtain hr | hr := Nat.mod_two_eq_zero_or_one r <;>
    simp [hq, hr]

theorem mix_ifOdd (q : Nat) (x : UInt64) : mix (ifOdd q x) = ifOdd q (mix x) := by
  unfold ifOdd
  split
  · rfl
  · exact mix_zero

theorem jump_zero (n : Nat) (x : UInt64) : jump n 0 x = 0 := by
  induction n generalizing x with
  | zero => rfl
  | succ n ih => exact (congrArg (ifOdd 0 x ^^^ ·) (ih (mix x))).trans UInt64.xor_self

theorem jump_xor (n q r : Nat) (x : UInt64) : jump n (q ^^^ r) x = jump n q x ^^^ jump n r x := by
  induction n generalizing q r x with
  | zero => exact UInt64.xor_self.symm
  | succ n ih =>
      rw [jump, jump, jump, ifOdd_xor, Nat.xor_div_two, ih]
      ac_rfl

theorem jump_mix (n q : Nat) (x : UInt64) : jump n q (mix x) = mix (jump n q x) := by
  induction n generalizing q x with
  | zero => exact mix_zero.symm
  | succ n ih => rw [jump, jump, mix_xor, mix_ifOdd, ih]

theorem jump_iterate (n q k : Nat) (x : UInt64) : jump n q (mix^[k] x) = mix^[k] (jump n q x) := by
  induction k with
  | zero => rfl
  | succ k ih => rw [Function.iterate_succ_apply', Function.iterate_succ_apply', jump_mix, ih]

theorem jump_succ (n q : Nat) (x : UInt64) :
    jump (n + 1) q x = jump n q x ^^^ ifOdd (q / 2 ^ n) (mix^[n] x) := by
  induction n generalizing q x with
  | zero =>
      rw [jump, jump, jump, Nat.pow_zero, Nat.div_one, UInt64.xor_zero, UInt64.zero_xor]
      rfl
  | succ n ih =>
      rw [jump, ih, jump, UInt64.xor_assoc, Nat.div_div_eq_div_mul, Nat.pow_succ', Function.iterate_succ_apply]

theorem jump_two_mul (n q : Nat) (x : UInt64) : jump (n + 1) (2 * q) x = mix (jump n q x) := by
  have heven : ifOdd (2 * q) x = 0 := if_neg (by omega)
  rw [jump, heven, UInt64.zero_xor, Nat.mul_div_cancel_left q Nat.two_pos, jump_mix]

/-! ## Polynomials below degree 64 -/

/-- The polynomial of degree 64 that takes the word 1 to 0. -/
def modulus : Nat := 0x10018b73aa7cc9b71

def timesX (q : Nat) : Nat := 2 * q ^^^ q / 2 ^ 63 % 2 * modulus

/-- The product of two polynomials, of which `n` coefficients of the first are read. -/
def times : Nat → Nat → Nat → Nat
  | 0, _, _ => 0
  | n + 1, q, r => q % 2 * r ^^^ times n (q / 2) (timesX r)

/-- The power `X ^ k` for `k` below `2 ^ n`. -/
def powerX : Nat → Nat → Nat
  | 0, _ => 1
  | n + 1, k =>
      let square := times 64 (powerX n (k / 2)) (powerX n (k / 2))
      if k % 2 = 1 then timesX square else square

theorem jump_mod_two_mul (n q r : Nat) (x : UInt64) : jump n (q % 2 * r) x = ifOdd q (jump n r x) := by
  unfold ifOdd
  split
  next hodd => rw [hodd, Nat.one_mul]
  next heven => rw [Nat.mod_two_ne_one.1 heven, Nat.zero_mul, jump_zero]

theorem jump_modulus : jump 64 modulus 1 = mix^[64] 1 := by decide +kernel

theorem jump_timesX (q : Nat) : jump 64 (timesX q) 1 = mix (jump 64 q 1) := by
  -- the digit that doubling drops is the one for which the modulus is added
  have hdouble := jump_succ 64 (2 * q) 1
  have hdigit : 2 * q / 2 ^ 64 = q / 2 ^ 63 := Nat.mul_div_mul_left q (2 ^ 63) Nat.two_pos
  rw [jump_two_mul, hdigit] at hdouble
  rw [timesX, jump_xor, jump_mod_two_mul, jump_modulus, hdouble]

theorem jump_times (n q r : Nat) : jump 64 (times n q r) 1 = jump n q (jump 64 r 1) := by
  induction n generalizing q r with
  | zero => exact jump_zero 64 1
  | succ n ih =>
      rw [times, jump_xor, jump_mod_two_mul, ih, jump_timesX]
      rfl

/-- What `X ^ k` makes of the word 1 is where `k` mixings lead from it. -/
theorem jump_powerX {n k : Nat} (hk : k < 2 ^ n) : jump 64 (powerX n k) 1 = mix^[k] 1 := by
  induction n generalizing k with
  | zero =>
      obtain rfl : k = 0 := by omega
      decide +kernel
  | succ n ih =>
      have hhalf := ih (k := k / 2) (by omega)
      have hsquare : jump 64 (times 64 (powerX n (k / 2)) (powerX n (k / 2))) 1 =
          mix^[k / 2 + k / 2] 1 := by
        rw [jump_times, hhalf, jump_iterate, hhalf, Function.iterate_add_apply]
      unfold powerX
      dsimp only
      split
      next hodd =>
        have hsum : (k / 2 + k / 2).succ = k := by omega
        rw [jump_timesX, hsquare, ← Function.iterate_succ_apply' mix, hsum]
      next heven =>
        have hsum : k / 2 + k / 2 = k := by omega
        rw [hsquare, hsum]

/-! ## The period -/

def period : Nat := 2 ^ 64 - 1

theorem mix_iterate_period : mix^[period] 1 = 1 := by
  have hpower : powerX 64 period = 1 := by decide +kernel
  rw [← jump_powerX (n := 64) (by decide), hpower]
  decide +kernel

def periodPrimes : List Nat := [3, 5, 17, 257, 641, 65537, 6700417]

theorem mem_periodPrimes {p : Nat} (hp : p.Prime) (hdvd : p ∣ period) : p ∈ periodPrimes := by
  have hprod : period = periodPrimes.prod := by decide
  have hprimes : ∀ q ∈ periodPrimes, Prime q := by
    simp only [periodPrimes, List.forall_mem_cons, ← Nat.prime_iff]
    norm_num
  exact mem_list_primes_of_dvd_prod hp.prime hprimes (hprod ▸ hdvd)

theorem mix_iterate_part {p : Nat} (hp : p ∈ periodPrimes) : mix^[period / p] 1 ≠ 1 := by
  have hparts : ∀ p ∈ periodPrimes, jump 64 (powerX 64 (period / p)) 1 ≠ 1 := by decide +kernel
  rw [← jump_powerX (n := 64) (Nat.lt_of_le_of_lt (Nat.div_le_self _ p) (by decide))]
  exact hparts p hp

/-- A shorter period would divide this one, and so a part of it by a prime. -/
theorem minimalPeriod_mix_one : Function.minimalPeriod mix 1 = period := by
  obtain ⟨m, hm⟩ := Function.IsPeriodicPt.minimalPeriod_dvd mix_iterate_period
  obtain rfl | hne := eq_or_ne m 1
  · rw [hm, Nat.mul_one]
  · obtain ⟨p, hp, c, rfl⟩ := Nat.exists_prime_and_dvd hne
    have hpart : period / p = Function.minimalPeriod mix 1 * c := by
      rw [hm, ← Nat.mul_assoc, Nat.mul_right_comm, Nat.mul_div_cancel _ hp.pos]
    have hdvd : p ∣ period := ⟨Function.minimalPeriod mix 1 * c, by rw [hm, Nat.mul_left_comm]⟩
    refine absurd ?_ (mix_iterate_part (mem_periodPrimes hp hdvd))
    rw [hpart]
    exact (Function.isPeriodicPt_minimalPeriod mix 1).mul_const c

/-! ## All words -/

section Visit

variable {x y : UInt64}

theorem mix_iterate_ne_zero (hx : x ≠ 0) (k : Nat) : mix^[k] x ≠ 0 := by
  rw [← word_after ⟨x⟩]
  exact fun h => hx (word_after_eq_zero_iff.1 h)

/-- The word 0, and behind it the words that mixing leads to from `x`. -/
def visit (x : UInt64) (i : Fin UInt64.size) : UInt64 := if i.val = 0 then 0 else mix^[i.val - 1] x

theorem visit_injective (hx : x ≠ 0) (hperiod : Function.minimalPeriod mix x = period) :
    (visit x).Injective := by
  have hbound : ∀ k : Fin UInt64.size, k.val ≠ 0 → k.val - 1 ∈ Set.Iio (Function.minimalPeriod mix x) := by
    intro k hk
    have hsize : UInt64.size = period + 1 := rfl
    rw [hperiod, Set.mem_Iio]
    omega
  intro i j h
  unfold visit at h
  split at h <;> split at h
  next hi hj => exact Fin.ext (hi.trans hj.symm)
  next => exact absurd h.symm (mix_iterate_ne_zero hx _)
  next => exact absurd h (mix_iterate_ne_zero hx _)
  next hi hj =>
    have hsame := Function.iterate_injOn_Iio_minimalPeriod (hbound i hi) (hbound j hj) h
    exact Fin.ext (by omega)

/-- There are no more words than that, so mixing leads to each of them. -/
theorem existsUnique_iterate_eq (hx : x ≠ 0) (hperiod : Function.minimalPeriod mix x = period)
    (hy : y ≠ 0) : ∃! k, k < period ∧ mix^[k] x = y := by
  let words : Fin UInt64.size ≃ UInt64 := ⟨UInt64.ofFin, UInt64.toFin, fun _ => rfl, fun _ => rfl⟩
  obtain ⟨i, hi⟩ := (visit_injective hx hperiod).surjective_of_finite words y
  have hsize : UInt64.size = period + 1 := rfl
  unfold visit at hi
  split at hi
  · exact absurd hi.symm hy
  refine ⟨i.val - 1, ⟨by omega, hi⟩, fun k hk => ?_⟩
  refine Function.iterate_injOn_Iio_minimalPeriod (Set.mem_Iio.2 ?_) (Set.mem_Iio.2 ?_) (hk.2.trans hi.symm)
  · exact hperiod ▸ hk.1
  · rw [hperiod]
    omega

theorem minimalPeriod_mix (hx : x ≠ 0) : Function.minimalPeriod mix x = period := by
  obtain ⟨k, ⟨-, rfl⟩, -⟩ := existsUnique_iterate_eq (by decide) minimalPeriod_mix_one hx
  have hperiodic : (1 : UInt64) ∈ Function.periodicPts mix := ⟨period, by decide, mix_iterate_period⟩
  rw [Function.minimalPeriod_apply_iterate hperiodic, minimalPeriod_mix_one]

end Visit

theorem after_eq_iff {stream : RandomStream} {n : Nat} {word : UInt64} :
    stream.after n = ⟨word⟩ ↔ mix^[n] stream.word = word := by
  rw [← word_after]
  exact ⟨fun h => h ▸ rfl, fun h => h ▸ rfl⟩

/-- A stream that is not at 0 is back where it was after `2 ^ 64 - 1` draws, and not before. On the way it is
once at every word but 0, wherever it began. So is the stream of any seed. -/
theorem streams_have_full_period {stream : RandomStream} (h : stream.word ≠ 0) :
    stream.after (2 ^ 64 - 1) = stream ∧
      (∀ n, 0 < n → n < 2 ^ 64 - 1 → stream.after n ≠ stream) ∧
      (∀ word : UInt64, word ≠ 0 → ∃! n, n < 2 ^ 64 - 1 ∧ (stream.after n).word = word) ∧
      ∀ seed word : UInt64, word ≠ 0 →
        ∃! n, n < 2 ^ 64 - 1 ∧ ((ofSeed seed).after n).word = word := by
  have hvisits : ∀ stream : RandomStream, stream.word ≠ 0 → ∀ word : UInt64, word ≠ 0 →
      ∃! n, n < 2 ^ 64 - 1 ∧ (stream.after n).word = word := by
    intro stream hstream word hword
    simp only [word_after]
    exact existsUnique_iterate_eq hstream (minimalPeriod_mix hstream) hword
  have hperiod := minimalPeriod_mix h
  refine ⟨?_, fun n hpos hlt hback => ?_, hvisits stream h, fun seed => hvisits _ (word_ofSeed_ne_zero seed)⟩
  · refine after_eq_iff.2 ?_
    have hback := Function.iterate_minimalPeriod (f := mix) (x := stream.word)
    rwa [hperiod] at hback
  · refine Nat.not_le.2 hlt ?_
    have hle := Function.IsPeriodicPt.minimalPeriod_le hpos (after_eq_iff.1 hback)
    rwa [hperiod] at hle

theorem stream_of_largest_word_has_full_period :
    (⟨0xffffffffffffffff⟩ : RandomStream).word ≠ 0 ∧
      (⟨0xffffffffffffffff⟩ : RandomStream).after (2 ^ 64 - 1) = ⟨0xffffffffffffffff⟩ ∧
      (⟨0xffffffffffffffff⟩ : RandomStream).after (2 ^ 63) ≠ ⟨0xffffffffffffffff⟩ ∧
      ∃! n, n < 2 ^ 64 - 1 ∧ ((⟨0xffffffffffffffff⟩ : RandomStream).after n).word = 1 := by
  have hword : (⟨0xffffffffffffffff⟩ : RandomStream).word ≠ 0 := by decide
  obtain ⟨hback, hnot, hvisits, -⟩ := streams_have_full_period hword
  exact ⟨hword, hback, hnot _ (by decide) (by decide), hvisits 1 (by decide)⟩

end Tandem.RandomStream
