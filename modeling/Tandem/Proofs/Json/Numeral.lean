import Mathlib.Data.List.Basic
import Tandem.Json.Token

/-!
# Numbers read back

A numeral with digits before the point, none of them a needless zero, is read back from its text. The
numerals of machine words and of decimals are such numerals. In a longer text a number ends where no more
characters of numbers follow.
-/

namespace Tandem

/-! ## Digits of a natural number -/

namespace Decimal

theorem isDigit_of_mem_toDigits {n : Nat} {c : Char} (h : c ∈ Nat.toDigits 10 n) : c.isDigit = true :=
  Nat.isDigit_of_mem_toDigits (by decide) (by decide) h

theorem digitsValue_toDigits (n : Nat) : digitsValue (Nat.toDigits 10 n) = n := Nat.ofDigitChars_ten_toDigits

/-- Only zero starts with a zero. -/
theorem head?_toDigits_ne_zero {n : Nat} (h : n ≠ 0) : (Nat.toDigits 10 n).head? ≠ some '0' := by
  induction n using Nat.strongRecOn with
  | ind n ih =>
      by_cases hlt : n < 10
      · rw [Nat.toDigits_of_lt_base hlt]
        have hall : ∀ m < 10, m ≠ 0 → [Nat.digitChar m].head? ≠ some '0' := by decide
        exact hall n hlt h
      · rw [Nat.toDigits_of_base_le (by decide) (Nat.le_of_not_lt hlt),
          List.head?_append_of_ne_nil _ Nat.toDigits_ne_nil]
        exact ih (n / 10) (by omega) (by omega)

end Decimal

open Decimal (isDigit_of_mem_toDigits digitsValue_toDigits head?_toDigits_ne_zero)

/-! ## Parts of a number -/

namespace Numeral

/-- A numeral that has a text. -/
structure Spelled (n : Numeral) : Prop where
  whole_ne_nil : n.whole ≠ []
  whole : ∀ c ∈ n.whole, c.isDigit = true
  leading : hasLeadingZero n.whole = false
  fraction : ∀ c ∈ n.fraction, c.isDigit = true

def signChars (negative : Bool) : List Char := if negative then ['-'] else []

def fractionChars (ds : List Char) : List Char := if ds.isEmpty then [] else '.' :: ds

def exponentChars : Option Int → List Char
  | none => []
  | some e => 'e' :: (if e < 0 then '-' else '+') :: Nat.toDigits 10 e.natAbs

/-- Of the characters that `p` accepts, `rest` has none in front. -/
def StopsAt (p : Char → Bool) (rest : List Char) : Prop := ∀ c ∈ rest.head?, p c = false

theorem takeWhile_of_stopsAt {p : Char → Bool} {cs rest : List Char} (hcs : ∀ c ∈ cs, p c = true)
    (hrest : StopsAt p rest) :
    (cs ++ rest).takeWhile p = cs ∧ (cs ++ rest).dropWhile p = rest := by
  rw [List.takeWhile_append_of_pos hcs, List.dropWhile_append_of_pos hcs]
  cases rest with
  | nil => simp
  | cons c rest => simp [hrest c rfl]

theorem splitDigits_append {ds rest : List Char} (hne : ds ≠ []) (hds : ∀ c ∈ ds, c.isDigit = true)
    (hrest : StopsAt Char.isDigit rest) : splitDigits (ds ++ rest) = some (ds, rest) := by
  obtain ⟨htake, hdrop⟩ := takeWhile_of_stopsAt hds hrest
  unfold splitDigits
  rw [htake, hdrop]
  cases ds with
  | nil => exact absurd rfl hne
  | cons d ds => rfl

theorem stopsAt_exponentChars (exponent : Option Int) : StopsAt Char.isDigit (exponentChars exponent) := by
  cases exponent with
  | none => exact fun c hc => nomatch hc
  | some e =>
      rintro c hc
      cases hc
      rfl

theorem stopsAt_fractionChars (fraction : List Char) (exponent : Option Int) :
    StopsAt Char.isDigit (fractionChars fraction ++ exponentChars exponent) := by
  cases fraction with
  | nil => exact stopsAt_exponentChars exponent
  | cons d ds =>
      rintro c hc
      cases hc
      rfl

theorem splitSign_signChars {negative : Bool} {ds : List Char} (hne : ds ≠ [])
    (hds : ∀ c ∈ ds, c.isDigit = true) (rest : List Char) :
    splitSign (signChars negative ++ (ds ++ rest)) = (negative, ds ++ rest) := by
  cases negative with
  | true => rfl
  | false =>
      cases ds with
      | nil => exact absurd rfl hne
      | cons d ds =>
          have hdigit := hds d List.mem_cons_self
          unfold splitSign
          split
          next heq =>
            cases heq
            cases hdigit
          next => rfl

theorem splitFraction_fractionChars {fraction : List Char} (hds : ∀ c ∈ fraction, c.isDigit = true)
    (exponent : Option Int) :
    splitFraction (fractionChars fraction ++ exponentChars exponent) =
      some (fraction, exponentChars exponent) := by
  cases fraction with
  | nil => cases exponent <;> rfl
  | cons d ds => exact splitDigits_append (List.cons_ne_nil d ds) hds (stopsAt_exponentChars exponent)

theorem exponentValue_toDigits (negative : Bool) (n : Nat) :
    exponentValue negative (Nat.toDigits 10 n) = some (if negative then -(n : Int) else n, []) := by
  have hsplit : splitDigits (Nat.toDigits 10 n ++ []) = some (Nat.toDigits 10 n, []) :=
    splitDigits_append Nat.toDigits_ne_nil (fun _ => isDigit_of_mem_toDigits) fun c hc => nomatch hc
  rw [List.append_nil] at hsplit
  simp only [exponentValue, hsplit, Option.bind_eq_bind, Option.bind_some, digitsValue_toDigits, Option.pure_def]

theorem splitExponent_exponentChars (exponent : Option Int) :
    splitExponent (exponentChars exponent) = some (exponent, []) := by
  cases exponent with
  | none => rfl
  | some e =>
      by_cases hneg : e < 0
      · have habs : -(e.natAbs : Int) = e := by omega
        simp only [exponentChars, splitExponent, if_pos hneg, true_or, if_true, exponentValue_toDigits, habs,
          Option.map_some]
      · have habs : (e.natAbs : Int) = e := by omega
        simp only [exponentChars, splitExponent, if_neg hneg, true_or, if_true, exponentValue_toDigits, habs,
          Option.map_some]
        rfl

/-! ## Whole numbers -/

theorem toList_text (n : Numeral) :
    (Decimal.Layout.document.text n).toList =
      signChars n.negative ++ (n.whole ++ (fractionChars n.fraction ++ exponentChars n.exponent)) := by
  have hsign : (if n.negative then "-" else "").toList = signChars n.negative := by
    cases n.negative <;> rfl
  have hfraction : (if n.fraction.isEmpty then "" else "." ++ String.ofList n.fraction).toList =
      fractionChars n.fraction := by
    unfold fractionChars
    split
    · rfl
    · simp only [String.toList_append, String.toList_ofList]
      rfl
  have hexponent : ((n.exponent.map Decimal.Layout.document.exponentText).getD "").toList =
      exponentChars n.exponent := by
    cases n.exponent with
    | none => rfl
    | some e =>
        simp only [Option.map_some, Option.getD_some, Decimal.Layout.exponentText, exponentChars,
          String.toList_append, Nat.toList_repr]
        split <;> rfl
  simp only [Decimal.Layout.text, String.toList_append, String.toList_ofList, hsign, hfraction, hexponent,
    List.append_assoc]

theorem Spelled.ofChars?_text {n : Numeral} (h : n.Spelled) :
    ofChars? (Decimal.Layout.document.text n).toList = some n := by
  have hsplit : splitDigits (n.whole ++ (fractionChars n.fraction ++ exponentChars n.exponent)) =
      some (n.whole, fractionChars n.fraction ++ exponentChars n.exponent) :=
    splitDigits_append h.whole_ne_nil h.whole (stopsAt_fractionChars n.fraction n.exponent)
  rw [toList_text]
  simp only [ofChars?, splitSign_signChars h.whole_ne_nil h.whole, hsplit, h.leading,
    splitFraction_fractionChars h.fraction, splitExponent_exponentChars, Option.bind_eq_bind, Option.bind_some]
  simp

theorem isNumberChar_of_isDigit {c : Char} (h : c.isDigit = true) : isNumberChar c = true := by
  simp [isNumberChar, h]

theorem ne_of_isNumberChar {c d : Char} (hc : isNumberChar c = true) (hd : isNumberChar d = false) : c ≠ d := by
  rintro rfl
  cases hc.symm.trans hd

theorem isNumberChar_of_mem_signChars {negative : Bool} {c : Char} (hc : c ∈ signChars negative) :
    isNumberChar c = true := by
  cases negative with
  | false => cases hc
  | true =>
      rw [List.mem_singleton.1 hc]
      rfl

theorem isNumberChar_of_mem_fractionChars {ds : List Char} (hds : ∀ c ∈ ds, c.isDigit = true) {c : Char}
    (hc : c ∈ fractionChars ds) : isNumberChar c = true := by
  cases ds with
  | nil => cases hc
  | cons d ds =>
      rcases List.mem_cons.1 hc with rfl | hc
      · rfl
      · exact isNumberChar_of_isDigit (hds c hc)

theorem isNumberChar_of_mem_exponentChars {exponent : Option Int} {c : Char}
    (hc : c ∈ exponentChars exponent) : isNumberChar c = true := by
  cases exponent with
  | none => cases hc
  | some e =>
      rcases List.mem_cons.1 hc with rfl | hc
      · rfl
      rcases List.mem_cons.1 hc with rfl | hc
      · split <;> rfl
      · exact isNumberChar_of_isDigit (isDigit_of_mem_toDigits hc)

theorem Spelled.isNumberChar_of_mem {n : Numeral} (h : n.Spelled) {c : Char}
    (hc : c ∈ (Decimal.Layout.document.text n).toList) : isNumberChar c = true := by
  rw [toList_text] at hc
  simp only [List.mem_append] at hc
  rcases hc with hc | hc | hc | hc
  · exact isNumberChar_of_mem_signChars hc
  · exact isNumberChar_of_isDigit (h.whole c hc)
  · exact isNumberChar_of_mem_fractionChars h.fraction hc
  · exact isNumberChar_of_mem_exponentChars hc

theorem Spelled.text_ne_nil {n : Numeral} (h : n.Spelled) : (Decimal.Layout.document.text n).toList ≠ [] := by
  rw [toList_text]
  simp [h.whole_ne_nil]

end Numeral

/-! ## Numbers in a longer text -/

namespace Json.Token

theorem punctuation?_of_isNumberChar {c : Char} (h : Numeral.isNumberChar c = true) :
    punctuation? c = none := by
  unfold punctuation?
  split <;> first | cases h | rfl

/-- A number ends where no more characters of numbers follow. -/
theorem front?_num {n : Numeral} (h : n.Spelled) {rest : List Char}
    (hrest : Numeral.StopsAt Numeral.isNumberChar rest) :
    front? ((num n).text.toList ++ rest) = some (num n, rest) := by
  obtain ⟨htake, hdrop⟩ := Numeral.takeWhile_of_stopsAt (fun c => h.isNumberChar_of_mem) hrest
  have hread := h.ofChars?_text
  rw [text]
  cases htext : (Decimal.Layout.document.text n).toList with
  | nil => exact absurd htext h.text_ne_nil
  | cons c cs =>
      have hc : Numeral.isNumberChar c = true := h.isNumberChar_of_mem (htext ▸ List.mem_cons_self)
      rw [htext] at htake hdrop hread
      rw [List.cons_append] at htake hdrop ⊢
      rw [front?]
      · rw [punctuation?_of_isNumberChar hc, htake, hdrop, hread]
        rfl
      · exact Numeral.ne_of_isNumberChar hc rfl
      · exact fun _ h _ => Numeral.ne_of_isNumberChar hc rfl h
      · exact fun _ h _ => Numeral.ne_of_isNumberChar hc rfl h
      · exact fun _ h _ => Numeral.ne_of_isNumberChar hc rfl h

end Json.Token

/-! ## Numerals of words and of decimals -/

namespace Numeral

theorem hasLeadingZero_of_head? {ds : List Char} (h : ds.head? ≠ some '0') : hasLeadingZero ds = false := by
  unfold hasLeadingZero
  split
  · exact absurd rfl h
  · rfl

theorem spelled_ofNat (n : Nat) : (ofNat n).Spelled where
  whole_ne_nil := Nat.toDigits_ne_nil
  whole := fun _ => isDigit_of_mem_toDigits
  leading := by
    by_cases hzero : n = 0
    · subst hzero
      rfl
    · exact hasLeadingZero_of_head? (head?_toDigits_ne_zero hzero)
  fraction := nofun

theorem isDigit_of_mem_zeros {n : Nat} : ∀ c ∈ List.replicate n '0', c.isDigit = true := by
  intro c hc
  rw [List.eq_of_mem_replicate hc]
  rfl

theorem isDigit_of_mem_pointZero (layout : Decimal.Layout) :
    ∀ c ∈ if layout.pointZero then ['0'] else [], c.isDigit = true := by
  cases layout.pointZero with
  | false => exact List.forall_mem_nil _
  | true => exact List.forall_mem_singleton.2 rfl

theorem spelled_positionalNumeral (layout : Decimal.Layout) (negative : Bool) {ds : List Char} (exponent : Int)
    (hne : ds ≠ []) (hds : ∀ c ∈ ds, c.isDigit = true) (hhead : ds.head? ≠ some '0') :
    (layout.positionalNumeral negative ds exponent).Spelled := by
  unfold Decimal.Layout.positionalNumeral
  split
  · exact {
      whole_ne_nil := List.append_ne_nil_of_left_ne_nil hne _
      whole := List.forall_mem_append.2 ⟨hds, isDigit_of_mem_zeros⟩
      leading := hasLeadingZero_of_head? (by rwa [List.head?_append_of_ne_nil _ hne])
      fraction := isDigit_of_mem_pointZero layout }
  dsimp only
  split
  · exact {
      whole_ne_nil := List.cons_ne_nil _ _
      whole := List.forall_mem_singleton.2 rfl
      leading := rfl
      fraction := List.forall_mem_append.2 ⟨isDigit_of_mem_zeros, hds⟩ }
  next hlength =>
    have hpos : 0 < ds.length - exponent.natAbs := Nat.sub_pos_of_lt (Nat.lt_of_not_le hlength)
    exact {
      whole_ne_nil := fun h => (List.take_eq_nil_iff.1 h).elim (Nat.ne_of_gt hpos) hne
      whole := fun c hc => hds c (List.mem_of_mem_take hc)
      leading := hasLeadingZero_of_head? (by rwa [List.head?_take, if_neg (Nat.ne_of_gt hpos)])
      fraction := fun c hc => hds c (List.mem_of_mem_drop hc) }

theorem spelled_numeral (layout : Decimal.Layout) (d : Decimal) : (layout.numeral d).Spelled := by
  unfold Decimal.Layout.numeral
  dsimp only
  split
  next hzero =>
    rw [hzero]
    exact {
      whole_ne_nil := List.cons_ne_nil _ _
      whole := List.forall_mem_singleton.2 rfl
      leading := rfl
      fraction := isDigit_of_mem_pointZero layout }
  next hne =>
    have hhead := head?_toDigits_ne_zero hne
    split
    · exact spelled_positionalNumeral layout d.negative d.exponent Nat.toDigits_ne_nil
        (fun _ => isDigit_of_mem_toDigits) hhead
    · exact {
        whole_ne_nil := fun h => (List.take_eq_nil_iff.1 h).elim Nat.one_ne_zero Nat.toDigits_ne_nil
        whole := fun c hc => isDigit_of_mem_toDigits (List.mem_of_mem_take hc)
        leading := hasLeadingZero_of_head? (by rwa [List.head?_take, if_neg Nat.one_ne_zero])
        fraction := fun c hc => isDigit_of_mem_toDigits (List.mem_of_mem_drop hc) }

theorem spelled_ofFloat (x : Float) : (ofFloat x).Spelled :=
  spelled_numeral Decimal.Layout.document _

end Numeral

end Tandem
