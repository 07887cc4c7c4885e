import Tandem.Json.Token

/-!
# Quoted strings read back

Quoting writes every character as code units of its own: itself, a one-letter escape, or four hexadecimal
digits. None of them is half of a surrogate pair, so reading takes each unit for the character it was.
-/

namespace Tandem.Json

/-! ## Code units -/

theorem hexValue?_hexDigit : ∀ n < 16, hexValue? (hexDigit n) = some n := by
  decide

theorem codeUnit?_hexDigits {n : Nat} (h : n < 0x20) :
    codeUnit? '0' '0' (hexDigit (n / 16)) (hexDigit (n % 16)) = some n := by
  have hzero : hexValue? '0' = some 0 := by decide
  have hhigh := hexValue?_hexDigit (n / 16) (by omega)
  have hlow := hexValue?_hexDigit (n % 16) (by omega)
  simp only [codeUnit?, hzero, hhigh, hlow, Option.bind_eq_bind, Option.bind_some, Option.pure_def,
    Option.some.injEq]
  omega

theorem not_surrogate (c : Char) : isHighSurrogate c.toNat = false ∧ isLowSurrogate c.toNat = false := by
  have hvalid : c.toNat < 0xD800 ∨ 0xDFFF < c.toNat ∧ c.toNat < 0x110000 := c.valid
  simp only [isHighSurrogate, isLowSurrogate, Bool.and_eq_false_iff, decide_eq_false_iff_not]
  omega

theorem charsOfUnits_toNat (cs : List Char) : charsOfUnits (cs.map Char.toNat) = some cs := by
  induction cs with
  | nil => rfl
  | cons c rest ih =>
      obtain ⟨hhigh, hlow⟩ := not_surrogate c
      cases rest with
      | nil => simp [charsOfUnits, hhigh, hlow]
      | cons next rest =>
          rw [List.map_cons] at ih
          simp [charsOfUnits, hhigh, hlow, ih]

/-! ## Characters -/

theorem quotedUnits_of_plain {c : Char} (hquote : c ≠ '"') (hescape : c ≠ '\\') (hcontrol : ¬ c.toNat < 0x20)
    (rest : List Char) :
    quotedUnits (c :: rest) = (quotedUnits rest).map fun read => (c.toNat :: read.1, read.2) := by
  rw [quotedUnits]
  · rw [if_neg (not_or_intro hescape hcontrol)]
    cases quotedUnits rest <;> rfl
  · exact hquote
  · exact fun _ _ _ _ _ h => absurd h hescape
  · exact fun _ _ h => absurd h hescape

theorem quotedUnits_of_escape {e c : Char} (hletter : e ≠ 'u') (h : escapedChar? e = some c) (rest : List Char) :
    quotedUnits ('\\' :: e :: rest) = (quotedUnits rest).map fun read => (c.toNat :: read.1, read.2) := by
  rw [quotedUnits]
  · rw [h]
    cases quotedUnits rest <;> rfl
  · exact fun _ _ _ _ _ heq => absurd heq hletter

theorem quotedUnits_of_control {n : Nat} (h : n < 0x20) (rest : List Char) :
    quotedUnits ('\\' :: 'u' :: '0' :: '0' :: hexDigit (n / 16) :: hexDigit (n % 16) :: rest) =
      (quotedUnits rest).map fun read => (n :: read.1, read.2) := by
  rw [quotedUnits, codeUnit?_hexDigits h]
  cases quotedUnits rest <;> rfl

/-- Reading what was written for a character gives the character back and goes on behind it. -/
theorem quotedUnits_quoteChar (c : Char) (rest : List Char) :
    quotedUnits ((quoteChar c).toList ++ rest) =
      (quotedUnits rest).map fun read => (c.toNat :: read.1, read.2) := by
  unfold quoteChar
  split
  · next h => exact h ▸ quotedUnits_of_escape (by decide) rfl rest
  split
  · next h => exact h ▸ quotedUnits_of_escape (by decide) rfl rest
  split
  · next h => exact h ▸ quotedUnits_of_escape (by decide) rfl rest
  split
  · next h => exact h ▸ quotedUnits_of_escape (by decide) rfl rest
  split
  · next h => exact h ▸ quotedUnits_of_escape (by decide) rfl rest
  split
  · next h => exact h ▸ quotedUnits_of_escape (by decide) rfl rest
  split
  · next h => exact h ▸ quotedUnits_of_escape (by decide) rfl rest
  split
  · next hcontrol =>
      simp only [String.toList_append, String.toList_ofList]
      exact quotedUnits_of_control hcontrol rest
  · next hquote hescape _ _ _ _ _ hplain =>
      rw [String.toList_singleton]
      exact quotedUnits_of_plain hquote hescape hplain rest

/-! ## Strings -/

theorem quotedUnits_quoteChars (cs rest : List Char) :
    quotedUnits (cs.flatMap (fun c => (quoteChar c).toList) ++ '"' :: rest) =
      some (cs.map Char.toNat, rest) := by
  induction cs with
  | nil => rfl
  | cons c cs ih =>
      rw [List.flatMap_cons, List.append_assoc, quotedUnits_quoteChar, ih]
      rfl

theorem toList_quote (s : String) :
    (quote (some s)).toList = '"' :: (s.toList.flatMap (fun c => (quoteChar c).toList) ++ ['"']) := by
  simp only [quote, String.toList_append, String.toList_join, List.flatMap_map]
  rfl

/-- A string that is quoted is read as it was, whatever follows it. -/
theorem front?_quote (text : Text) (rest : List Char) :
    Token.front? ((quote text).toList ++ rest) = some (.str text, rest) := by
  cases text with
  | none => rfl
  | some s =>
      rw [toList_quote, List.cons_append, List.append_assoc, Token.front?]
      simp [quotedUnits_quoteChars, charsOfUnits_toNat]

end Tandem.Json
