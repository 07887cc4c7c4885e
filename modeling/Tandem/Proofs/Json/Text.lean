import Mathlib.Data.List.Chain
import Tandem.Json.Text
import Tandem.Proofs.Json.Numeral
import Tandem.Proofs.Json.Quote

/-!
# Texts split into their tokens

Every token is read back from its text. Only a number may not be followed by just anything: the text behind
it must not go on with a character of numbers. Since no text has two numbers beside each other, splitting a
text gives the tokens it was joined from, whatever blanks are between them.
-/

namespace Tandem.Json

namespace Token

/-! ## One token -/

def Spelled : Token → Prop
  | num numeral => numeral.Spelled
  | _ => True

def isNum : Token → Bool
  | num _ => true
  | _ => false

theorem exists_toList_quote (s : Text) : ∃ cs, (quote s).toList = '"' :: cs := by
  cases s with
  | none => exact ⟨_, rfl⟩
  | some s => exact ⟨_, toList_quote s⟩

theorem front?_text {t : Token} (h : t.Spelled) {rest : List Char}
    (hrest : t.isNum = true → Numeral.StopsAt Numeral.isNumberChar rest) :
    front? (t.text.toList ++ rest) = some (t, rest) := by
  cases t with
  | num numeral => exact front?_num h (hrest rfl)
  | str s => exact front?_quote s rest
  | bool value => cases value <;> rfl
  | _ => rfl

theorem isBlank_of_isNumberChar {c : Char} (h : Numeral.isNumberChar c = true) : isBlank c = false := by
  simp only [isBlank, Bool.or_eq_false_iff, beq_eq_false_iff_ne]
  exact ⟨⟨⟨Numeral.ne_of_isNumberChar h rfl, Numeral.ne_of_isNumberChar h rfl⟩,
    Numeral.ne_of_isNumberChar h rfl⟩, Numeral.ne_of_isNumberChar h rfl⟩

/-- The text of a token starts with no blank, and with a character of numbers only if it is a number. -/
theorem exists_toList_text {t : Token} (h : t.Spelled) :
    ∃ c cs, t.text.toList = c :: cs ∧ isBlank c = false ∧
      (t.isNum = false → Numeral.isNumberChar c = false) := by
  cases t with
  | num numeral =>
      cases htext : (num numeral).text.toList with
      | nil => exact absurd htext h.text_ne_nil
      | cons c cs =>
          have hc : Numeral.isNumberChar c = true := h.isNumberChar_of_mem (htext ▸ List.mem_cons_self)
          exact ⟨c, cs, rfl, isBlank_of_isNumberChar hc, nofun⟩
  | str s =>
      obtain ⟨cs, hcs⟩ := exists_toList_quote s
      exact ⟨'"', cs, hcs, rfl, fun _ => rfl⟩
  | bool value => cases value <;> exact ⟨_, _, rfl, rfl, fun _ => rfl⟩
  | _ => exact ⟨_, _, rfl, rfl, fun _ => rfl⟩

/-! ## Many tokens -/

theorem scanWithin_blanks {blanks : List Char} (h : ∀ c ∈ blanks, isBlank c = true) (fuel : Nat)
    (cs : List Char) : scanWithin (fuel + 1) (blanks ++ cs) = scanWithin (fuel + 1) cs := by
  rw [scanWithin, scanWithin, List.dropWhile_append_of_pos h]

theorem scanWithin_token {t : Token} (h : t.Spelled) {rest : List Char}
    (hrest : t.isNum = true → Numeral.StopsAt Numeral.isNumberChar rest) (fuel : Nat) :
    scanWithin (fuel + 1) (t.text.toList ++ rest) = (scanWithin fuel rest).map (t :: ·) := by
  obtain ⟨c, cs, htext, hblank, -⟩ := exists_toList_text h
  have hfront := front?_text h hrest
  rw [htext, List.cons_append] at hfront ⊢
  rw [scanWithin, List.dropWhile_cons_of_neg (by simp [hblank])]
  simp only [hfront, Option.bind_eq_bind, Option.bind_some]
  cases scanWithin fuel rest <;> rfl

/-- No number follows a number. -/
def Apart (tokens : List Token) : Prop := tokens.IsChain fun t next => t.isNum = true → next.isNum = false

section Apart

variable {t : Token} {tokens later : List Token}

theorem apart_cons (ht : t.isNum = false) (h : Apart tokens) : Apart (t :: tokens) :=
  List.isChain_cons.2 ⟨fun _ _ hnum => absurd hnum (by simp [ht]), h⟩

theorem apart_append (ht : t.isNum = false) (h : Apart tokens) (hlater : Apart later) :
    Apart (tokens ++ t :: later) := by
  refine List.isChain_append.2 ⟨h, apart_cons ht hlater, fun _ _ next hnext _ => ?_⟩
  cases hnext
  exact ht

end Apart

end Token

/-! ## Parts of a text -/

namespace Piece

def token? : Piece → Option Token
  | token t => some t
  | _ => none

theorem eq_token {piece : Piece} {t : Token} (h : piece.token? = some t) : piece = .token t := by
  cases piece with
  | token t' =>
      cases h
      rfl
  | _ => cases h

def tokens (pieces : List Piece) : List Token := pieces.filterMap token?

theorem tokens_cons_token (t : Token) (rest : List Piece) : tokens (.token t :: rest) = t :: tokens rest := rfl

theorem tokens_cons_of_none {piece : Piece} (h : piece.token? = none) (rest : List Piece) :
    tokens (piece :: rest) = tokens rest :=
  List.filterMap_cons_none h

theorem tokens_append (pieces rest : List Piece) : tokens (pieces ++ rest) = tokens pieces ++ tokens rest :=
  List.filterMap_append

def chars (pieces : List Piece) : List Char := pieces.flatMap fun piece => piece.text.toList

theorem toList_join (pieces : List Piece) : (join pieces).toList = chars pieces := by
  rw [join, String.toList_join, List.flatMap_map]
  rfl

theorem toList_line (level : Nat) :
    (line level).text.toList = '\n' :: List.replicate (2 * level) ' ' := by
  have hpush : ∀ n, ("".pushn ' ' n).toList = List.replicate n ' ' := by
    intro n
    induction n with
    | zero => rfl
    | succ n ih =>
        rw [String.pushn_eq_repeat_push] at ih ⊢
        rw [Nat.repeat, String.toList_push, ih, List.replicate_succ']
  rw [text, String.toList_append, hpush]
  rfl

theorem exists_blanks {piece : Piece} (h : piece.token? = none) :
    ∃ c cs, piece.text.toList = c :: cs ∧ Numeral.isNumberChar c = false ∧
      ∀ d ∈ c :: cs, Token.isBlank d = true := by
  cases piece with
  | token t => cases h
  | space => exact ⟨' ', [], rfl, rfl, List.forall_mem_singleton.2 rfl⟩
  | line level =>
      refine ⟨'\n', List.replicate (2 * level) ' ', toList_line level, rfl, ?_⟩
      refine List.forall_mem_cons.2 ⟨rfl, fun d hd => ?_⟩
      rw [List.eq_of_mem_replicate hd]
      rfl

/-- Behind a number, a text does not go on with a character of numbers. -/
theorem stopsAt_chars {pieces : List Piece} (hspelled : ∀ t ∈ tokens pieces, t.Spelled)
    (h : ∀ t ∈ (tokens pieces).head?, t.isNum = false) :
    Numeral.StopsAt Numeral.isNumberChar (chars pieces) := by
  cases pieces with
  | nil => exact fun c hc => nomatch hc
  | cons piece rest =>
      cases htoken : piece.token? with
      | none =>
          obtain ⟨c, cs, htext, hc, -⟩ := exists_blanks htoken
          rintro d hd
          rw [chars, List.flatMap_cons, htext] at hd
          cases hd
          exact hc
      | some t =>
          obtain rfl := eq_token htoken
          obtain ⟨c, cs, htext, -, hc⟩ := Token.exists_toList_text (hspelled t List.mem_cons_self)
          rintro d hd
          rw [chars, List.flatMap_cons, text, htext] at hd
          cases hd
          exact hc (h t rfl)

theorem scanWithin_chars {pieces : List Piece} (hspelled : ∀ t ∈ tokens pieces, t.Spelled)
    (hapart : Token.Apart (tokens pieces)) {fuel : Nat} (hfuel : (chars pieces).length ≤ fuel) :
    Token.scanWithin fuel (chars pieces) = some (tokens pieces) := by
  induction pieces generalizing fuel with
  | nil => cases fuel <;> rfl
  | cons piece rest ih =>
      rw [chars, List.flatMap_cons, ← chars] at hfuel ⊢
      rw [List.length_append] at hfuel
      cases htoken : piece.token? with
      | none =>
          obtain ⟨c, cs, htext, -, hblank⟩ := exists_blanks htoken
          rw [tokens_cons_of_none htoken] at hspelled hapart ⊢
          rw [htext, List.length_cons] at hfuel
          obtain ⟨fuel, rfl⟩ : ∃ n, fuel = n + 1 := ⟨fuel - 1, by omega⟩
          rw [htext, Token.scanWithin_blanks hblank]
          exact ih hspelled hapart (by omega)
      | some t =>
          obtain rfl := eq_token htoken
          rw [tokens_cons_token] at hspelled hapart ⊢
          obtain ⟨ht, hrest⟩ := List.forall_mem_cons.1 hspelled
          obtain ⟨hnext, hlater⟩ := List.isChain_cons.1 hapart
          obtain ⟨c, cs, htext, -⟩ := Token.exists_toList_text ht
          have hlength : 0 < (Piece.token t).text.toList.length := by
            rw [text, htext]
            exact Nat.succ_pos _
          obtain ⟨fuel, rfl⟩ : ∃ n, fuel = n + 1 := ⟨fuel - 1, by omega⟩
          have hstops : t.isNum = true → Numeral.StopsAt Numeral.isNumberChar (chars rest) :=
            fun hnum => stopsAt_chars hrest fun next hmem => hnext next hmem hnum
          rw [text, Token.scanWithin_token ht hstops, ih hrest hlater (by omega)]
          rfl

theorem scan_join {pieces : List Piece} (hspelled : ∀ t ∈ tokens pieces, t.Spelled)
    (hapart : Token.Apart (tokens pieces)) : Token.scan (join pieces) = some (tokens pieces) := by
  rw [Token.scan, toList_join]
  exact scanWithin_chars hspelled hapart (Nat.le_refl _)

end Piece

end Tandem.Json
