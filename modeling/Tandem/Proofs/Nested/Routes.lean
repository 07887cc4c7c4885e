import Mathlib.Data.List.TakeWhile
import Tandem.Proofs.Json.Numeral
import Tandem.Rule.Nested

/-!
# Where the params of a nested rule go

A param of the enclosing partition is for a field of an inner partition if its name spells the index of that
partition up to its first slash, and the name of the field behind it. One index can be spelled in many ways,
and a field may have slashes in its name.
-/

namespace Tandem.Nested

/-- The characters spell the word `k`: digits, perhaps after a plus sign. -/
def SpellsWord (cs : List Char) (k : Nat) : Prop :=
  ∃ digits, (cs = digits ∨ cs = '+' :: digits) ∧ digits ≠ [] ∧ (∀ c ∈ digits, c.isDigit = true) ∧
    Decimal.digitsValue digits = k ∧ k < Word.count

/-- A param called `name` is for `field` of inner partition `k`: up to its first slash the name spells `k`,
and behind it stands `field`, which is not empty. -/
def Routes (name : String) (k : Nat) (field : String) : Prop :=
  ∃ head : String, name = head ++ "/" ++ field ∧ '/' ∉ head.toList ∧ SpellsWord head.toList k ∧ field ≠ ""

theorem wordOfDigits?_eq_some_iff {cs : List Char} {k : Nat} :
    wordOfDigits? cs = some k ↔ cs ≠ [] ∧ (∀ c ∈ cs, c.isDigit = true) ∧ Decimal.digitsValue cs = k ∧
      k < Word.count := by
  simp only [wordOfDigits?, List.all_eq_true]
  constructor
  · intro h
    split at h
    next hdigits =>
      split at h
      next hlt =>
        obtain rfl := Option.some.inj h
        exact ⟨hdigits.1, hdigits.2, rfl, hlt⟩
      next => cases h
    next => cases h
  · rintro ⟨hne, hdigits, rfl, hlt⟩
    rw [if_pos ⟨hne, hdigits⟩, if_pos hlt]

theorem index?_eq_some_iff {cs : List Char} {k : Nat} : index? cs = some k ↔ SpellsWord cs k := by
  have hplus : ('+').isDigit = false := by decide
  unfold index?
  split
  next digits =>
    rw [wordOfDigits?_eq_some_iff]
    constructor
    · exact fun h => ⟨digits, Or.inr rfl, h⟩
    · rintro ⟨found, rfl | heq, h⟩
      · exact absurd (h.2.1 '+' List.mem_cons_self) (by rw [hplus]; decide)
      · obtain rfl := (List.cons.inj heq).2
        exact h
  next hno =>
    rw [wordOfDigits?_eq_some_iff]
    constructor
    · exact fun h => ⟨cs, Or.inl rfl, h⟩
    · rintro ⟨digits, rfl | rfl, h⟩
      · exact h
      · exact absurd rfl (hno digits)

theorem route?_append {head : String} (h : '/' ∉ head.toList) (field : String) :
    route? (head ++ "/" ++ field) =
      if field = "" then none else (index? head.toList).map fun k => (k, field) := by
  have hchars : (head ++ "/" ++ field).toList = head.toList ++ '/' :: field.toList := by
    rw [String.toList_append, String.toList_append, List.append_assoc]
    rfl
  have hbefore : ∀ c ∈ head.toList, decide (c ≠ '/') = true := fun c hc =>
    decide_eq_true fun heq => h (heq ▸ hc)
  have hdrop : (head.toList ++ '/' :: field.toList).dropWhile (· ≠ '/') = '/' :: field.toList := by
    rw [List.dropWhile_append_of_pos hbefore]
    rfl
  have htake : (head.toList ++ '/' :: field.toList).takeWhile (· ≠ '/') = head.toList := by
    rw [List.takeWhile_append_of_pos hbefore]
    simp
  simp only [route?, hchars, hdrop, htake]
  cases hfield : field.toList with
  | nil => rw [if_pos (String.toList_eq_nil_iff.1 hfield)]
  | cons c rest =>
      have hne : field ≠ "" := fun heq => by
        rw [heq] at hfield
        cases hfield
      have hback : String.ofList (c :: rest) = field := by rw [← hfield, String.ofList_toList]
      rw [if_neg hne, ← hback]

theorem route?_of_no_slash {name : String} (h : '/' ∉ name.toList) : route? name = none := by
  have hdrop : name.toList.dropWhile (· ≠ '/') = [] :=
    List.dropWhile_eq_nil_iff.2 fun c hc => decide_eq_true fun heq => h (heq ▸ hc)
  simp only [route?, hdrop]

theorem exists_split {name : String} (h : '/' ∈ name.toList) :
    ∃ head field : String, name = head ++ "/" ++ field ∧ '/' ∉ head.toList := by
  obtain ⟨before, after, hname, hbefore⟩ := List.eq_append_cons_of_mem h
  refine ⟨String.ofList before, String.ofList after, String.toList_inj.1 ?_, by rwa [String.toList_ofList]⟩
  simp [hname]

theorem route?_eq_some_iff {name : String} {k : Nat} {field : String} :
    route? name = some (k, field) ↔ Routes name k field := by
  constructor
  · intro h
    by_cases hslash : '/' ∈ name.toList
    · obtain ⟨head, rest, rfl, hhead⟩ := exists_split hslash
      rw [route?_append hhead] at h
      split at h
      next => cases h
      next hrest =>
        obtain ⟨found, hindex, hpair⟩ := Option.map_eq_some_iff.1 h
        obtain ⟨rfl, rfl⟩ := Prod.mk.inj hpair
        exact ⟨head, rfl, hhead, index?_eq_some_iff.1 hindex, hrest⟩
    · rw [route?_of_no_slash hslash] at h
      cases h
  · rintro ⟨head, rfl, hhead, hspells, hfield⟩
    rw [route?_append hhead, if_neg hfield, index?_eq_some_iff.2 hspells]
    rfl

theorem routes_decimal {k : Nat} {field : String} (hk : k < Word.count) (hfield : field ≠ "") :
    Routes (toString k ++ "/" ++ field) k field := by
  have hdigits : (toString k).toList = Nat.toDigits 10 k := by
    rw [Nat.toString_eq_ofList_toDigits, String.toList_ofList]
  have hall : ∀ c ∈ Nat.toDigits 10 k, c.isDigit = true := fun _ => Decimal.isDigit_of_mem_toDigits
  refine ⟨toString k, rfl, fun hslash => ?_, ⟨Nat.toDigits 10 k, Or.inl hdigits, Nat.toDigits_ne_nil, hall,
    Decimal.digitsValue_toDigits k, hk⟩, hfield⟩
  exact absurd (hall '/' (hdigits ▸ hslash)) (by decide)

end Tandem.Nested
