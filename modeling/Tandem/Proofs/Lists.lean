import Mathlib.Data.List.Forall2

/-!
# Lists, place by place

A computation over a list that succeeds has succeeded at each place, and what relates two lists place by
place survives a change at one place of either.
-/

namespace Tandem

variable {ε δ α β γ : Type}

/-! ## Computations that succeed -/

theorem bind_eq_ok {first : Except ε α} {next : α → Except ε β} {value : β}
    (h : (first >>= next) = .ok value) : ∃ found, first = .ok found ∧ next found = .ok value := by
  cases first with
  | error e => cases h
  | ok found => exact ⟨found, rfl, h⟩

theorem mapError_eq_ok {wrap : ε → δ} {computed : Except ε α} {value : α}
    (h : computed.mapError wrap = .ok value) : computed = .ok value := by
  cases computed with
  | error e => cases h
  | ok found =>
      cases h
      rfl

theorem toOption_eq_some_iff {computed : Except ε α} {value : α} :
    computed.toOption = some value ↔ computed = .ok value := by
  cases computed <;> simp [Except.toOption]

theorem toOption_eq_none_iff {computed : Except ε α} :
    computed.toOption = none ↔ ∀ value, computed ≠ .ok value := by
  cases computed <;> simp [Except.toOption]

theorem mapM_eq_ok {f : α → Except ε β} {xs : List α} {ys : List β} (h : xs.mapM f = .ok ys) :
    List.Forall₂ (fun x y => f x = .ok y) xs ys := by
  induction xs generalizing ys with
  | nil =>
      cases h
      exact .nil
  | cons x xs ih =>
      rw [List.mapM_cons] at h
      obtain ⟨y, hy, h⟩ := bind_eq_ok h
      obtain ⟨rest, hrest, h⟩ := bind_eq_ok h
      cases h
      exact .cons hy (ih hrest)

theorem mapM_eq_ok_of_map_eq {f : α → Except ε β} {xs : List α} {ys : List β}
    (h : xs.map f = ys.map .ok) : xs.mapM f = .ok ys := by
  induction xs generalizing ys with
  | nil =>
      cases List.map_eq_nil_iff.1 h.symm
      rfl
  | cons x rest ih =>
      obtain ⟨y, ys, rfl, hx, hrest⟩ := List.map_eq_cons_iff.1 h.symm
      rw [List.mapM_cons, ← hx, ih hrest.symm]
      rfl

theorem exists_mapM_ok {f : α → Except ε β} {xs : List α} (h : ∀ x ∈ xs, ∃ y, f x = .ok y) :
    ∃ ys, xs.mapM f = .ok ys := by
  induction xs with
  | nil => exact ⟨[], rfl⟩
  | cons x rest ih =>
      obtain ⟨⟨y, hy⟩, hrest⟩ := List.forall_mem_cons.1 h
      obtain ⟨ys, hys⟩ := ih hrest
      exact ⟨y :: ys, by simp [List.mapM_cons, hy, hys, bind, Except.bind, pure, Except.pure]⟩

theorem exists_of_mapM_error {f : α → Except ε β} {xs : List α} {e : ε}
    (h : xs.mapM f = .error e) : ∃ x ∈ xs, f x = .error e := by
  induction xs with
  | nil => cases h
  | cons x rest ih =>
      rw [List.mapM_cons] at h
      cases hx : f x with
      | error found =>
          simp only [hx, bind, Except.bind, Except.error.injEq] at h
          exact ⟨x, List.mem_cons_self, h ▸ hx⟩
      | ok y =>
          cases hrest : rest.mapM f with
          | error found =>
              simp only [hx, hrest, bind, Except.bind, Except.error.injEq] at h
              obtain ⟨x', hx', hfound⟩ := ih (h ▸ hrest)
              exact ⟨x', List.mem_cons_of_mem _ hx', hfound⟩
          | ok ys => simp [hx, hrest, bind, Except.bind, pure, Except.pure] at h

/-! ## Lists related place by place -/

theorem exists_of_forall₂ {related : α → β → Prop} {xs : List α} {ys : List β}
    (h : List.Forall₂ related xs ys) {i : Nat} {x : α} (hx : xs[i]? = some x) :
    ∃ y, ys[i]? = some y ∧ related x y := by
  obtain ⟨hi, rfl⟩ := List.getElem?_eq_some_iff.1 hx
  have hi' : i < ys.length := h.length_eq ▸ hi
  exact ⟨_, List.getElem?_eq_getElem hi', (List.forall₂_iff_get.1 h).2 i hi hi'⟩

theorem forall₂_of_getElem? {related : α → β → Prop} {xs : List α} {ys : List β}
    (hlength : xs.length = ys.length)
    (h : ∀ (i : Nat) x y, xs[i]? = some x → ys[i]? = some y → related x y) : List.Forall₂ related xs ys :=
  List.forall₂_iff_get.2 ⟨hlength, fun i hi hi' =>
    h i _ _ (List.getElem?_eq_getElem hi) (List.getElem?_eq_getElem hi')⟩

theorem map_eq_of_forall₂ {related : α → β → Prop} {f : α → γ} {g : β → γ}
    (hsame : ∀ x y, related x y → f x = g y) {xs : List α} {ys : List β}
    (h : List.Forall₂ related xs ys) : xs.map f = ys.map g := by
  induction h with
  | nil => rfl
  | cons hhead _ ih => rw [List.map_cons, List.map_cons, ih, hsame _ _ hhead]

theorem forall_mem_iff_of_forall₂ {related : α → β → Prop} {P : α → Prop} {Q : β → Prop} {xs : List α}
    {ys : List β} (h : List.Forall₂ related xs ys) (hiff : ∀ x y, related x y → (P x ↔ Q y)) :
    (∀ x ∈ xs, P x) ↔ ∀ y ∈ ys, Q y := by
  induction h with
  | nil => simp
  | cons hhead _ ih => rw [List.forall_mem_cons, List.forall_mem_cons, hiff _ _ hhead, ih]

theorem forall₂_trans {related : α → α → Prop}
    (htrans : ∀ {x y z}, related x y → related y z → related x z) {xs ys zs : List α}
    (h : List.Forall₂ related xs ys) (h' : List.Forall₂ related ys zs) : List.Forall₂ related xs zs := by
  refine List.forall₂_iff_get.2 ⟨h.length_eq.trans h'.length_eq, fun i hi hi' => ?_⟩
  have hmid : i < ys.length := h.length_eq ▸ hi
  exact htrans ((List.forall₂_iff_get.1 h).2 i hi hmid) ((List.forall₂_iff_get.1 h').2 i hmid hi')

theorem forall₂_set_both {related : α → β → Prop} {xs : List α} {ys : List β}
    (h : List.Forall₂ related xs ys) (i : Nat) {x : α} {y : β} (hxy : related x y) :
    List.Forall₂ related (xs.set i x) (ys.set i y) := by
  induction h generalizing i with
  | nil => exact .nil
  | cons hhead htail ih =>
      cases i with
      | zero => exact .cons hxy htail
      | succ i => exact .cons hhead (ih i)

theorem forall₂_set {related : α → α → Prop} (hrefl : ∀ x, related x x) {xs : List α} {i : Nat}
    {x y : α} (hx : xs[i]? = some x) (h : related x y) : List.Forall₂ related xs (xs.set i y) := by
  obtain ⟨hi, rfl⟩ := List.getElem?_eq_some_iff.1 hx
  have hset := forall₂_set_both (List.forall₂_same.2 fun x (_ : x ∈ xs) => hrefl x) i h
  rwa [List.set_getElem_self] at hset

theorem forall₂_set_left {related : α → β → Prop} {xs : List α} {ys : List β}
    (h : List.Forall₂ related xs ys) {i : Nat} {x : α} {y : β} (hy : ys[i]? = some y)
    (hxy : related x y) : List.Forall₂ related (xs.set i x) ys := by
  obtain ⟨hi, rfl⟩ := List.getElem?_eq_some_iff.1 hy
  simpa using forall₂_set_both h i hxy

theorem zip_set_right {xs : List α} {ys : List β} {i : Nat} {x : α} (h : xs[i]? = some x) (y : β) :
    xs.zip (ys.set i y) = (xs.zip ys).set i (x, y) := by
  induction xs generalizing ys i with
  | nil => cases h
  | cons first xs ih =>
      cases ys with
      | nil => rfl
      | cons second ys =>
          cases i with
          | zero =>
              obtain rfl : first = x := Option.some.inj h
              rfl
          | succ i => exact congrArg ((first, second) :: ·) (ih h)

end Tandem
