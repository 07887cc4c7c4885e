import Mathlib.Data.List.Nodup
import Tandem.Registry.Basic

/-!
# Registries and the requests that build them

A registry comes about by requests. One that is refused leaves the registry as it was, so no two entries
ever have the same name, and a look-up of an entry's name finds that entry.
-/

namespace Tandem

variable {ρ τ : Type}

inductive Request (ρ τ : Type) where
  | add (entry : Entry ρ)
  | replace (name : String) (entry : Entry ρ)
  | simulate (spec : RunSpec τ)
  | seedAll (seed : UInt64)

namespace Registry

/-- What a request makes of a registry, unless it is refused. -/
def accept (registry : Registry ρ τ) : Except Fault (Registry ρ τ) → Registry ρ τ
  | .ok registry' => registry'
  | .error _ => registry

/-- The registry after a request; one that is refused changes nothing. -/
def serve (registry : Registry ρ τ) : Request ρ τ → Registry ρ τ
  | .add entry => registry.accept (registry.add entry)
  | .replace name entry => registry.accept (registry.replace name entry)
  | .simulate spec => { registry with spec := some spec }
  | .seedAll seed => { registry with seed := some seed }

def built (requests : List (Request ρ τ)) : Registry ρ τ := requests.foldl serve .empty

theorem contains_iff {registry : Registry ρ τ} {name : String} :
    registry.contains name ↔ name ∈ registry.names := by
  rw [contains, List.contains_iff_mem]

theorem add_eq (registry : Registry ρ τ) (entry : Entry ρ) :
    registry.add entry =
      if entry.name ∈ registry.names then .error (.duplicatePartition entry.name)
      else .ok { registry with entries := registry.entries ++ [entry] } := by
  unfold add
  simp only [contains_iff]

theorem replace_eq (registry : Registry ρ τ) (name : String) (entry : Entry ρ) :
    registry.replace name entry =
      if name ∉ registry.names then .error (.unknownPartition "reset_partition" name)
      else if entry.name ≠ name ∧ entry.name ∈ registry.names then
        .error (.duplicatePartition entry.name)
      else
        .ok { registry with
          entries := registry.entries.map fun e => if e.name = name then entry else e } := by
  unfold replace
  simp only [Bool.not_eq_true', ← Bool.not_eq_true, contains_iff]

theorem nodup_names_add {registry registry' : Registry ρ τ} {entry : Entry ρ}
    (hnodup : registry.names.Nodup) (h : registry.add entry = .ok registry') :
    registry'.names.Nodup := by
  rw [add_eq] at h
  split at h
  next => cases h
  next hnew =>
    cases h
    simpa [names] using hnodup.concat hnew

theorem nodup_renamed {names : List String} (hnodup : names.Nodup) {name other : String}
    (hfree : other = name ∨ other ∉ names) :
    (names.map fun listed => if listed = name then other else listed).Nodup := by
  refine hnodup.map_on fun a ha b hb heq => ?_
  by_cases hna : a = name <;> by_cases hnb : b = name <;> simp only [hna, hnb, if_true, if_false] at heq
  · rw [hna, hnb]
  · rcases hfree with hsame | hnew
    · exact absurd (heq.symm.trans hsame) hnb
    · exact absurd (heq ▸ hb) hnew
  · rcases hfree with hsame | hnew
    · exact absurd (heq.trans hsame) hna
    · exact absurd (heq ▸ ha) hnew
  · exact heq

theorem names_replace {registry registry' : Registry ρ τ} {name : String} {entry : Entry ρ}
    (h : registry.replace name entry = .ok registry') :
    (entry.name = name ∨ entry.name ∉ registry.names) ∧
      registry'.names = registry.names.map fun other => if other = name then entry.name else other := by
  rw [replace_eq] at h
  split at h
  next => cases h
  next =>
    split at h
    next => cases h
    next hfree =>
      cases h
      refine ⟨?_, ?_⟩
      · exact Decidable.or_iff_not_imp_left.2 fun hne hmem => hfree ⟨hne, hmem⟩
      · simp only [names, List.map_map]
        refine List.map_congr_left fun e _ => ?_
        rw [Function.comp_apply, Function.comp_apply]
        split <;> rfl

theorem nodup_names_replace {registry registry' : Registry ρ τ} {name : String} {entry : Entry ρ}
    (hnodup : registry.names.Nodup) (h : registry.replace name entry = .ok registry') :
    registry'.names.Nodup := by
  obtain ⟨hfree, hnames⟩ := names_replace h
  rw [hnames]
  exact nodup_renamed hnodup hfree

theorem nodup_names_accept {registry : Registry ρ τ} (hnodup : registry.names.Nodup)
    {result : Except Fault (Registry ρ τ)}
    (h : ∀ registry', result = .ok registry' → registry'.names.Nodup) :
    (registry.accept result).names.Nodup := by
  cases result with
  | ok registry' => exact h registry' rfl
  | error e => exact hnodup

theorem nodup_names_serve {registry : Registry ρ τ} (hnodup : registry.names.Nodup)
    (request : Request ρ τ) : (registry.serve request).names.Nodup := by
  cases request with
  | add entry => exact nodup_names_accept hnodup fun _ => nodup_names_add hnodup
  | replace name entry => exact nodup_names_accept hnodup fun _ => nodup_names_replace hnodup
  | simulate spec => exact hnodup
  | seedAll seed => exact hnodup

theorem nodup_names_built (requests : List (Request ρ τ)) :
    (built requests : Registry ρ τ).names.Nodup :=
  List.foldlRecOn (motive := fun registry => registry.names.Nodup) requests serve List.nodup_nil
    fun _ hnodup request _ => nodup_names_serve hnodup request

theorem get?_of_mem {registry : Registry ρ τ} (hnodup : registry.names.Nodup) {entry : Entry ρ}
    (h : entry ∈ registry.entries) : registry.get? entry.name = some entry := by
  unfold get?
  cases hfind : registry.entries.find? fun other => other.name = entry.name with
  | none =>
      have hno := List.find?_eq_none.1 hfind entry h
      simp at hno
  | some found =>
      have hname : found.name = entry.name := by simpa using List.find?_some hfind
      rw [List.inj_on_of_nodup_map hnodup (List.mem_of_find?_eq_some hfind) h hname]

end Registry

end Tandem
