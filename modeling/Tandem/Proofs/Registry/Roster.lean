import Tandem.Proofs.Lists
import Tandem.Proofs.Registry.Requests
import Tandem.Proofs.Table
import Tandem.Registry.Roster

/-!
# A roster is an ordered map

The list of names and the table of entries are two structures, and a request that renames an entry touches
both. They fit together after every request, so a roster is one list, of each name with its entry, to which
a request appends or in which it replaces one place.
-/

namespace Tandem.Roster

variable {ρ τ : Type} {roster : Roster ρ τ} {name : String} {entry : Entry ρ}

/-- Each name with what is found under it, in the order of registration. -/
def listing (roster : Roster ρ τ) : List (String × Option (Entry ρ)) :=
  roster.names.map fun name => (name, roster.get? name)

/-- No name is listed twice, the listed names are those of the table, and an entry is under its own name. -/
structure Sound (roster : Roster ρ τ) : Prop where
  nodup : roster.names.Nodup
  keys : roster.entries.keys.Perm roster.names
  named : ∀ name entry, roster.get? name = some entry → entry.name = name

theorem mem_keys_iff : name ∈ roster.entries.keys ↔ ∃ entry, roster.get? name = some entry :=
  Table.mem_keys_iff

theorem Sound.contains_iff (h : roster.Sound) : roster.entries.contains name = true ↔ name ∈ roster.names :=
  Table.contains_eq_true_iff.trans h.keys.mem_iff

/-! ## What a put and a renaming leave under a name -/

theorem get?_put (other : String) :
    (roster.put entry).get? other = if other = entry.name then some entry else roster.get? other :=
  Table.get?_insert _ _ _ _

theorem get?_rename (new other : String) :
    (roster.rename name new).get? other = if other = name then none else roster.get? other :=
  Table.get?_erase _ _ _

theorem sound_put (hnodup : roster.names.Nodup)
    (hkeys : ∀ name, name ∈ roster.names ↔ name = entry.name ∨ name ∈ roster.entries.keys)
    (hnamed : ∀ name entry, roster.get? name = some entry → entry.name = name) :
    (roster.put entry).Sound := by
  constructor
  case nodup => exact hnodup
  case keys =>
    refine (List.perm_ext_iff_of_nodup (Table.nodup_keys _) hnodup).2 fun name => ?_
    show name ∈ (roster.put entry).entries.keys ↔ name ∈ roster.names
    rw [hkeys, mem_keys_iff, mem_keys_iff, get?_put]
    split
    next heq => simp [heq]
    next hne => simp [hne]
  case named =>
    intro name found hfound
    rw [get?_put] at hfound
    split at hfound
    next heq =>
      cases hfound
      exact heq.symm
    next => exact hnamed name found hfound

theorem mem_names_rename (hmem : name ∈ roster.names) (new other : String) :
    other ∈ (roster.rename name new).names ↔ other = new ∨ other ∈ roster.names ∧ other ≠ name := by
  simp only [rename, List.mem_map]
  constructor
  · rintro ⟨listed, hlisted, heq⟩
    split at heq
    next => exact .inl heq.symm
    next hne =>
      subst heq
      exact .inr ⟨hlisted, hne⟩
  · rintro (rfl | ⟨hlisted, hne⟩)
    · exact ⟨name, hmem, if_pos rfl⟩
    · exact ⟨other, hlisted, if_neg hne⟩

theorem mem_keys_rename (new other : String) :
    other ∈ (roster.rename name new).entries.keys ↔ other ∈ roster.entries.keys ∧ other ≠ name := by
  rw [mem_keys_iff, mem_keys_iff, get?_rename]
  split
  next heq => simp [heq]
  next hne => simp [hne]

/-! ## One request -/

theorem Sound.add_eq (h : roster.Sound) (entry : Entry ρ) :
    roster.add entry =
      if entry.name ∈ roster.names then (.error (.duplicatePartition entry.name), roster)
      else (.ok (), { roster with names := roster.names ++ [entry.name] }.put entry) := by
  unfold add
  simp only [h.contains_iff]

theorem Sound.replace_eq (h : roster.Sound) (name : String) (entry : Entry ρ) :
    roster.replace name entry =
      if name ∉ roster.names then (.error (.unknownPartition "reset_partition" name), roster)
      else if entry.name = name then (.ok (), roster.put entry)
      else if entry.name ∈ roster.names then (.error (.duplicatePartition entry.name), roster)
      else (.ok (), (roster.rename name entry.name).put entry) := by
  unfold replace
  simp only [Bool.not_eq_true', ← Bool.not_eq_true, h.contains_iff]

theorem Sound.add (h : roster.Sound) (entry : Entry ρ) : (roster.add entry).2.Sound := by
  rw [h.add_eq]
  split
  next => exact h
  next hnew =>
    have hnodup : (roster.names ++ [entry.name]).Nodup := by
      simpa only [List.concat_eq_append] using h.nodup.concat hnew
    refine sound_put hnodup (fun name => ?_) h.named
    rw [List.mem_append, List.mem_singleton, or_comm, h.keys.mem_iff]

theorem Sound.replace (h : roster.Sound) (name : String) (entry : Entry ρ) :
    (roster.replace name entry).2.Sound := by
  rw [h.replace_eq]
  split
  next => exact h
  next hmem =>
    have hmem : name ∈ roster.names := not_not.1 hmem
    split
    next heq =>
      refine sound_put h.nodup (fun other => ?_) h.named
      rw [h.keys.mem_iff, iff_or_self, heq]
      rintro rfl
      exact hmem
    next =>
      split
      next => exact h
      next hnew =>
        refine sound_put (Registry.nodup_renamed h.nodup (.inr hnew)) (fun other => ?_) ?_
        · rw [mem_names_rename hmem, mem_keys_rename, h.keys.mem_iff]
        · intro other found hfound
          rw [get?_rename] at hfound
          split at hfound
          next => cases hfound
          next => exact h.named other found hfound

/-! ## What is listed after it -/

theorem listing_append (hnew : entry.name ∉ roster.names) :
    ({ roster with names := roster.names ++ [entry.name] }.put entry).listing =
      roster.listing ++ [(entry.name, some entry)] := by
  have hold : ∀ name ∈ roster.names, (roster.put entry).get? name = roster.get? name := by
    intro name hname
    have hne : name ≠ entry.name := fun heq => hnew (heq ▸ hname)
    rw [get?_put, if_neg hne]
  show (roster.names ++ [entry.name]).map (fun name => (name, (roster.put entry).get? name)) = _
  rw [List.map_append, List.map_singleton, get?_put, if_pos rfl, listing]
  congr 1
  refine List.map_congr_left fun name hname => ?_
  rw [hold name hname]

def replaced (name : String) (entry : Entry ρ) (listed : String × Option (Entry ρ)) :
    String × Option (Entry ρ) :=
  if listed.1 = name then (entry.name, some entry) else listed

theorem listing_put (hname : entry.name = name) :
    (roster.put entry).listing = roster.listing.map (replaced name entry) := by
  unfold listing
  rw [List.map_map]
  refine List.map_congr_left fun other _ => ?_
  rw [get?_put, Function.comp_apply, replaced, hname]
  split
  next heq => rw [heq]
  next => rfl

theorem listing_rename (hnew : entry.name ∉ roster.names) :
    ((roster.rename name entry.name).put entry).listing = roster.listing.map (replaced name entry) := by
  unfold listing
  rw [List.map_map]
  show (List.map _ roster.names).map _ = _
  rw [List.map_map]
  refine List.map_congr_left fun other hother => ?_
  have hne : other ≠ entry.name := fun heq => hnew (heq ▸ hother)
  rw [Function.comp_apply, Function.comp_apply, get?_put, get?_rename, replaced]
  by_cases hname : other = name
  · rw [if_pos hname, if_pos rfl, if_pos hname]
  · rw [if_neg hname, if_neg hne, if_neg hname, if_neg hname]

/-- A request is granted exactly under a condition. If it is, the roster lists what it should; if not,
the roster is as it was. -/
structure Complies (roster : Roster ρ τ) (condition : Prop) (after : List (String × Option (Entry ρ)))
    (served : Except Fault Unit × Roster ρ τ) : Prop where
  granted_iff : served.1 = .ok () ↔ condition
  listing : served.1 = .ok () → served.2.listing = after
  refused : served.1 ≠ .ok () → served.2 = roster

variable {condition : Prop} {after : List (String × Option (Entry ρ))}

theorem complies_of_granted {roster' : Roster ρ τ} (h : condition) (hlisting : roster'.listing = after) :
    roster.Complies condition after (.ok (), roster') :=
  ⟨iff_of_true rfl h, fun _ => hlisting, fun hne => absurd rfl hne⟩

theorem complies_of_refused (h : ¬condition) (fault : Fault) :
    roster.Complies condition after (.error fault, roster) :=
  ⟨iff_of_false nofun h, nofun, fun _ => rfl⟩

theorem Sound.complies_add (h : roster.Sound) (entry : Entry ρ) :
    roster.Complies (entry.name ∉ roster.names) (roster.listing ++ [(entry.name, some entry)])
      (roster.add entry) := by
  rw [h.add_eq]
  split
  next hmem => exact complies_of_refused (not_not.2 hmem) _
  next hnew => exact complies_of_granted hnew (listing_append hnew)

theorem Sound.complies_replace (h : roster.Sound) (name : String) (entry : Entry ρ) :
    roster.Complies (name ∈ roster.names ∧ (entry.name = name ∨ entry.name ∉ roster.names))
      (roster.listing.map (replaced name entry)) (roster.replace name entry) := by
  rw [h.replace_eq]
  split
  next hunknown => exact complies_of_refused (fun hmem => hunknown hmem.1) _
  next hmem =>
    have hmem : name ∈ roster.names := not_not.1 hmem
    split
    next hname => exact complies_of_granted ⟨hmem, .inl hname⟩ (listing_put hname)
    next hname =>
      split
      next htaken =>
        exact complies_of_refused (fun hfree => hfree.2.elim hname fun hnew => hnew htaken) _
      next hnew => exact complies_of_granted ⟨hmem, .inr hnew⟩ (listing_rename hnew)

theorem Sound.notMem_names_replace (h : roster.Sound) (hne : entry.name ≠ name)
    (hok : (roster.replace name entry).1 = .ok ()) : name ∉ (roster.replace name entry).2.names := by
  obtain ⟨hmem, hfree⟩ := (h.complies_replace name entry).granted_iff.1 hok
  have hnew : entry.name ∉ roster.names := hfree.resolve_left hne
  rw [h.replace_eq, if_neg (not_not.2 hmem), if_neg hne, if_neg hnew]
  intro hlisted
  rcases (mem_names_rename hmem entry.name name).1 hlisted with heq | ⟨-, hself⟩
  · exact hne heq.symm
  · exact hself rfl

/-! ## The registry that a roster keeps -/

/-- The roster lists the names and entries of the registry, and has its seed and its run. -/
structure Keeps (roster : Roster ρ τ) (registry : Registry ρ τ) : Prop where
  seed : roster.seed = registry.seed
  spec : roster.spec = registry.spec
  listing : roster.listing = registry.entries.map fun entry => (entry.name, some entry)

variable {registry : Registry ρ τ}

theorem Keeps.names (h : roster.Keeps registry) : registry.names = roster.names := by
  have hnames := congrArg (List.map Prod.fst) h.listing
  rw [Roster.listing, List.map_map, List.map_map] at hnames
  exact hnames.symm.trans (List.map_id _)

theorem Keeps.registry_eq (h : roster.Keeps registry) : roster.registry = .ok registry := by
  have hentries := congrArg (List.map fun listed : String × Option (Entry ρ) =>
    listed.2.elim (.error Crash.outOfBounds) Except.ok) h.listing
  rw [Roster.listing, List.map_map, List.map_map] at hentries
  unfold Roster.registry
  rw [mapM_eq_ok_of_map_eq (?_ : List.map _ roster.names = List.map Except.ok registry.entries), h.seed,
    h.spec]
  · rfl
  · refine Eq.trans (List.map_congr_left fun name _ => ?_) hentries
    rw [Function.comp_apply]
    cases roster.get? name <;> rfl

theorem Keeps.add (h : roster.Keeps registry) (hsound : roster.Sound) (entry : Entry ρ) :
    (roster.add entry).2.Keeps (registry.accept (registry.add entry)) := by
  rw [hsound.add_eq, Registry.add_eq, h.names]
  split
  next => exact h
  next hnew =>
    refine ⟨h.seed, h.spec, (listing_append hnew).trans ?_⟩
    rw [h.listing, Registry.accept, List.map_append, List.map_singleton]

theorem Keeps.replace (h : roster.Keeps registry) (hsound : roster.Sound) (name : String)
    (entry : Entry ρ) :
    (roster.replace name entry).2.Keeps (registry.accept (registry.replace name entry)) := by
  have hplaces : roster.listing.map (replaced name entry) =
      (registry.entries.map fun e => if e.name = name then entry else e).map
        fun e => (e.name, some e) := by
    rw [h.listing, List.map_map, List.map_map]
    refine List.map_congr_left fun e _ => ?_
    rw [Function.comp_apply, Function.comp_apply, replaced]
    split <;> rfl
  rw [hsound.replace_eq, Registry.replace_eq, h.names]
  by_cases hmem : name ∈ roster.names
  · rw [if_neg (not_not.2 hmem), if_neg (not_not.2 hmem)]
    by_cases hname : entry.name = name
    · rw [if_pos hname, if_neg (fun hother => hother.1 hname)]
      exact ⟨h.seed, h.spec, (listing_put hname).trans hplaces⟩
    · rw [if_neg hname]
      by_cases htaken : entry.name ∈ roster.names
      · rw [if_pos htaken, if_pos ⟨hname, htaken⟩]
        exact h
      · rw [if_neg htaken, if_neg (fun hother => htaken hother.2)]
        exact ⟨h.seed, h.spec, (listing_rename htaken).trans hplaces⟩
  · rw [if_pos hmem, if_pos hmem]
    exact h

/-! ## Many requests -/

def serve (roster : Roster ρ τ) : Request ρ τ → Roster ρ τ
  | .add entry => (roster.add entry).2
  | .replace name entry => (roster.replace name entry).2
  | .simulate spec => { roster with spec := some spec }
  | .seedAll seed => { roster with seed := some seed }

def built (requests : List (Request ρ τ)) : Roster ρ τ := requests.foldl serve .empty

theorem Sound.serve (h : roster.Sound) (request : Request ρ τ) : (roster.serve request).Sound := by
  cases request with
  | add entry => exact h.add entry
  | replace name entry => exact h.replace name entry
  | simulate spec => exact ⟨h.nodup, h.keys, h.named⟩
  | seedAll seed => exact ⟨h.nodup, h.keys, h.named⟩

theorem Keeps.serve (h : roster.Keeps registry) (hsound : roster.Sound) (request : Request ρ τ) :
    (roster.serve request).Keeps (registry.serve request) := by
  cases request with
  | add entry => exact h.add hsound entry
  | replace name entry => exact h.replace hsound name entry
  | simulate spec => exact ⟨h.seed, rfl, h.listing⟩
  | seedAll seed => exact ⟨rfl, h.spec, h.listing⟩

theorem sound_empty : (empty : Roster ρ τ).Sound := ⟨.nil, .nil, nofun⟩

theorem sound_and_keeps_built (requests : List (Request ρ τ)) :
    (built requests).Sound ∧ (built requests).Keeps (Registry.built requests) :=
  List.foldl_rel (r := fun (roster : Roster ρ τ) registry => roster.Sound ∧ roster.Keeps registry)
    ⟨sound_empty, rfl, rfl, rfl⟩
    fun request _ _ _ h => ⟨h.1.serve request, h.2.serve h.1 request⟩

/-- What follows from a registry follows from the roster that keeps it. -/
theorem resolve_built [UpdateRule ρ] (requests : List (Request ρ τ)) :
    (built requests).resolve = (Registry.built requests).resolve := by
  rw [resolve, (sound_and_keeps_built requests).2.registry_eq]
  rfl

/-- Requests lead to a roster that keeps an entry for each name, in order. A new name is granted and is then
the last one. A registered one is granted another entry in its place, under that name or a new one. -/
theorem roster_is_ordered_map (requests : List (Request ρ τ)) :
    (built requests).Sound ∧ (built requests).registry = .ok (Registry.built requests) ∧
      (∀ entry, (built requests).Complies (entry.name ∉ (built requests).names)
        ((built requests).listing ++ [(entry.name, some entry)]) ((built requests).add entry)) ∧
      ∀ name entry, (built requests).Complies
        (name ∈ (built requests).names ∧ (entry.name = name ∨ entry.name ∉ (built requests).names))
        ((built requests).listing.map (replaced name entry)) ((built requests).replace name entry) ∧
        (entry.name ≠ name → ((built requests).replace name entry).1 = .ok () →
          name ∉ ((built requests).replace name entry).2.names) := by
  obtain ⟨hsound, hkeeps⟩ := sound_and_keeps_built requests
  exact ⟨hsound, hkeeps.registry_eq, hsound.complies_add, fun name entry =>
    ⟨hsound.complies_replace name entry, hsound.notMem_names_replace⟩⟩

/-- A renaming, one under a taken name, and an entry under the name that the first has freed. -/
def renamings : List (Request Unit Unit) :=
  [.add (.new "prey" () []), .add (.new "predator" () []), .replace "prey" (.new "grass" () []),
    .replace "grass" (.new "predator" () []), .add (.new "prey" () [])]

theorem renamings_keep_order :
    (built renamings).names = ["grass", "predator", "prey"] ∧
      ((built renamings).replace "prey" (.new "hare" () [])).1 = .ok () ∧
      "prey" ∉ ((built renamings).replace "prey" (.new "hare" () [])).2.names ∧
      ((built renamings).replace "grass" (.new "predator" () [])).2 = built renamings := by
  obtain ⟨-, -, -, hreplace⟩ := roster_is_ordered_map renamings
  obtain ⟨hhare, hfreed⟩ := hreplace "prey" (.new "hare" () [])
  have hgranted := hhare.granted_iff.2 ⟨by decide, .inr (by decide)⟩
  refine ⟨rfl, hgranted, hfreed (by decide) hgranted, ?_⟩
  obtain ⟨htaken, -⟩ := hreplace "grass" (.new "predator" () [])
  refine htaken.refused fun hgranted => ?_
  exact absurd (htaken.granted_iff.1 hgranted) (by decide)

end Tandem.Roster
