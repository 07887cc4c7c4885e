import Tandem.Proofs.Lists
import Tandem.Proofs.Table
import Tandem.Registry.Resolve

/-!
# Names turned into indices

The plan of an entry refers by index to the partitions that the entry refers to by name. All else in the
plan is the entry's.
-/

namespace Tandem

def Indexes (names listed : List String) (values : List Float) : Prop :=
  ∃ indices : List Nat, indices.map (fun i => names[i]?) = listed.map some ∧
    values = indices.map Float.ofNat

/-- The feed takes from the partition of the named source, and the same elements. -/
def Refers (names : List String) (named : NamedFeed) (feed : Feed) : Prop :=
  names[feed.source]? = some named.source ∧ feed.selection = named.selection

variable {ρ : Type}

/-- The plan of an entry, when all names by index and the seed for all are given. -/
structure Entry.Planned (names : List String) (seed : Option UInt64) (entry : Entry ρ)
    (p : PartitionPlan) : Prop where
  name : p.name = entry.name
  owner : p.params.owner = entry.name
  indexed : ∀ param listed, entry.indexParams.get? param = some listed →
    ∃ values, p.params.get? param = some values ∧ Indexes names listed values
  plain : ∀ param, entry.indexParams.get? param = none → p.params.get? param = entry.params.get? param
  fed : ∀ param named, entry.feeds.get? param = some named →
    ∃ feed, p.feeds.get? param = some feed ∧ Refers names named feed
  unfed : ∀ param, entry.feeds.get? param = none → p.feeds.get? param = none
  initial : p.initial = entry.initial
  width : p.width = entry.width
  depth : p.depth = entry.depth
  derived : ∀ value, seed = some value → p.seed = deriveSeed value entry.name
  own : seed = none → p.seed = entry.seed

namespace Registry

variable {order : List (Entry ρ)} {referrer : String}

theorem indexOf_eq_ok {name : String} {index : Nat} (h : indexOf order referrer name = .ok index) :
    (order.map (·.name))[index]? = some name := by
  unfold indexOf at h
  split at h
  next found hfound =>
    cases h
    obtain ⟨hlt, hname, -⟩ := List.findIdx?_eq_some_iff_getElem.1 hfound
    rw [List.getElem?_map, List.getElem?_eq_getElem hlt, Option.map_some, of_decide_eq_true hname]
  next => cases h

theorem resolveParams_eq_ok {pending : List (String × List String)} {params resolved : Params}
    (h : resolveParams order referrer pending params = .ok resolved) :
    ∃ entries, List.Forall₂ (fun asked found => asked.1 = found.1 ∧
        Indexes (order.map (·.name)) asked.2 found.2) pending entries ∧
      resolved.values = params.values.insertAll entries := by
  induction pending generalizing params with
  | nil =>
      cases h
      exact ⟨[], .nil, rfl⟩
  | cons asked rest ih =>
      obtain ⟨param, listed⟩ := asked
      obtain ⟨indices, hindices, h⟩ := bind_eq_ok h
      obtain ⟨entries, hentries, hvalues⟩ := ih h
      have hlisted : listed.map some = indices.map fun i => (order.map (·.name))[i]? := by
        refine map_eq_of_forall₂ ?_ (mapM_eq_ok hindices)
        exact fun _ _ hindex => (indexOf_eq_ok hindex).symm
      exact ⟨(param, indices.map Float.ofNat) :: entries,
        .cons ⟨rfl, indices, hlisted.symm, rfl⟩ hentries, hvalues⟩

theorem resolveFeeds_eq_ok {pending : List (String × NamedFeed)} {feeds resolved : Table String Feed}
    (h : resolveFeeds order referrer pending feeds = .ok resolved) :
    ∃ entries, List.Forall₂ (fun asked found => asked.1 = found.1 ∧
        Refers (order.map (·.name)) asked.2 found.2) pending entries ∧
      resolved = feeds.insertAll entries := by
  induction pending generalizing feeds with
  | nil =>
      cases h
      exact ⟨[], .nil, rfl⟩
  | cons asked rest ih =>
      obtain ⟨param, named⟩ := asked
      obtain ⟨source, hsource, h⟩ := bind_eq_ok h
      dsimp only at h
      split at h
      next => cases h
      next =>
        obtain ⟨entries, hentries, hfeeds⟩ := ih h
        exact ⟨(param, ⟨source, named.selection⟩) :: entries,
          .cons ⟨rfl, indexOf_eq_ok hsource, rfl⟩ hentries, hfeeds⟩

theorem resolveEntry_eq_ok {seed : Option UInt64} {entry : Entry ρ} {p : PartitionPlan}
    (h : resolveEntry seed order entry = .ok p) : entry.Planned (order.map (·.name)) seed p.tag := by
  obtain ⟨params, hparams, h⟩ := bind_eq_ok h
  obtain ⟨feeds, hfeeds, h⟩ := bind_eq_ok h
  cases h
  obtain ⟨values, hvalues, hset⟩ := resolveParams_eq_ok hparams
  obtain ⟨sources, hsources, rfl⟩ := resolveFeeds_eq_ok hfeeds
  have hget : ∀ param, params.get? param = (entry.params.values.insertAll values).get? param :=
    fun param => by rw [Params.get?, hset]
  constructor
  case name => rfl
  case owner => rfl
  case indexed =>
    intro param listed hlisted
    obtain ⟨found, hfound, hindexes⟩ :=
      Table.exists_get?_insertAll hvalues entry.params.values hlisted
    exact ⟨found, (hget param).trans hfound, hindexes⟩
  case plain =>
    exact fun param hnone =>
      (hget param).trans (Table.get?_insertAll_of_none hvalues entry.params.values hnone)
  case fed =>
    exact fun param named hnamed => Table.exists_get?_insertAll hsources ∅ hnamed
  case unfed =>
    exact fun param hnone => Table.get?_insertAll_of_none hsources ∅ hnone
  case initial => rfl
  case width => rfl
  case depth => rfl
  case derived =>
    rintro value rfl
    rfl
  case own =>
    rintro rfl
    rfl

end Registry

end Tandem
