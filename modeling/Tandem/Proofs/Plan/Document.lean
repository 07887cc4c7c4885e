import Tandem.Plan.Document
import Tandem.Proofs.Json.Schema

/-!
# Plans read back from their texts

Every part of a plan is read back from its document, but for the owners of params, which no document has and
which reading sets anew. Null stands for a double that is not finite and is not read as a double, so one such
double anywhere leaves the whole plan unread.
-/

namespace Tandem

open Json

/-! ## What a plan consists of -/

def Params.floats (params : Params) : List Float := params.values.values.flatten

def Feed.words (feed : Feed) : List Nat := feed.source :: feed.selection.getD []

namespace PartitionPlan

def floats (p : PartitionPlan) : List Float := p.initial ++ p.params.floats

def words (p : PartitionPlan) : List Nat := p.width :: p.depth :: p.feeds.values.flatMap Feed.words

end PartitionPlan

namespace Plan

def floats (plan : Plan) : List Float := plan.startTime :: plan.partitions.flatMap PartitionPlan.floats

def words (plan : Plan) : List Nat :=
  plan.timelineDepth :: (plan.groups.flatten ++ plan.partitions.flatMap PartitionPlan.words)

end Plan

/-- A double that is read back as itself. -/
def ReadsBack (x : Float) : Prop := x.isFinite = true ∧ (Numeral.ofFloat x).toFloat? = some x

/-! ## Lists of numbers -/

theorem list?_ofFloats {values : List Float} (h : ∀ x ∈ values, ReadsBack x) :
    (Doc.ofList .ofFloat values).list? Doc.float? = some values := by
  have hread : (Doc.ofList .ofFloat values).list? Doc.float? = some (values.map id) :=
    Doc.list?_ofList fun x hx => Doc.float?_ofFloat (h x hx).1 (h x hx).2
  rwa [List.map_id] at hread

theorem list?_ofFloats_eq_none {values : List Float} {x : Float} (hx : x ∈ values) (h : x.isFinite = false) :
    (Doc.ofList .ofFloat values).list? Doc.float? = none :=
  Doc.list?_ofList_eq_none hx (Doc.float?_ofFloat_of_not_finite h)

theorem list?_ofWords {values : List Nat} (h : ∀ n ∈ values, n < Word.count) :
    (Doc.ofList .ofNat values).list? Doc.word? = some values := by
  have hread : (Doc.ofList .ofNat values).list? Doc.word? = some (values.map id) :=
    Doc.list?_ofList fun n hn => Doc.word?_ofNat (h n hn)
  rwa [List.map_id] at hread

/-! ## Parts of a plan -/

namespace Feed

theorem spelled_toDoc (feed : Feed) : feed.toDoc.Spelled := by
  obtain ⟨source, selection⟩ := feed
  refine Doc.spelled_ofRecord (List.forall_mem_cons.2 ⟨Doc.spelled_ofNat source, ?_⟩)
  cases selection with
  | none => exact List.forall_mem_nil _
  | some indices => exact List.forall_mem_singleton.2 (Doc.spelled_ofList Doc.spelled_ofNat indices)

theorem ofDoc?_toDoc {feed : Feed} (h : ∀ n ∈ feed.words, n < Word.count) : ofDoc? feed.toDoc = some feed := by
  obtain ⟨source, selection⟩ := feed
  obtain ⟨hsource, hselection⟩ := List.forall_mem_cons.1 h
  cases selection with
  | none =>
      have hrecord : (toDoc ⟨source, none⟩).record? [⟨"upstream", true⟩, ⟨"indices", false⟩] =
          some [some (.ofNat source), none] := rfl
      simp only [ofDoc?, hrecord, Option.bind_eq_bind, Option.bind_some, Doc.field, Doc.word?_ofNat hsource]
      rfl
  | some indices =>
      have hrecord : (toDoc ⟨source, some indices⟩).record? [⟨"upstream", true⟩, ⟨"indices", false⟩] =
          some [some (.ofNat source), some (.ofList .ofNat indices)] := rfl
      have hindices : selection? (.ofList .ofNat indices) = some (some indices) :=
        congrArg (Option.map some) (list?_ofWords hselection)
      simp only [ofDoc?, hrecord, Option.bind_eq_bind, Option.bind_some, Doc.field, Doc.fieldOr,
        Doc.word?_ofNat hsource, hindices]
      rfl

end Feed

namespace Params

variable {params : Params}

theorem spelled_toDoc (params : Params) : params.toDoc.Spelled :=
  Doc.spelled_ofTable (Doc.spelled_ofList Doc.spelled_ofFloat) params.values

theorem ofDoc?_toDoc (h : ∀ x ∈ params.floats, ReadsBack x) : ofDoc? params.toDoc = some (params.withOwner "") := by
  have hvalues : ∀ values ∈ params.values.values, (Doc.ofList .ofFloat values).list? Doc.float? = some values :=
    fun values hvalues => list?_ofFloats fun x hx => h x (List.mem_flatten_of_mem hvalues hx)
  rw [ofDoc?, toDoc, Doc.table?_ofTable hvalues]
  rfl

theorem ofDoc?_toDoc_eq_none {x : Float} (hx : x ∈ params.floats) (h : x.isFinite = false) :
    ofDoc? params.toDoc = none := by
  obtain ⟨values, hvalues, hx⟩ := List.mem_flatten.1 hx
  rw [ofDoc?, toDoc, Doc.table?_ofTable_eq_none hvalues (list?_ofFloats_eq_none hx h)]
  rfl

end Params

namespace PartitionPlan

variable {p : PartitionPlan}

/-- A partition as it is read: its params have no owner yet. -/
def untagged (p : PartitionPlan) : PartitionPlan := { p with params := p.params.withOwner "" }

theorem spelled_toDoc (p : PartitionPlan) : p.toDoc.Spelled := by
  refine Doc.spelled_ofRecord ?_
  simp only [List.forall_mem_cons]
  exact ⟨Doc.spelled_ofString _, Params.spelled_toDoc _, Doc.spelled_ofTable Feed.spelled_toDoc _,
    Doc.spelled_ofList Doc.spelled_ofFloat _, Doc.spelled_ofNat _, Doc.spelled_ofNat _, Doc.spelled_ofNat _,
    List.forall_mem_nil _⟩

theorem record?_toDoc (p : PartitionPlan) :
    p.toDoc.record? fields = some [some (.ofString p.name), some p.params.toDoc, some (.ofTable Feed.toDoc p.feeds),
      some (.ofList .ofFloat p.initial), some (.ofNat p.seed.toNat), some (.ofNat p.width), some (.ofNat p.depth)] :=
  Doc.record?_of_names (by decide) rfl

theorem ofDoc?_toDoc (hfloats : ∀ x ∈ p.floats, ReadsBack x) (hwords : ∀ n ∈ p.words, n < Word.count) :
    ofDoc? p.toDoc = some p.untagged := by
  obtain ⟨hinitial, hparams⟩ := List.forall_mem_append.1 hfloats
  obtain ⟨hwidth, hdepth, hindices⟩ := by
    simpa only [words, List.forall_mem_cons] using hwords
  have hfeeds : (Doc.ofTable Feed.toDoc p.feeds).table? Feed.ofDoc? = some p.feeds :=
    Doc.table?_ofTable fun feed hfeed => Feed.ofDoc?_toDoc fun n hn =>
      hindices n (List.mem_flatMap.2 ⟨feed, hfeed, hn⟩)
  have hseed : (Doc.ofNat p.seed.toNat).word? = some p.seed.toNat := Doc.word?_ofNat p.seed.toNat_lt
  simp only [ofDoc?, record?_toDoc, Option.bind_eq_bind, Option.bind_some, Doc.field, Doc.fieldOr,
    Doc.string?_ofString, Params.ofDoc?_toDoc hparams, hfeeds, list?_ofFloats hinitial, hseed,
    Doc.word?_ofNat hwidth, Doc.word?_ofNat hdepth, UInt64.ofNat_toNat]
  rfl

theorem ofDoc?_toDoc_eq_none {x : Float} (hx : x ∈ p.floats) (h : x.isFinite = false) :
    ofDoc? p.toDoc = none := by
  simp only [ofDoc?, record?_toDoc, Option.bind_eq_bind, Option.bind_some, Doc.field, Doc.fieldOr,
    Doc.string?_ofString]
  rcases List.mem_append.1 hx with hx | hx
  · rw [list?_ofFloats_eq_none hx h]
    cases Params.ofDoc? p.params.toDoc with
    | none => rfl
    | some params => cases (Doc.ofTable Feed.toDoc p.feeds).table? Feed.ofDoc? <;> rfl
  · rw [Params.ofDoc?_toDoc_eq_none hx h]
    rfl

end PartitionPlan

/-! ## Plans -/

namespace Plan

variable {plan : Plan}

theorem record?_toDoc (plan : Plan) :
    plan.toDoc.record? fields = some [some (.ofList PartitionPlan.toDoc plan.partitions),
      some (.ofFloat plan.startTime), some (.ofNat plan.timelineDepth),
      some (.ofList (.ofList .ofNat) plan.groups)] :=
  Doc.record?_of_names (by decide) rfl

theorem ofDoc?_toDoc (hfloats : ∀ x ∈ plan.floats, ReadsBack x) (hwords : ∀ n ∈ plan.words, n < Word.count) :
    ofDoc? plan.toDoc = some { plan with partitions := plan.partitions.map PartitionPlan.untagged } := by
  obtain ⟨hstart, hparts⟩ := List.forall_mem_cons.1 hfloats
  obtain ⟨hdepth, hrest⟩ := List.forall_mem_cons.1 hwords
  obtain ⟨hgroups, hsizes⟩ := List.forall_mem_append.1 hrest
  have hpartitions : (Doc.ofList PartitionPlan.toDoc plan.partitions).list? PartitionPlan.ofDoc? =
      some (plan.partitions.map PartitionPlan.untagged) :=
    Doc.list?_ofList fun p hp => PartitionPlan.ofDoc?_toDoc
      (fun x hx => hparts x (List.mem_flatMap.2 ⟨p, hp, hx⟩))
      fun n hn => hsizes n (List.mem_flatMap.2 ⟨p, hp, hn⟩)
  have hlists : (Doc.ofList (.ofList .ofNat) plan.groups).list? (Doc.list? Doc.word?) =
      some (plan.groups.map id) :=
    Doc.list?_ofList fun group hgroup => list?_ofWords fun n hn => hgroups n (List.mem_flatten_of_mem hgroup hn)
  simp only [ofDoc?, record?_toDoc, Option.bind_eq_bind, Option.bind_some, Doc.field, Doc.fieldOr,
    hpartitions, Doc.float?_ofFloat hstart.1 hstart.2, Doc.word?_ofNat hdepth, hlists, List.map_id]
  rfl

theorem ofDoc?_toDoc_eq_none {x : Float} (hx : x ∈ plan.floats) (h : x.isFinite = false) :
    ofDoc? plan.toDoc = none := by
  simp only [ofDoc?, record?_toDoc, Option.bind_eq_bind, Option.bind_some, Doc.field, Doc.fieldOr]
  rcases List.mem_cons.1 hx with rfl | hx
  · rw [Doc.float?_ofFloat_of_not_finite h]
    cases (Doc.ofList PartitionPlan.toDoc plan.partitions).list? PartitionPlan.ofDoc? <;> rfl
  · obtain ⟨p, hp, hx⟩ := List.mem_flatMap.1 hx
    rw [Doc.list?_ofList_eq_none hp (PartitionPlan.ofDoc?_toDoc_eq_none hx h)]
    rfl

theorem spelled_toDoc (plan : Plan) : plan.toDoc.Spelled := by
  refine Doc.spelled_ofRecord ?_
  simp only [List.forall_mem_cons]
  exact ⟨Doc.spelled_ofList PartitionPlan.spelled_toDoc _, Doc.spelled_ofFloat _, Doc.spelled_ofNat _,
    Doc.spelled_ofList (Doc.spelled_ofList Doc.spelled_ofNat) _, List.forall_mem_nil _⟩

theorem parse?_toText (plan : Plan) : Doc.parse? plan.toText = some plan.toDoc :=
  Doc.parse?_indented plan.spelled_toDoc

theorem tag_untagged (plan : Plan) :
    tag { plan with partitions := plan.partitions.map PartitionPlan.untagged } = plan.tag := by
  simp only [tag, List.map_map]
  rfl

theorem tag_eq_self (h : ∀ p ∈ plan.partitions, p.params.owner = p.name) : plan.tag = plan := by
  have hsame : ∀ p ∈ plan.partitions, p.tag = p := by
    intro p hp
    have howner : p.params.withOwner p.name = p.params := by
      rw [← h p hp]
      rfl
    rw [PartitionPlan.tag, howner]
  have hpartitions : plan.partitions.map PartitionPlan.tag = plan.partitions :=
    (List.map_congr_left hsame).trans (List.map_id' _)
  rw [tag, hpartitions]

/-- Every plan has a text, which is read exactly if all doubles of the plan are finite. Given that sizes and
indices are words and that each double is read as itself, it is read as the plan with every partition the owner
of its params. -/
theorem text_reads_back_exactly_if_finite (plan : Plan) :
    ((∀ x ∈ plan.floats, x.isFinite = true) → (∀ n ∈ plan.words, n < Word.count) →
      (∀ x ∈ plan.floats, (Numeral.ofFloat x).toFloat? = some x) →
        ofText plan.toText = .ok plan.tag ∧
          ((∀ p ∈ plan.partitions, p.params.owner = p.name) → ofText plan.toText = .ok plan)) ∧
      ((∃ x ∈ plan.floats, x.isFinite = false) →
        ofText plan.toText = .error (.invalid (.planText "not the document of a plan"))) := by
  refine ⟨fun hfinite hwords hreads => ?_, ?_⟩
  · have hread : ofDoc? plan.toDoc = _ := ofDoc?_toDoc (fun x hx => ⟨hfinite x hx, hreads x hx⟩) hwords
    have htext : ofText plan.toText = .ok plan.tag := by
      rw [ofText, parse?_toText]
      simp only [hread, tag_untagged]
    exact ⟨htext, fun howners => by rw [htext, tag_eq_self howners]⟩
  · rintro ⟨x, hx, h⟩
    rw [ofText, parse?_toText]
    simp only [ofDoc?_toDoc_eq_none hx h]

/-- A plan with a selection, a group and names that need quoting. -/
def writtenPlan : Plan where
  partitions := [⟨"first \"one\"", (Params.ofList [("gain\n", [0.5, -2])]).withOwner "first \"one\"",
    .ofList [("input", ⟨1, some [0]⟩)], [1.5], 7, 1, 2⟩, ⟨"second", Params.empty.withOwner "second", ∅, [0], 0, 1, 1⟩]
  startTime := 0
  timelineDepth := 1
  groups := [[1], [0]]

theorem writtenPlan_reads_back :
    ofText writtenPlan.toText = .ok writtenPlan ∧
      ofText { writtenPlan with startTime := 0 / 0 }.toText =
        .error (.invalid (.planText "not the document of a plan")) := by
  obtain ⟨hread, -⟩ := text_reads_back_exactly_if_finite writtenPlan
  obtain ⟨-, hfails⟩ := text_reads_back_exactly_if_finite { writtenPlan with startTime := 0 / 0 }
  refine ⟨(hread (by decide +kernel) (by decide +kernel) (by decide +kernel)).2 (by decide +kernel), ?_⟩
  exact hfails ⟨0 / 0, List.mem_cons_self, by decide +kernel⟩

end Plan

end Tandem
