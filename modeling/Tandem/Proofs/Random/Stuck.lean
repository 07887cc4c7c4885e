import Mathlib.Algebra.GroupWithZero.Nat
import Tandem.Documents
import Tandem.Proofs.Json.Schema
import Tandem.Proofs.Random.Mixing

/-!
# Streams stuck at 0

A stream comes from a seed or is read from a text. No seed stands for the word 0, but the document of a text
may tell 0, and its word is taken as it is. Whatever a stream is then used for, it moves on by some draws of
words, and these lead neither to 0 nor away from it. So the streams stuck at 0 are those that were read as 0.
-/

namespace Tandem.RandomStream

open Json

variable {doc : Doc} {stream : RandomStream}

/-! ## Documents of streams -/

def Tells (text : String) (word : UInt64) : Prop :=
  ∃ doc value, Doc.parse? text = some doc ∧ doc.record? [⟨"state", true⟩] = some [some value] ∧
    value.word? = some word.toNat

theorem ofDoc?_eq_some_iff :
    ofDoc? doc = some stream ↔
      ∃ value, doc.record? [⟨"state", true⟩] = some [some value] ∧ value.word? = some stream.word.toNat := by
  constructor
  · intro h
    obtain ⟨fields, hfields, hread⟩ := Option.bind_eq_some_iff.1 h
    split at hread
    next field =>
      obtain ⟨n, hfield, hword⟩ := Option.bind_eq_some_iff.1 hread
      obtain ⟨value, rfl, hvalue⟩ := Option.bind_eq_some_iff.1 hfield
      cases hword
      refine ⟨value, hfields, ?_⟩
      rw [UInt64.toNat_ofNat_of_lt' (Doc.lt_count_of_word? hvalue), hvalue]
    next => cases hread
  · rintro ⟨value, hfields, hvalue⟩
    simp only [ofDoc?, hfields, Option.bind_eq_bind, Option.bind_some, Doc.field, hvalue, UInt64.ofNat_toNat]
    rfl

theorem ofText?_eq_some_iff {text : String} : ofText? text = some stream ↔ Tells text stream.word := by
  constructor
  · intro h
    obtain ⟨doc, hdoc, h⟩ := Option.bind_eq_some_iff.1 h
    obtain ⟨value, hfields, hvalue⟩ := ofDoc?_eq_some_iff.1 h
    exact ⟨doc, value, hdoc, hfields, hvalue⟩
  · rintro ⟨doc, value, hdoc, hfields, hvalue⟩
    exact Option.bind_eq_some_iff.2 ⟨doc, hdoc, ofDoc?_eq_some_iff.2 ⟨value, hfields, hvalue⟩⟩

theorem tells_toText (stream : RandomStream) : Tells stream.toText stream.word := by
  refine ⟨stream.toDoc, .ofNat stream.word.toNat, ?_, ?_, Doc.word?_ofNat stream.word.toNat_lt⟩
  · exact Doc.parse?_compact (Doc.spelled_ofRecord (List.forall_mem_singleton.2 (Doc.spelled_ofNat _)))
  · exact Doc.record?_of_names (by decide) rfl

theorem ofText?_toText (stream : RandomStream) : ofText? stream.toText = some stream :=
  ofText?_eq_some_iff.2 (tells_toText stream)

/-! ## Uses of a stream -/

/-- What a stream can be used for: one draw of some kind, or to be stored. -/
inductive Use where
  | next
  | uniform
  | normal
  | exponential (mean : Float)
  /-- To write it as a text and go on with what is read from that. -/
  | restore

namespace Use

/-- The stream that a use leaves. A draw that crashes has drawn nothing. -/
def leave? (stream : RandomStream) : Use → Option RandomStream
  | next => some stream.next.2
  | uniform => some stream.uniform.2
  | normal => some stream.normal.2
  | exponential mean =>
      match stream.exponential mean with
      | .ok (_, later) => some later
      | .error _ => some stream
  | restore => ofText? stream.toText

def words : Use → Nat
  | next => 1
  | uniform => 1
  | normal => 2
  | exponential mean => if 0 < mean then 1 else 0
  | restore => 0

theorem leave?_eq (use : Use) (stream : RandomStream) :
    use.leave? stream = some (stream.after use.words) := by
  cases use with
  | next => rfl
  | uniform => rfl
  | normal => rfl
  | exponential mean =>
      by_cases hmean : 0 < mean
      · simp only [leave?, RandomStream.exponential, words, if_pos hmean]
        rfl
      · simp only [leave?, RandomStream.exponential, words, if_neg hmean]
        rfl
  | restore => exact ofText?_toText stream

theorem foldlM_leave?_eq (uses : List Use) (stream : RandomStream) :
    uses.foldlM leave? stream = some (stream.after (uses.map words).sum) := by
  induction uses generalizing stream with
  | nil => rfl
  | cons use uses ih =>
      rw [List.foldlM_cons, leave?_eq, List.map_cons, List.sum_cons, after_add]
      exact ih (stream.after use.words)

end Use

/-! ## Origins of streams -/

inductive Origin where
  | seed (seed : UInt64)
  | text (text : String)

namespace Origin

def stream? : Origin → Option RandomStream
  | seed s => some (ofSeed s)
  | text t => ofText? t

def TellsZero : Origin → Prop
  | seed _ => False
  | text t => Tells t 0

theorem word_eq_zero_iff {origin : Origin} (h : origin.stream? = some stream) :
    stream.word = 0 ↔ origin.TellsZero := by
  cases origin with
  | seed seed =>
      cases h
      exact iff_false_intro (word_ofSeed_ne_zero seed)
  | text text =>
      have hread : ofText? text = some stream := h
      constructor
      · intro hzero
        have htold : Tells text stream.word := ofText?_eq_some_iff.1 hread
        rwa [hzero] at htold
      · intro hzero
        have hstuck : ofText? text = some ⟨0⟩ := ofText?_eq_some_iff.2 hzero
        rw [hread] at hstuck
        cases hstuck
        rfl

end Origin

/-- However a stream came about and is used, there is a stream to go on with. It is at 0 after any number of
draws, and draws 0, exactly if it comes from a text that tells 0. -/
theorem stuck_exactly_if_read_as_zero (stream : RandomStream) :
    (∀ seed, (Origin.seed seed).stream? = some stream ↔ stream = ofSeed seed) ∧
      (∀ text, (Origin.text text).stream? = some stream ↔ Tells text stream.word) ∧
      Tells stream.toText stream.word ∧
      ∀ origin : Origin, origin.stream? = some stream → ∀ uses : List Use,
        ∃ later, uses.foldlM Use.leave? stream = some later ∧
          ∀ n, ((later.after n).word = 0 ↔ origin.TellsZero) ∧ (later.draw n = 0 ↔ origin.TellsZero) := by
  have hseeds : ∀ seed, (Origin.seed seed).stream? = some stream ↔ stream = ofSeed seed :=
    fun seed => Option.some_inj.trans eq_comm
  refine ⟨hseeds, fun text => ofText?_eq_some_iff, tells_toText stream, fun origin h uses => ?_⟩
  refine ⟨_, Use.foldlM_leave?_eq uses stream, fun n => ?_⟩
  have hword : (stream.after (uses.map Use.words).sum).word = 0 ↔ origin.TellsZero :=
    word_after_eq_zero_iff.trans (Origin.word_eq_zero_iff h)
  exact ⟨word_after_eq_zero_iff.trans hword, draw_eq_zero_iff.trans hword⟩

def zeroText : String := "\x7b\"state\":0\x7d"

/-- Its stream draws 0 for ever, where the stream of the seed 0 never does. -/
theorem zeroText_is_stuck :
    (Origin.text zeroText).stream? = some ⟨0⟩ ∧
      (∃ later, [.next, .normal, .restore].foldlM Use.leave? ⟨0⟩ = some later ∧ ∀ n, later.draw n = 0) ∧
      (Origin.seed 0).stream? = some (ofSeed 0) ∧
      ∃ later, [.next, .normal, .restore].foldlM Use.leave? (ofSeed 0) = some later ∧ ∀ n, later.draw n ≠ 0 := by
  obtain ⟨-, htexts, htold, hstuck⟩ := stuck_exactly_if_read_as_zero ⟨0⟩
  obtain ⟨hseeds, -, -, hmoving⟩ := stuck_exactly_if_read_as_zero (ofSeed 0)
  have htext : zeroText = (⟨0⟩ : RandomStream).toText := by decide +kernel
  have hzero : Tells zeroText 0 := htext ▸ htold
  have hread : (Origin.text zeroText).stream? = some ⟨0⟩ := (htexts zeroText).2 hzero
  have hseed : (Origin.seed 0).stream? = some (ofSeed 0) := (hseeds 0).2 rfl
  obtain ⟨later, hlater, hdraws⟩ := hstuck _ hread [.next, .normal, .restore]
  obtain ⟨other, hother, hnever⟩ := hmoving _ hseed [.next, .normal, .restore]
  exact ⟨hread, ⟨later, hlater, fun n => (hdraws n).2.2 hzero⟩, hseed, other, hother,
    fun n => (hnever n).2.1⟩

end Tandem.RandomStream
