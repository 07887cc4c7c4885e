import Tandem.Proofs.Json.Text

/-!
# Documents read back

The tokens of a value, read where a value is expected, hand that value to whatever waits for it. Indenting
puts blanks between the tokens and changes none of them. So a document whose numerals have texts is read
back from its compact and from its indented text.
-/

namespace Tandem.Json.Doc

/-- Induction over a document, its lists and its objects item by item. -/
@[elab_as_elim]
theorem induct {motive : Doc → Prop} (null : motive .null) (bool : ∀ value, motive (.bool value))
    (num : ∀ numeral, motive (.num numeral)) (str : ∀ text, motive (.str text))
    (arr : ∀ items, (∀ item ∈ items, motive item) → motive (.arr items))
    (obj : ∀ members, (∀ member ∈ members, motive member.2) → motive (.obj members)) (doc : Doc) :
    motive doc :=
  @Doc.rec motive (fun items => ∀ item ∈ items, motive item) (fun members => ∀ member ∈ members, motive member.2)
    (fun member => motive member.2) null bool num str arr obj (List.forall_mem_nil _)
    (fun _ _ hitem hitems => List.forall_mem_cons.2 ⟨hitem, hitems⟩) (List.forall_mem_nil _)
    (fun _ _ hmember hmembers => List.forall_mem_cons.2 ⟨hmember, hmembers⟩) (fun _ _ hvalue => hvalue) doc

theorem itemTokens_cons_cons (item next : Doc) (items : List Doc) :
    itemTokens (item :: next :: items) = item.tokens ++ .comma :: itemTokens (next :: items) := rfl

theorem memberTokens_cons_cons (member next : Text × Doc) (members : List (Text × Doc)) :
    memberTokens (member :: next :: members) =
      .str member.1 :: .colon :: member.2.tokens ++ .comma :: memberTokens (next :: members) := rfl

/-! ## Reading tokens -/

/-- Where a value is expected, the tokens of `doc` hand it to what waits for it. -/
def Reads (doc : Doc) : Prop :=
  ∀ stack rest, (doc.tokens ++ rest).foldlM Reading.take ⟨.value, stack⟩ =
    deliver doc stack >>= rest.foldlM Reading.take

theorem exists_tokens (doc : Doc) : ∃ t ts, doc.tokens = t :: ts ∧ t ≠ .closeBracket := by
  cases doc <;> exact ⟨_, _, rfl, nofun⟩

theorem exists_itemTokens (item : Doc) (items : List Doc) :
    ∃ t ts, itemTokens (item :: items) = t :: ts ∧ t ≠ .closeBracket := by
  obtain ⟨t, ts, htokens, ht⟩ := exists_tokens item
  cases items with
  | nil => exact ⟨t, ts ++ [.closeBracket], by rw [itemTokens, htokens, List.cons_append], ht⟩
  | cons next items =>
      refine ⟨t, ts ++ .comma :: itemTokens (next :: items), ?_, ht⟩
      rw [itemTokens_cons_cons, htokens, List.cons_append]

theorem take_valueOrEnd {t : Token} (h : t ≠ .closeBracket) (stack : List Frame) :
    Reading.take ⟨.valueOrEnd, stack⟩ t = Reading.take ⟨.value, stack⟩ t := by
  cases t <;> first | rfl | exact absurd rfl h

theorem foldlM_itemTokens {items : List Doc} {item : Doc} (hitem : item.Reads)
    (hitems : ∀ item ∈ items, item.Reads) (done : List Doc) (stack : List Frame) (rest : List Token) :
    (itemTokens (item :: items) ++ rest).foldlM Reading.take ⟨.value, .items done :: stack⟩ =
      deliver (.arr (done.reverse ++ item :: items)) stack >>= rest.foldlM Reading.take := by
  induction items generalizing item done with
  | nil =>
      rw [itemTokens, List.append_assoc, hitem, ← List.reverse_cons]
      rfl
  | cons next items ih =>
      obtain ⟨hnext, hrest⟩ := List.forall_mem_cons.1 hitems
      have hlater := ih hnext hrest (item :: done)
      rw [List.reverse_cons, List.append_assoc] at hlater
      rw [itemTokens_cons_cons, List.append_assoc, hitem]
      exact hlater

theorem foldlM_memberTokens {members : List (Text × Doc)} {member : Text × Doc} (hmember : member.2.Reads)
    (hmembers : ∀ member ∈ members, member.2.Reads) (done : List (Text × Doc)) (stack : List Frame)
    (rest : List Token) :
    (memberTokens (member :: members) ++ rest).foldlM Reading.take ⟨.name, .members done :: stack⟩ =
      deliver (.obj (done.reverse ++ member :: members)) stack >>= rest.foldlM Reading.take := by
  induction members generalizing member done with
  | nil =>
      have hvalue := hmember (.member done member.1 :: stack) (.closeBrace :: rest)
      rw [memberTokens, List.append_assoc, ← List.reverse_cons]
      exact hvalue
  | cons next members ih =>
      obtain ⟨hnext, hrest⟩ := List.forall_mem_cons.1 hmembers
      have hvalue := hmember (.member done member.1 :: stack) (.comma :: memberTokens (next :: members) ++ rest)
      have hlater := ih hnext hrest (member :: done)
      rw [List.reverse_cons, List.append_assoc] at hlater
      rw [memberTokens_cons_cons, List.append_assoc]
      exact hvalue.trans hlater

theorem reads (doc : Doc) : doc.Reads := by
  induction doc using induct with
  | null => exact fun _ _ => rfl
  | bool value => exact fun _ _ => rfl
  | num numeral => exact fun _ _ => rfl
  | str text => exact fun _ _ => rfl
  | arr items ih =>
      intro stack rest
      cases items with
      | nil => rfl
      | cons item items =>
          obtain ⟨hitem, hitems⟩ := List.forall_mem_cons.1 ih
          have hread := foldlM_itemTokens hitem hitems [] stack rest
          obtain ⟨t, ts, htokens, ht⟩ := exists_itemTokens item items
          rw [htokens, List.cons_append, List.foldlM_cons, ← take_valueOrEnd ht] at hread
          rw [tokens, htokens]
          exact hread
  | obj members ih =>
      intro stack rest
      cases members with
      | nil => rfl
      | cons member members =>
          obtain ⟨hvalue, hmembers⟩ := List.forall_mem_cons.1 ih
          have hread := foldlM_memberTokens hvalue hmembers [] stack rest
          cases members <;> exact hread

theorem ofTokens?_tokens (doc : Doc) : ofTokens? doc.tokens = some doc := by
  have hread := doc.reads [] []
  rw [List.append_nil] at hread
  rw [ofTokens?, hread]
  rfl

/-! ## Tokens of a text -/

/-- The parts of a value have its tokens, at every level. -/
def Indents (doc : Doc) : Prop := ∀ level, Piece.tokens (doc.pieces level) = doc.tokens

theorem tokens_itemPieces {items : List Doc} {item : Doc} (hitem : item.Indents)
    (hitems : ∀ item ∈ items, item.Indents) (level : Nat) (first : Bool) :
    Piece.tokens (itemPieces level first (item :: items)) =
      (if first then [] else [.comma]) ++ itemTokens (item :: items) := by
  induction items generalizing item first with
  | nil =>
      rw [itemPieces, Piece.tokens_append, Piece.tokens_append, hitem, itemTokens]
      cases first <;> rfl
  | cons next items ih =>
      obtain ⟨hnext, hrest⟩ := List.forall_mem_cons.1 hitems
      have hlater := ih hnext hrest false
      rw [itemPieces, Piece.tokens_append, Piece.tokens_append, hitem, hlater, itemTokens_cons_cons,
        List.append_assoc]
      cases first <;> rfl

theorem tokens_memberPieces {members : List (Text × Doc)} {member : Text × Doc} (hmember : member.2.Indents)
    (hmembers : ∀ member ∈ members, member.2.Indents) (level : Nat) (first : Bool) :
    Piece.tokens (memberPieces level first (member :: members)) =
      (if first then [] else [.comma]) ++ memberTokens (member :: members) := by
  induction members generalizing member first with
  | nil =>
      rw [memberPieces, Piece.tokens_append, Piece.tokens_append, hmember, memberTokens]
      cases first <;> rfl
  | cons next members ih =>
      obtain ⟨hnext, hrest⟩ := List.forall_mem_cons.1 hmembers
      have hlater := ih hnext hrest false
      rw [memberPieces, Piece.tokens_append, Piece.tokens_append, hmember, hlater,
        memberTokens_cons_cons, List.append_assoc]
      cases first <;> rfl

theorem indents (doc : Doc) : doc.Indents := by
  induction doc using induct with
  | null => exact fun _ => rfl
  | bool value => exact fun _ => rfl
  | num numeral => exact fun _ => rfl
  | str text => exact fun _ => rfl
  | arr items ih =>
      intro level
      cases items with
      | nil => rfl
      | cons item items =>
          obtain ⟨hitem, hitems⟩ := List.forall_mem_cons.1 ih
          exact congrArg (_ :: ·) (tokens_itemPieces hitem hitems level true)
  | obj members ih =>
      intro level
      cases members with
      | nil => rfl
      | cons member members =>
          obtain ⟨hmember, hmembers⟩ := List.forall_mem_cons.1 ih
          exact congrArg (_ :: ·) (tokens_memberPieces hmember hmembers level true)

/-! ## Tokens side by side -/

theorem apart_itemTokens {items : List Doc} (h : ∀ item ∈ items, Token.Apart item.tokens) : Token.Apart (itemTokens items) := by
  induction items with
  | nil => exact Token.apart_cons rfl .nil
  | cons item items ih =>
      obtain ⟨hitem, hitems⟩ := List.forall_mem_cons.1 h
      cases items with
      | nil => exact Token.apart_append rfl hitem .nil
      | cons next items => exact Token.apart_append rfl hitem (ih hitems)

theorem apart_memberTokens {members : List (Text × Doc)} (h : ∀ member ∈ members, Token.Apart member.2.tokens) :
    Token.Apart (memberTokens members) := by
  induction members with
  | nil => exact Token.apart_cons rfl .nil
  | cons member members ih =>
      obtain ⟨hmember, hmembers⟩ := List.forall_mem_cons.1 h
      cases members with
      | nil => exact Token.apart_cons rfl (Token.apart_cons rfl (Token.apart_append rfl hmember .nil))
      | cons next members => exact Token.apart_cons rfl (Token.apart_cons rfl (Token.apart_append rfl hmember (ih hmembers)))

theorem apart_tokens (doc : Doc) : Token.Apart doc.tokens := by
  induction doc using induct with
  | null => exact .singleton _
  | bool value => exact .singleton _
  | num numeral => exact .singleton _
  | str text => exact .singleton _
  | arr items ih => exact Token.apart_cons rfl (apart_itemTokens ih)
  | obj members ih => exact Token.apart_cons rfl (apart_memberTokens ih)

/-! ## Whole documents -/

/-- A document whose numerals have texts. -/
def Spelled (doc : Doc) : Prop := ∀ t ∈ doc.tokens, t.Spelled

theorem spelled_itemTokens {items : List Doc} (h : ∀ item ∈ items, item.Spelled) :
    ∀ t ∈ itemTokens items, t.Spelled := by
  induction items with
  | nil => exact List.forall_mem_singleton.2 trivial
  | cons item items ih =>
      obtain ⟨hitem, hitems⟩ := List.forall_mem_cons.1 h
      cases items with
      | nil => exact List.forall_mem_append.2 ⟨hitem, List.forall_mem_singleton.2 trivial⟩
      | cons next items =>
          exact List.forall_mem_append.2 ⟨hitem, List.forall_mem_cons.2 ⟨trivial, ih hitems⟩⟩

theorem spelled_memberTokens {members : List (Text × Doc)} (h : ∀ member ∈ members, member.2.Spelled) :
    ∀ t ∈ memberTokens members, t.Spelled := by
  induction members with
  | nil => exact List.forall_mem_singleton.2 trivial
  | cons member members ih =>
      obtain ⟨hmember, hmembers⟩ := List.forall_mem_cons.1 h
      have hname : ∀ t ∈ [.str member.1, .colon], Token.Spelled t :=
        List.forall_mem_cons.2 ⟨trivial, List.forall_mem_singleton.2 trivial⟩
      have hvalue : ∀ t ∈ [.str member.1, .colon] ++ member.2.tokens, t.Spelled :=
        List.forall_mem_append.2 ⟨hname, hmember⟩
      cases members with
      | nil => exact List.forall_mem_append.2 ⟨hvalue, List.forall_mem_singleton.2 trivial⟩
      | cons next members =>
          exact List.forall_mem_append.2 ⟨hvalue, List.forall_mem_cons.2 ⟨trivial, ih hmembers⟩⟩

theorem spelled_arr {items : List Doc} (h : ∀ item ∈ items, item.Spelled) : (arr items).Spelled :=
  List.forall_mem_cons.2 ⟨trivial, spelled_itemTokens h⟩

theorem spelled_obj {members : List (Text × Doc)} (h : ∀ member ∈ members, member.2.Spelled) :
    (obj members).Spelled :=
  List.forall_mem_cons.2 ⟨trivial, spelled_memberTokens h⟩

theorem parse?_join {doc : Doc} (h : doc.Spelled) {pieces : List Piece}
    (htokens : Piece.tokens pieces = doc.tokens) : parse? (Piece.join pieces) = some doc := by
  have hscan := Piece.scan_join (htokens ▸ h) (htokens ▸ apart_tokens doc)
  rw [parse?, hscan, htokens]
  exact ofTokens?_tokens doc

theorem parse?_compact {doc : Doc} (h : doc.Spelled) : parse? doc.compact = some doc := by
  refine parse?_join h ?_
  rw [Piece.tokens, List.filterMap_map]
  exact List.filterMap_some

theorem parse?_indented {doc : Doc} (h : doc.Spelled) : parse? doc.indented = some doc :=
  parse?_join h (doc.indents 0)

end Tandem.Json.Doc
