import Tandem.Json.Token

/-!
# Documents

A document is a tree of values. `Doc.tokens` lists its tokens in order; `Doc.ofTokens?` rebuilds the tree
with a stack of half-finished lists and objects, so that nesting of any depth is read in one pass.
-/

namespace Tandem.Json

/-- A value of a document. An object keeps all its members in order, repeated names included. -/
inductive Doc where
  | null
  | bool (value : Bool)
  | num (numeral : Numeral)
  | str (text : Text)
  | arr (items : List Doc)
  | obj (members : List (Text × Doc))

namespace Doc

mutual

def tokens : Doc → List Token
  | null => [.null]
  | bool value => [.bool value]
  | num numeral => [.num numeral]
  | str text => [.str text]
  | arr items => .openBracket :: itemTokens items
  | obj members => .openBrace :: memberTokens members

def itemTokens : List Doc → List Token
  | [] => [.closeBracket]
  | [item] => item.tokens ++ [.closeBracket]
  | item :: items => item.tokens ++ .comma :: itemTokens items

def memberTokens : List (Text × Doc) → List Token
  | [] => [.closeBrace]
  | [(name, value)] => .str name :: .colon :: value.tokens ++ [.closeBrace]
  | (name, value) :: members => .str name :: .colon :: value.tokens ++ .comma :: memberTokens members

end

/-! ## Reading -/

/-- A half-finished list or object; what is finished of it is in reverse order. -/
inductive Frame where
  | items (done : List Doc)
  | members (done : List (Text × Doc))
  /-- An object whose member `name` waits for its value. -/
  | member (done : List (Text × Doc)) (name : Text)

inductive Mode where
  | value
  | valueOrEnd
  /-- A comma, or the end of the list or object on top of the stack. -/
  | separator
  | name
  | nameOrEnd
  | colon
  | finished (doc : Doc)

structure Reading where
  mode : Mode
  stack : List Frame

/-- Hand a finished value to whatever waits for it. -/
def deliver (doc : Doc) : List Frame → Option Reading
  | [] => some ⟨.finished doc, []⟩
  | .items done :: stack => some ⟨.separator, .items (doc :: done) :: stack⟩
  | .member done name :: stack => some ⟨.separator, .members ((name, doc) :: done) :: stack⟩
  | .members _ :: _ => none

def takeValue (token : Token) (stack : List Frame) : Option Reading :=
  match token with
  | .null => deliver .null stack
  | .bool value => deliver (.bool value) stack
  | .num numeral => deliver (.num numeral) stack
  | .str text => deliver (.str text) stack
  | .openBracket => some ⟨.valueOrEnd, .items [] :: stack⟩
  | .openBrace => some ⟨.nameOrEnd, .members [] :: stack⟩
  | _ => none

def Reading.take (reading : Reading) (token : Token) : Option Reading :=
  match reading.mode, token, reading.stack with
  | .value, token, stack => takeValue token stack
  | .valueOrEnd, .closeBracket, .items done :: stack => deliver (.arr done.reverse) stack
  | .valueOrEnd, token, stack => takeValue token stack
  | .separator, .comma, .items done :: stack => some ⟨.value, .items done :: stack⟩
  | .separator, .comma, .members done :: stack => some ⟨.name, .members done :: stack⟩
  | .separator, .closeBracket, .items done :: stack => deliver (.arr done.reverse) stack
  | .separator, .closeBrace, .members done :: stack => deliver (.obj done.reverse) stack
  | .name, .str name, .members done :: stack => some ⟨.colon, .member done name :: stack⟩
  | .nameOrEnd, .str name, .members done :: stack => some ⟨.colon, .member done name :: stack⟩
  | .nameOrEnd, .closeBrace, .members done :: stack => deliver (.obj done.reverse) stack
  | .colon, .colon, stack => some ⟨.value, stack⟩
  | _, _, _ => none

def ofTokens? (tokens : List Token) : Option Doc :=
  match tokens.foldlM Reading.take ⟨.value, []⟩ with
  | some ⟨.finished doc, []⟩ => some doc
  | _ => none

def parse? (text : String) : Option Doc := Token.scan text >>= ofTokens?

end Doc

end Tandem.Json
