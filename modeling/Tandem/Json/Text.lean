import Tandem.Json.Doc

/-!
# Texts of documents

Two ways to write a document: compact, without any blank, and indented, with one item or member a line.
Both write the same tokens.
-/

namespace Tandem.Json

/-- A part of a written document: a token, or blanks that mean nothing. -/
inductive Piece where
  | token (token : Token)
  | space
  | line (level : Nat)

namespace Piece

def text : Piece → String
  | token t => t.text
  | space => " "
  | line level => "\n" ++ "".pushn ' ' (2 * level)

def join (pieces : List Piece) : String := String.join (pieces.map text)

end Piece

namespace Doc

def compact (doc : Doc) : String := Piece.join (doc.tokens.map .token)

mutual

/-- The parts of a value, indented. Lists and objects without content stay on one line. -/
def pieces (level : Nat) : Doc → List Piece
  | arr items => .token .openBracket :: itemPieces level true items
  | obj members => .token .openBrace :: memberPieces level true members
  | null => [.token .null]
  | bool value => [.token (.bool value)]
  | num numeral => [.token (.num numeral)]
  | str text => [.token (.str text)]

def itemPieces (level : Nat) (first : Bool) : List Doc → List Piece
  | [] => (if first then [] else [.line level]) ++ [.token .closeBracket]
  | item :: items =>
      (if first then [.line (level + 1)] else [.token .comma, .line (level + 1)]) ++
        pieces (level + 1) item ++ itemPieces level false items

def memberPieces (level : Nat) (first : Bool) : List (Text × Doc) → List Piece
  | [] => (if first then [] else [.line level]) ++ [.token .closeBrace]
  | (name, value) :: members =>
      (if first then [.line (level + 1)] else [.token .comma, .line (level + 1)]) ++
        [.token (.str name), .token .colon, .space] ++
        pieces (level + 1) value ++ memberPieces level false members

end

def indented (doc : Doc) : String := Piece.join (doc.pieces 0)

end Doc

end Tandem.Json
