import Tandem.Json.Token

/-!
# Run identifiers

A run is identified by 128 bits, written as 32 hexadecimal digits in five parts. They are read in that
form, in braces, after a resource name in either case, or as 32 digits in one part.
-/

namespace Tandem

/-- A 128-bit identifier, as its hexadecimal digits. -/
structure RunId where
  digits : List Nat
  deriving DecidableEq, Repr

namespace RunId

def zero : RunId := ⟨List.replicate 32 0⟩

def parts : List Nat := [8, 4, 4, 4, 12]

def cut : List Nat → List Char → List (List Char)
  | [], _ => []
  | length :: lengths, cs => cs.take length :: cut lengths (cs.drop length)

def text (id : RunId) : String :=
  "-".intercalate ((cut parts (id.digits.map Json.hexDigit)).map String.ofList)

def ofPlain? (cs : List Char) : Option RunId :=
  if cs.length = 32 then (cs.mapM Json.hexValue?).map RunId.mk else none

def joinParts : List Nat → List Char → Option (List Char)
  | [], cs => if cs.isEmpty then some [] else none
  | [length], cs => if cs.length = length then some cs else none
  | length :: lengths, cs =>
      match cs.drop length with
      | '-' :: rest => (joinParts lengths rest).map (cs.take length ++ ·)
      | _ => none

def ofHyphenated? (cs : List Char) : Option RunId := joinParts parts cs >>= ofPlain?

def ofText? (s : String) : Option RunId :=
  let cs := s.toList
  if cs.length = 32 then ofPlain? cs
  else if cs.length = 36 then ofHyphenated? cs
  else if cs.length = 38 ∧ cs.head? = some '\x7b' ∧ cs.getLast? = some '\x7d' then
    ofHyphenated? ((cs.drop 1).dropLast)
  else if cs.length = 45 ∧ (cs.take 9).map Char.toLower = "urn:uuid:".toList then
    ofHyphenated? (cs.drop 9)
  else none

end RunId

end Tandem
