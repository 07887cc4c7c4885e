import Tandem.Json.Numeral

/-!
# Tokens of documents

The text of a document is a sequence of tokens with blanks between them. `Token.scan` splits a text into
its tokens, `Token.text` writes one token; quoting and its inverse work on characters and code units.
-/

namespace Tandem.Json

/-- The content of a quoted string; `none` if its escapes leave half of a surrogate pair alone. -/
abbrev Text := Option String

inductive Token where
  | openBrace
  | closeBrace
  | openBracket
  | closeBracket
  | colon
  | comma
  | null
  | bool (value : Bool)
  | num (numeral : Numeral)
  | str (text : Text)
  deriving DecidableEq, Repr

/-! ## Quoted strings -/

def hexValue? (c : Char) : Option Nat :=
  if c.isDigit then some (c.toNat - '0'.toNat)
  else if 'a' ≤ c ∧ c ≤ 'f' then some (c.toNat - 'a'.toNat + 10)
  else if 'A' ≤ c ∧ c ≤ 'F' then some (c.toNat - 'A'.toNat + 10)
  else none

def codeUnit? (a b c d : Char) : Option Nat := do
  let a ← hexValue? a
  let b ← hexValue? b
  let c ← hexValue? c
  let d ← hexValue? d
  pure (((a * 16 + b) * 16 + c) * 16 + d)

def escapedChar? : Char → Option Char
  | '"' => some '"'
  | '\\' => some '\\'
  | '/' => some '/'
  | 'b' => some '\x08'
  | 'f' => some '\x0c'
  | 'n' => some '\n'
  | 'r' => some '\r'
  | 't' => some '\t'
  | _ => none

/-- Code units of a quoted string, after its opening quote, and what follows its closing quote. A
character that is not escaped is a unit of its own. -/
def quotedUnits : List Char → Option (List Nat × List Char)
  | [] => none
  | '"' :: rest => some ([], rest)
  | '\\' :: 'u' :: a :: b :: c :: d :: rest => do
      let unit ← codeUnit? a b c d
      let (units, rest) ← quotedUnits rest
      pure (unit :: units, rest)
  | '\\' :: e :: rest => do
      let c ← escapedChar? e
      let (units, rest) ← quotedUnits rest
      pure (c.toNat :: units, rest)
  | c :: rest => do
      if c = '\\' ∨ c.toNat < 0x20 then none
      else
        let (units, rest) ← quotedUnits rest
        pure (c.toNat :: units, rest)

def isHighSurrogate (unit : Nat) : Bool := 0xD800 ≤ unit && unit < 0xDC00

def isLowSurrogate (unit : Nat) : Bool := 0xDC00 ≤ unit && unit < 0xE000

/-- The characters of a sequence of code units, if every surrogate has its other half beside it. -/
def charsOfUnits : List Nat → Option (List Char)
  | [] => some []
  | high :: low :: rest =>
      if isHighSurrogate high then
        if isLowSurrogate low then do
          let cs ← charsOfUnits rest
          pure (Char.ofNat (0x10000 + (high - 0xD800) * 0x400 + (low - 0xDC00)) :: cs)
        else none
      else if isLowSurrogate high then none
      else do
        let cs ← charsOfUnits (low :: rest)
        pure (Char.ofNat high :: cs)
  | [unit] =>
      if isHighSurrogate unit || isLowSurrogate unit then none else some [Char.ofNat unit]

def hexDigit (n : Nat) : Char := Nat.digitChar n

def quoteChar (c : Char) : String :=
  if c = '"' then "\\\""
  else if c = '\\' then "\\\\"
  else if c = '\x08' then "\\b"
  else if c = '\x0c' then "\\f"
  else if c = '\n' then "\\n"
  else if c = '\r' then "\\r"
  else if c = '\t' then "\\t"
  else if c.toNat < 0x20 then
    "\\u00" ++ String.ofList [hexDigit (c.toNat / 16), hexDigit (c.toNat % 16)]
  else String.singleton c

/-- A quoted string. A string that has no characters is written as an unpaired surrogate. -/
def quote : Text → String
  | some s => "\"" ++ String.join (s.toList.map quoteChar) ++ "\""
  | none => "\"\\ud800\""

namespace Token

def text : Token → String
  | openBrace => "\x7b"
  | closeBrace => "\x7d"
  | openBracket => "["
  | closeBracket => "]"
  | colon => ":"
  | comma => ","
  | null => "null"
  | bool true => "true"
  | bool false => "false"
  | num numeral => Decimal.Layout.document.text numeral
  | str s => quote s

def isBlank (c : Char) : Bool := c == ' ' || c == '\t' || c == '\n' || c == '\r'

def punctuation? : Char → Option Token
  | '\x7b' => some openBrace
  | '\x7d' => some closeBrace
  | '[' => some openBracket
  | ']' => some closeBracket
  | ':' => some colon
  | ',' => some comma
  | _ => none

/-- The token at the front of a text that does not start with a blank, and the rest of the text. -/
def front? : List Char → Option (Token × List Char)
  | '"' :: rest => do
      let (units, rest) ← quotedUnits rest
      pure (str ((charsOfUnits units).map String.ofList), rest)
  | 'n' :: 'u' :: 'l' :: 'l' :: rest => some (null, rest)
  | 't' :: 'r' :: 'u' :: 'e' :: rest => some (bool true, rest)
  | 'f' :: 'a' :: 'l' :: 's' :: 'e' :: rest => some (bool false, rest)
  | [] => none
  | c :: rest =>
      match punctuation? c with
      | some token => some (token, rest)
      | none => do
          let numeral ← Numeral.ofChars? ((c :: rest).takeWhile Numeral.isNumberChar)
          pure (num numeral, (c :: rest).dropWhile Numeral.isNumberChar)

def scanWithin : Nat → List Char → Option (List Token)
  | 0, cs => if cs.isEmpty then some [] else none
  | fuel + 1, cs =>
      match cs.dropWhile isBlank with
      | [] => some []
      | c :: rest => do
          let (token, rest) ← front? (c :: rest)
          let tokens ← scanWithin fuel rest
          pure (token :: tokens)

/-- Split a text into its tokens. Every token takes a character, so the length of the text bounds their
number. -/
def scan (text : String) : Option (List Token) :=
  let cs := text.toList
  scanWithin cs.length cs

end Token

end Tandem.Json
