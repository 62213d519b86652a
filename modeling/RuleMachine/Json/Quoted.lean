/-! # Quoted strings

Strings as JSON writes them. Writing escapes quotes, backslashes and control
characters and leaves everything else alone. Reading goes in two steps: scanning
finds the end of the string and its pieces, and decoding puts the pieces
together. Only decoding minds surrogates that lack their partner, so a string
that nobody needs may hold some.
-/

namespace RuleMachine

namespace Json

def hexDigit (value : Nat) : Char :=
  if value < 10 then Char.ofNat ('0'.toNat + value) else Char.ofNat ('a'.toNat + (value - 10))

def escape (letter : Char) : List Char :=
  match letter with
  | '"' => ['\\', '"']
  | '\\' => ['\\', '\\']
  | '\n' => ['\\', 'n']
  | '\r' => ['\\', 'r']
  | '\t' => ['\\', 't']
  | letter =>
    if letter = Char.ofNat 8 then ['\\', 'b']
    else if letter = Char.ofNat 12 then ['\\', 'f']
    else if letter.toNat < 32 then
      ['\\', 'u', '0', '0', hexDigit (letter.toNat / 16), hexDigit (letter.toNat % 16)]
    else [letter]

def quoted (text : String) : String :=
  String.ofList ('"' :: text.toList.flatMap escape ++ ['"'])

/-- A piece of a string: a character, or the number of an escaped code unit. -/
inductive Piece where
  | char (letter : Char)
  | codeUnit (value : Nat)
deriving DecidableEq, Repr

def hexValue? (digit : Char) : Option Nat :=
  if digit.isDigit then some (digit.toNat - '0'.toNat)
  else if 'a' ≤ digit ∧ digit ≤ 'f' then some (digit.toNat - 'a'.toNat + 10)
  else if 'A' ≤ digit ∧ digit ≤ 'F' then some (digit.toNat - 'A'.toNat + 10)
  else none

/-- The character that a backslash and a letter stand for. -/
def unescape? : Char → Option Char
  | '"' => some '"'
  | '\\' => some '\\'
  | '/' => some '/'
  | 'b' => some (Char.ofNat 8)
  | 'f' => some (Char.ofNat 12)
  | 'n' => some '\n'
  | 'r' => some '\r'
  | 't' => some '\t'
  | _ => none

/-- The pieces of a string up to its closing quote, and what follows the quote. -/
def scanPieces : List Char → Option (List Piece × List Char)
  | [] => none
  | '"' :: rest => some ([], rest)
  | '\\' :: 'u' :: first :: second :: third :: fourth :: rest => do
    let first ← hexValue? first
    let second ← hexValue? second
    let third ← hexValue? third
    let fourth ← hexValue? fourth
    let (pieces, rest) ← scanPieces rest
    pure (.codeUnit (((first * 16 + second) * 16 + third) * 16 + fourth) :: pieces, rest)
  | '\\' :: letter :: rest => do
    let letter ← unescape? letter
    let (pieces, rest) ← scanPieces rest
    pure (.char letter :: pieces, rest)
  | letter :: rest =>
    if letter = '\\' ∨ letter.toNat < 32 then none
    else do
      let (pieces, rest) ← scanPieces rest
      pure (.char letter :: pieces, rest)

/-- Whether a code unit is the first of a pair. -/
def isHighSurrogate (value : Nat) : Bool := 0xD800 ≤ value && value < 0xDC00

/-- Whether a code unit is the second of a pair. -/
def isLowSurrogate (value : Nat) : Bool := 0xDC00 ≤ value && value < 0xE000

/-- The characters that pieces make up, if every surrogate has its partner. -/
def decodePieces : List Piece → Option (List Char)
  | [] => some []
  | .char letter :: rest => (decodePieces rest).map (letter :: ·)
  | .codeUnit high :: .codeUnit low :: rest =>
    if isHighSurrogate high then
      if isLowSurrogate low then
        (decodePieces rest).map
          (Char.ofNat (0x10000 + (high - 0xD800) * 0x400 + (low - 0xDC00)) :: ·)
      else none
    else if isLowSurrogate high then none
    else (decodePieces (.codeUnit low :: rest)).map (Char.ofNat high :: ·)
  | .codeUnit value :: rest =>
    if isHighSurrogate value || isLowSurrogate value then none
    else (decodePieces rest).map (Char.ofNat value :: ·)

/-- Read a string whose opening quote has been passed. The text is missing if a
surrogate lacks its partner. -/
def scanString (input : List Char) : Option (Option String × List Char) :=
  (scanPieces input).map (fun (pieces, rest) => ((decodePieces pieces).map String.ofList, rest))

end Json

end RuleMachine
