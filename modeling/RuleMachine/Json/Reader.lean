import RuleMachine.Json.Quoted

/-! # Reading JSON

The grammar of JSON texts, read into values. Fields of an object keep their order
and may repeat; what a repeated or unknown field means is up to whoever reads the
object. The values of numbers are not kept, since nothing that is read here holds
a number.
-/

namespace RuleMachine

/-- A JSON value. The text of a string is missing where an escaped surrogate lacks
its partner. -/
inductive Json where
  | null
  | bool (value : Bool)
  | number
  | string (text : Option String)
  | array (items : List Json)
  | object (fields : List (Option String × Json))

namespace Json

def isBlank (letter : Char) : Bool :=
  letter = ' ' || letter = '\t' || letter = '\n' || letter = '\r'

def skipBlanks (input : List Char) : List Char :=
  input.dropWhile isBlank

/-- What follows a word, if the input starts with it. -/
def expect (word input : List Char) : Option (List Char) :=
  if word.isPrefixOf input then some (input.drop word.length) else none

def scanDigits : List Char → Option (List Char)
  | digit :: rest => if digit.isDigit then some (rest.dropWhile Char.isDigit) else none
  | [] => none

/-- What follows the whole part of a number: a zero, or digits that do not start
with one. -/
def scanWhole : List Char → Option (List Char)
  | '0' :: rest => some rest
  | input => scanDigits input

def scanFraction : List Char → Option (List Char)
  | '.' :: rest => scanDigits rest
  | input => some input

def scanExponent : List Char → Option (List Char)
  | mark :: rest =>
    if mark = 'e' ∨ mark = 'E' then
      match rest with
      | '+' :: digits | '-' :: digits => scanDigits digits
      | digits => scanDigits digits
    else some (mark :: rest)
  | [] => some []

def scanNumber (input : List Char) : Option (List Char) := do
  let whole := match input with
    | '-' :: rest => rest
    | input => input
  let rest ← scanWhole whole
  let rest ← scanFraction rest
  scanExponent rest

mutual

/-- Read a value and return what follows it. The fuel bounds the number of values
and separators. -/
def scanValue : Nat → List Char → Option (Json × List Char)
  | 0, _ => none
  | fuel + 1, input =>
    match skipBlanks input with
    | '"' :: rest => (scanString rest).map (fun (text, rest) => (.string text, rest))
    | '[' :: rest =>
      match skipBlanks rest with
      | ']' :: rest => some (.array [], rest)
      | rest => (scanItems fuel rest).map (fun (items, rest) => (.array items, rest))
    | '\x7b' :: rest =>
      match skipBlanks rest with
      | '\x7d' :: rest => some (.object [], rest)
      | rest => (scanFields fuel rest).map (fun (fields, rest) => (.object fields, rest))
    | 'n' :: rest => (expect ['u', 'l', 'l'] rest).map (fun rest => (.null, rest))
    | 't' :: rest => (expect ['r', 'u', 'e'] rest).map (fun rest => (.bool true, rest))
    | 'f' :: rest => (expect ['a', 'l', 's', 'e'] rest).map (fun rest => (.bool false, rest))
    | input => (scanNumber input).map (fun rest => (.number, rest))

/-- Read the items of an array, of which there is at least one, and its end. -/
def scanItems : Nat → List Char → Option (List Json × List Char)
  | 0, _ => none
  | fuel + 1, input => do
    let (item, rest) ← scanValue fuel input
    match skipBlanks rest with
    | ',' :: rest =>
      let (items, rest) ← scanItems fuel rest
      pure (item :: items, rest)
    | ']' :: rest => pure ([item], rest)
    | _ => none

/-- Read the fields of an object, of which there is at least one, and its end. -/
def scanFields : Nat → List Char → Option (List (Option String × Json) × List Char)
  | 0, _ => none
  | fuel + 1, input =>
    match skipBlanks input with
    | '"' :: rest => do
      let (name, rest) ← scanString rest
      match skipBlanks rest with
      | ':' :: rest =>
        let (value, rest) ← scanValue fuel rest
        match skipBlanks rest with
        | ',' :: rest =>
          let (fields, rest) ← scanFields fuel rest
          pure ((name, value) :: fields, rest)
        | '\x7d' :: rest => pure ([(name, value)], rest)
        | _ => none
      | _ => none
    | _ => none

end

/-- Read a text that holds one value and nothing else. Every step of the reader but
the first into a value takes at least one character, so fuel of twice the length
is enough. -/
def ofText? (text : String) : Option Json :=
  let input := text.toList
  match scanValue (2 * input.length + 2) input with
  | some (value, rest) => if (skipBlanks rest).isEmpty then some value else none
  | none => none

def text? : Json → Option String
  | string text => text
  | _ => none

/-- The values that known fields have in an object or an array. In an array they
stand in the order of the names, possibly fewer. In an object no known field may
be repeated, and no name may lack its text; unknown fields do not matter. -/
def knownFields? (names : List String) : Json → Option (List (String × Json))
  | array items => if names.length < items.length then none else some (names.zip items)
  | object fields => do
    let fields ← fields.mapM (fun (name, value) => name.map (fun name => (name, value)))
    let known := fields.filter (fun (name, _) => names.contains name)
    if (known.map Prod.fst).eraseDups.length < known.length then none else some known
  | _ => none

end Json

end RuleMachine
