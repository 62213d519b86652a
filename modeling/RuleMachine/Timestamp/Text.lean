import RuleMachine.Timestamp.Calendar

/-! # Timestamps as text

Instants are written in the form `2024-02-29T12:00:00.007Z`, with as many digits
of the fraction as it takes, in groups of three. Reading is more liberal: blanks
may surround the numbers, numbers may be short, and the time may be given at an
offset from universal time, to which it is converted.
-/

namespace RuleMachine

namespace Timestamp

/-- A number with zeros in front, up to a width. -/
def padded (width value : Nat) : String :=
  let digits := toString value
  String.ofList (List.replicate (width - digits.length) '0') ++ digits

/-- A year: four digits, or a sign and four digits or more. -/
def yearText (year : Int) : String :=
  if 0 ≤ year ∧ year ≤ 9999 then padded 4 year.toNat
  else if year < 0 then "-" ++ padded 4 year.natAbs
  else "+" ++ padded 4 year.natAbs

/-- The fraction of a second, in the fewest groups of three digits that are exact. -/
def fractionText (nanos : Nat) : String :=
  if nanos = 0 then ""
  else if nanos % 1000000 = 0 then "." ++ padded 3 (nanos / 1000000)
  else if nanos % 1000 = 0 then "." ++ padded 6 (nanos / 1000)
  else "." ++ padded 9 nanos

/-- An instant as text. A leap second is the sixtieth of its minute. -/
def text (instant : Timestamp) : String :=
  let date := Date.ofDay instant.day
  let time := instant.secondOfDay
  let second := time % 60 + instant.nanos / nanosPerSecond
  s!"{yearText date.year}-{padded 2 date.month}-{padded 2 date.day}T" ++
    s!"{padded 2 (time / 3600)}:{padded 2 (time / 60 % 60)}:{padded 2 second}" ++
    s!"{fractionText (instant.nanos % nanosPerSecond)}Z"

/-- The characters that count as blank: those of the White_Space property. -/
def isBlank (letter : Char) : Bool :=
  let code := letter.toNat
  (9 ≤ code && code ≤ 13) || code = 0x20 || code = 0x85 || code = 0xA0 || code = 0x1680 ||
    (0x2000 ≤ code && code ≤ 0x200A) || code = 0x2028 || code = 0x2029 || code = 0x202F ||
    code = 0x205F || code = 0x3000

def skipBlanks (input : List Char) : List Char :=
  input.dropWhile isBlank

def digitsValue (digits : List Char) : Nat :=
  digits.foldl (fun value digit => 10 * value + (digit.toNat - '0'.toNat)) 0

/-- Read one digit or more, at most as many as the limit says. -/
def readDigits (limit : Nat) (input : List Char) : Option (List Char × List Char) :=
  let digits := (input.takeWhile Char.isDigit).take limit
  if digits.isEmpty then none else some (digits, input.drop digits.length)

/-- Read a number of at most two digits after any blanks. -/
def readTwo (input : List Char) : Option (Nat × List Char) :=
  (readDigits 2 (skipBlanks input)).map (fun (digits, rest) => (digitsValue digits, rest))

/-- Read a year: up to four digits, or a sign and any number of digits. -/
def readYear (input : List Char) : Option (Int × List Char) :=
  match skipBlanks input with
  | '-' :: rest => (readDigits rest.length rest).map
      (fun (digits, rest) => (-(digitsValue digits : Int), rest))
  | '+' :: rest => (readDigits rest.length rest).map
      (fun (digits, rest) => ((digitsValue digits : Int), rest))
  | rest => (readDigits 4 rest).map (fun (digits, rest) => ((digitsValue digits : Int), rest))

/-- Pass a sign, which blanks may precede. -/
def readMark (mark : Char) (input : List Char) : Option (List Char) :=
  match skipBlanks input with
  | letter :: rest => if letter = mark then some rest else none
  | [] => none

def readDate (input : List Char) : Option (Date × List Char) := do
  let (year, rest) ← readYear input
  let rest ← readMark '-' rest
  let (month, rest) ← readTwo rest
  let rest ← readMark '-' rest
  let (day, rest) ← readTwo rest
  pure (⟨year, month, day⟩, rest)

/-- Read the fraction of a second, in nanoseconds. Digits beyond the ninth are
passed over. -/
def readFraction (input : List Char) : Option (Nat × List Char) :=
  match input with
  | '.' :: rest => do
    let (digits, rest) ← readDigits 9 rest
    pure (digitsValue digits * Nat.pow 10 (9 - digits.length), rest.dropWhile Char.isDigit)
  | rest => some (0, rest)

structure ClockTime where
  hour : Nat
  minute : Nat
  second : Nat
  nanos : Nat

def ClockTime.isValid (time : ClockTime) : Bool :=
  time.hour ≤ 23 && time.minute ≤ 59 && time.second ≤ 60

def readTime (input : List Char) : Option (ClockTime × List Char) := do
  let (hour, rest) ← readTwo input
  let rest ← readMark ':' rest
  let (minute, rest) ← readTwo rest
  let rest ← readMark ':' rest
  let (second, rest) ← readTwo rest
  let (nanos, rest) ← readFraction rest
  pure (⟨hour, minute, second, nanos⟩, rest)

def readExactlyTwo : List Char → Option (Nat × List Char)
  | first :: second :: rest =>
    if first.isDigit && second.isDigit then some (digitsValue [first, second], rest) else none
  | _ => none

/-- Read the hours and minutes of an offset, in seconds. -/
def readOffsetDigits (input : List Char) : Option (Nat × List Char) := do
  let (hours, rest) ← readExactlyTwo input
  let (minutes, rest) ← readExactlyTwo
    (rest.dropWhile (fun letter => letter = ':' || isBlank letter))
  if minutes ≤ 59 then pure (hours * 3600 + minutes * 60, rest) else none

/-- Whether the input starts with the name of universal time, in capitals or not. -/
def startsWithName (input : List Char) : Bool :=
  (input.take 3).map Char.toLower = ['u', 't', 'c']

/-- Read an offset from universal time, in seconds. -/
def readOffset (input : List Char) : Option (Int × List Char) :=
  if startsWithName input then some (0, input.drop 3)
  else match input with
    | 'Z' :: rest | 'z' :: rest => some (0, rest)
    | '+' :: rest => (readOffsetDigits rest).map (fun (offset, rest) => ((offset : Int), rest))
    | '-' :: rest | '−' :: rest =>
      (readOffsetDigits rest).map (fun (offset, rest) => (-(offset : Int), rest))
    | _ => none

/-- The instant at a date and time of day that are ahead of universal time by an
offset. -/
def ofLocal? (date : Date) (time : ClockTime) (offset : Int) : Option Timestamp :=
  let leap := time.second = 60
  let second := if leap then 59 else time.second
  let seconds : Int :=
    date.toDay * secondsPerDay + (time.hour * 3600 + time.minute * 60 + second : Nat) - offset
  let instant : Timestamp := ⟨seconds, time.nanos + (if leap then nanosPerSecond else 0)⟩
  if date.isValid && time.isValid && offset.natAbs < secondsPerDay && instant.inRange then
    some instant
  else none

/-- Read an instant from a text that holds nothing else. -/
def ofText? (text : String) : Option Timestamp := do
  let (date, rest) ← readDate text.toList
  let rest ← match rest with
    | 't' :: rest | 'T' :: rest | ' ' :: rest => some rest
    | _ => none
  let (time, rest) ← readTime rest
  let (offset, rest) ← readOffset (skipBlanks rest)
  if (skipBlanks rest).isEmpty then ofLocal? date time offset else none

end Timestamp

end RuleMachine
