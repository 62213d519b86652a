import RuleMachine.Predicate.World

/-! # The scenario vocabulary

The kinds of predicate that scenarios are written with. They are listed in a
table, and a kind is a line of it. Most kinds have a handful of named values;
one has all integers and one all texts. Some are there for their oddities: cases
out of order, cases repeated, no cases at all, and kinds that share a short name.
-/

namespace RuleMachine

namespace Scenario

/-- What the values of a kind look like. -/
inductive Shape where
  /-- Named values in ascending order, and the positions of those that are cases. -/
  | named (names : List String) (cases : List Nat)
  | integer (cases : List Int)
  | text (cases : List String)

namespace Shape

def Carrier : Shape → Type
  | named names _ => Fin names.length
  | integer _ => Int
  | text _ => String

def caseList : (shape : Shape) → List shape.Carrier
  | named names cases => cases.filterMap fun position =>
      if h : position < names.length then some ⟨position, h⟩ else none
  | integer cases => cases
  | text cases => cases

def compareCarrier : (shape : Shape) → shape.Carrier → shape.Carrier → Ordering
  | named names _ => fun (first second : Fin names.length) => compare first second
  | integer _ => fun (first second : Int) => compare first second
  | text _ => fun (first second : String) => compare first second

/-- The name of a value. Integers are shown with their kind, texts bare. -/
def carrierText : (shape : Shape) → shape.Carrier → String
  | named names _ => fun (value : Fin names.length) => names[value]
  | integer _ => fun (value : Int) => s!"Num({value})"
  | text _ => fun (value : String) => value

/-- What a value is written as after the key of its kind. -/
def carrierToken : (shape : Shape) → shape.Carrier → String
  | named names _ => fun (value : Fin names.length) => names[value]
  | integer _ => fun (value : Int) => toString value
  | text _ => fun (value : String) => value

/-- The integers that a 64-bit word holds. -/
def inWord (value : Int) : Bool :=
  -9223372036854775808 ≤ value && value ≤ 9223372036854775807

/-- The number that a non-empty run of decimal digits stands for. -/
def digitsValue? (digits : List Char) : Option Nat :=
  if digits.isEmpty || !digits.all Char.isDigit then none
  else some (digits.foldl (fun value digit => 10 * value + (digit.toNat - '0'.toNat)) 0)

/-- Read a word: decimal digits, possibly after a sign. -/
def wordOfText? (text : String) : Option Int :=
  let value : Option Int := match text.toList with
    | '-' :: digits => (digitsValue? digits).map (fun value => -(value : Int))
    | '+' :: digits => (digitsValue? digits).map (fun value => (value : Int))
    | digits => (digitsValue? digits).map (fun value => (value : Int))
  value.filter inWord

def carrierOfToken? : (shape : Shape) → String → Option shape.Carrier
  | named names _ => fun token => names.finIdxOf? token
  | integer _ => wordOfText?
  | text _ => some

instance compareCarrierTrans : (shape : Shape) → Std.TransCmp shape.compareCarrier
  | named names _ => inferInstanceAs (Std.TransOrd (Fin names.length))
  | integer _ => inferInstanceAs (Std.TransOrd Int)
  | text _ => inferInstanceAs (Std.TransOrd String)

instance compareCarrierLawful : (shape : Shape) → Std.LawfulEqCmp shape.compareCarrier
  | named names _ => inferInstanceAs (Std.LawfulEqOrd (Fin names.length))
  | integer _ => inferInstanceAs (Std.LawfulEqOrd Int)
  | text _ => inferInstanceAs (Std.LawfulEqOrd String)

/-- A shape whose named values are all cases, in ascending order. -/
def allNamed (names : List String) : Shape :=
  named names (List.range names.length)

end Shape

/-- A line of the table of kinds. -/
structure KindInfo where
  /-- What the kind is called where predicates are written. -/
  key : String
  fullName : String
  shape : Shape

def kindTable : List KindInfo := [
  ⟨"Enforcement", "driver::preds::Enforcement", .allNamed ["Weak", "Strong"]⟩,
  ⟨"Shift", "driver::preds::Shift", .allNamed ["Day", "Night"]⟩,
  ⟨"Level", "driver::preds::Level", .allNamed ["Low", "Mid", "High"]⟩,
  ⟨"Color", "driver::preds::Color", .allNamed ["Red", "Green"]⟩,
  ⟨"Only", "driver::preds::Only", .allNamed ["One"]⟩,
  ⟨"Big", "driver::preds::Big",
    .allNamed ["B0", "B1", "B2", "B3", "B4", "B5", "B6", "B7", "B8", "B9"]⟩,
  ⟨"Rev", "driver::preds::Rev", .named ["C", "B", "A"] [1, 2, 0]⟩,
  ⟨"Void", "driver::preds::Void", .named ["X", "Y"] []⟩,
  ⟨"Twice", "driver::preds::Twice", .named ["A", "B"] [0, 0, 1]⟩,
  ⟨"Num", "driver::preds::Num", .integer [0, 1, -1]⟩,
  ⟨"Text", "driver::preds::Text", .text ["", "x"]⟩,
  ⟨"aMode", "driver::alpha::Mode", .allNamed ["On", "Off"]⟩,
  ⟨"zMode", "driver::zeta::Mode", .allNamed ["On", "Off"]⟩,
  ⟨"axA", "driver::mid::Axis<driver::alpha::Mode>", .allNamed ["Neg", "Pos"]⟩,
  ⟨"axZ", "driver::mid::Axis<driver::zeta::Mode>", .allNamed ["Neg", "Pos"]⟩,
  ⟨"Bare", "driver::Bare", .allNamed ["No", "Yes"]⟩]

/-- A kind of predicate: a line of the table. -/
structure Kind where
  line : Fin kindTable.length
deriving DecidableEq

namespace Kind

def info (kind : Kind) : KindInfo := kindTable[kind.line]

/-- Kinds are told apart by their lines. -/
def compareLine : Kind → Kind → Ordering := compareOn line

instance : Std.TransCmp compareLine :=
  inferInstanceAs (Std.TransCmp (compareOn line))

instance : Std.LawfulEqCmp compareLine where
  eq_of_compare {first second} h := by
    cases first
    cases second
    exact congrArg Kind.mk (Std.LawfulEqCmp.eq_of_compare h)

end Kind

def vocabulary : Vocabulary where
  Kind := Kind
  Value kind := kind.info.shape.Carrier
  fullName kind := kind.info.fullName
  caseList kind := kind.info.shape.caseList
  valueText kind := kind.info.shape.carrierText
  compareIdentity := Kind.compareLine
  compareValue kind := kind.info.shape.compareCarrier
  identityTrans := inferInstance
  identityLawful := inferInstance
  valueTrans kind := Shape.compareCarrierTrans kind.info.shape
  valueLawful kind := Shape.compareCarrierLawful kind.info.shape

def kindOfKey? (key : String) : Option Kind :=
  (kindTable.findFinIdx? (fun info => info.key == key)).map Kind.mk

/-- A predicate as it is written: the key of its kind, a dot, and its value. -/
def predicateToken (predicate : Predicate vocabulary) : String :=
  let info := Kind.info predicate.kind
  s!"{info.key}.{info.shape.carrierToken predicate.value}"

/-- Read a predicate. The first dot ends the key. -/
def predicateOfToken? (token : String) : Option (Predicate vocabulary) := do
  let letters := token.toList
  let key := letters.takeWhile (fun letter => letter ≠ '.')
  let kind ← kindOfKey? (String.ofList key)
  match letters.drop key.length with
  | '.' :: value =>
    let value ← (Kind.info kind).shape.carrierOfToken? (String.ofList value)
    pure ⟨kind, value⟩
  | _ => none

end Scenario

end RuleMachine
