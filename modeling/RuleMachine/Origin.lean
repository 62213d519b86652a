/-! # Origins

Every declaration remembers the place where it was written. Messages name that
place by file and line; the column only tells two declarations of one line
apart.
-/

namespace RuleMachine

structure Origin where
  file : String
  line : Nat
  column : Nat
deriving DecidableEq, Repr, Inhabited

namespace Origin

/-- The form used in messages: file and line. -/
def text (origin : Origin) : String :=
  s!"{origin.file}:{origin.line}"

/-- The form that tells any two origins apart: file, line and column. -/
def position (origin : Origin) : String :=
  s!"{origin.file}:{origin.line}:{origin.column}"

/-- Several origins in one message, in the order given. -/
def joined (origins : List Origin) : String :=
  ", ".intercalate (origins.map text)

end Origin

end RuleMachine
