/-!
What a user may choose about a compilation.
-/

namespace Microcode

structure Options where
  optimize : Bool := true
  /-- Whether the code is wrapped in a command table and the saved state. -/
  dispatchWrapper : Bool := true
  /-- Whether each statement's code starts with a comment that gives its line. -/
  sourceComments : Bool := false
  scheduleRounds : Nat := 4
deriving DecidableEq, Repr

end Microcode
