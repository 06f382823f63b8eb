/-!
# Settings

What a user can choose about a pass.
-/

namespace HexAsm

/-- The choices for a pass over a program. -/
structure Settings where
  /-- Go on after a line that fails, so that every fault is reported. -/
  keepGoing : Bool := true
  /-- Write the header of an image. -/
  header : Bool := true
  /-- The number of workers, which no result depends on. -/
  jobs : Option UInt64 := none
  deriving DecidableEq

end HexAsm
