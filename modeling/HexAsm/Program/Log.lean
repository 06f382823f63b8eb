import HexAsm.Program.Pass
import HexAsm.Text.Quoted

/-!
# Logs

A log tells each step of a pass, the totals of the pass, and the file that was written.
-/

namespace HexAsm

/-- How much is logged. -/
inductive Verbosity where
  | quiet
  | summary
  | everything
  deriving DecidableEq

/-- An event that can be logged. -/
inductive LogEvent where
  | coded (line : Nat) (text : String)
  | skipped (line : Nat)
  | failed (line : Nat) (fault : Fault)
  | finished (lines products failures : Nat)
  | written (path : String)

namespace LogEvent

/-- The event is logged. -/
def visible (v : Verbosity) : LogEvent → Bool
  | .coded _ _ | .skipped _ | .failed _ _ => v == .everything
  | .finished _ _ _ | .written _ => v != .quiet

/-- The line that tells the event. -/
def text : LogEvent → String
  | .coded line text =>
    "DEBUG nibble_asm::pipeline: coded line=" ++ toString line ++ " text=" ++ Text.quote text
  | .skipped line => "DEBUG nibble_asm::pipeline: comment line=" ++ toString line
  | .failed line fault =>
    "DEBUG nibble_asm::pipeline: failed line=" ++ toString line ++ " kind=" ++ fault.kind.name ++ " " ++
      Text.disarm fault.message
  | .finished lines products failures =>
    "INFO nibble_asm::pipeline: pass complete lines=" ++ toString lines ++ " emitted=" ++
      toString products ++ " failed=" ++ toString failures
  | .written path => "INFO nibble_asm: output written path=" ++ path

end LogEvent

/-- The event of a step. -/
def Step.event {α : Type} (s : Step α) : LogEvent :=
  match s.result with
  | .ok (some _) => .coded s.item.line s.item.text
  | .ok none => .skipped s.item.line
  | .error f => .failed s.item.line f

/-- The events of a pass. -/
def Pass.events {α : Type} (p : Pass α) : List LogEvent :=
  p.steps.map Step.event ++
    [.finished p.report.lines p.report.output.length p.report.failures.length]

/-- The lines that tell the visible events. -/
def logLines (v : Verbosity) (events : List LogEvent) : List String :=
  (events.filter (LogEvent.visible v)).map LogEvent.text

end HexAsm
