import Primer.Assembly
import Primer.Machine.Error
import Primer.Machine.Store

/-!
# The machine

A run of an assembled program is a sequence of machine states. A state has
two sides. The *frames*, one for each call that has not ended, are what the
run works on, and they vanish with it. The *session* is what lasts: the rest
of the input, the output so far, the number of steps and the log of what
happened. A later run of the same session starts with new frames.

A frame keeps the code that it still has to execute, which is a tail of the
code of its routine. Passing control within a routine is to exchange that
tail, and there are no positions to compute with.

The log lists every call, with its arguments, and every instruction that was
executed. Steps are counted apart from the log, because a step that exceeds
the limit is counted and not executed.
-/

namespace Primer

open Text

/-- **Something that happened in a run.** -/
inductive Event where
  /-- A routine was called with arguments. -/
  | call (routine : Ident) (args : List Value)
  /-- An instruction of a routine was about to be executed. -/
  | step (routine : Ident) (instr : Instr)
  deriving DecidableEq

namespace Event

/-- An event as text. -/
def text : Event → String
  | call routine args =>
    routine ++ "(" ++ ", ".intercalate (args.map Value.text) ++ ")"
  | step routine instr => routine ++ "|" ++ instr.text

/-- Whether an event is a call. -/
def isCall : Event → Bool
  | call _ _ => true
  | step _ _ => false

end Event

/-- **What lasts beyond a run.** -/
structure Session where
  /-- The integers not read yet. -/
  input : List Int64
  /-- The text written so far. -/
  output : String
  /-- The steps counted so far. -/
  steps : Nat
  /-- What happened so far, the latest first. -/
  log : List Event
  deriving DecidableEq

namespace Session

/-- The session in which nothing has happened, over an input. -/
def fresh (input : List Int64) : Session := ⟨input, "", 0, []⟩

/-- The session after one more event. -/
def record (s : Session) (event : Event) : Session :=
  { s with log := event :: s.log }

/-- The session after one more step was counted. -/
def countStep (s : Session) : Session := { s with steps := s.steps + 1 }

/-- The session after a text was written. -/
def write (s : Session) (text : String) : Session :=
  { s with output := s.output ++ text }

/-- What happened so far, in order. -/
def events (s : Session) : List Event := s.log.reverse

end Session

/-- **A call that has not ended.** -/
structure Frame where
  /-- The routine that was called. -/
  routine : Routine
  /-- The code still to be executed. -/
  rest : Code
  /-- The values of the places. -/
  slots : Store Slot
  /-- The arguments set aside for the next call. -/
  arguments : Store Nat
  /-- What the last callee handed back. -/
  received : Option Value
  /-- What this call will hand back. -/
  result : Option Value
  deriving DecidableEq

/-- **A state of the machine.** -/
structure Machine where
  /-- The call that is being executed. -/
  frame : Frame
  /-- The calls that wait for it, the latest first. -/
  callers : List Frame
  /-- What lasts beyond the run. -/
  session : Session
  deriving DecidableEq

/-- **How a run ends.** -/
inductive Outcome where
  /-- The main routine ended. -/
  | finished
  /-- An instruction could not be executed, or the limit was reached. -/
  | failed (error : RuntimeError)
  /-- An argument was set aside under an index too great for the machine's
  memory. The machine stops without an error of its own. -/
  | crashed
  deriving DecidableEq

/-- **What comes after a state.** -/
inductive Transition where
  /-- Another state. -/
  | next (machine : Machine)
  /-- The end of the run. -/
  | halt (outcome : Outcome) (session : Session)
  deriving DecidableEq

end Primer
