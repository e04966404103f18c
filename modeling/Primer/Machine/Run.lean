import Primer.Machine.Step

/-!
# Runs

A run starts with a call of the main routine and goes on step by step until
the machine halts. It may go on for ever, so a run is followed over a number
of transitions, its *horizon*, and has no result if it does not halt within
them. With a step limit a horizon can be found that is always enough, since a
transition that counts no step leaves a frame, and only counted steps make
frames.
-/

namespace Primer

namespace Transition

/-- Follows a run, from the transition that has just been made, over at most
`horizon` more. -/
def follow (a : Assembly) (limit : Option Nat) :
    Nat → Transition → Option (Outcome × Session)
  | _, .halt outcome session => some (outcome, session)
  | 0, .next _ => none
  | horizon + 1, .next m => follow a limit horizon (m.step a limit)

end Transition

namespace Assembly

/-- **Runs a program** in a session. -/
def run (a : Assembly) (limit : Option Nat) (horizon : Nat)
    (session : Session) : Option (Outcome × Session) :=
  (Machine.enter a.main [] [] session).follow a limit horizon

end Assembly

end Primer
