import Brainfuck.RunError

/-!
# Outcomes

A run that is not cut short by an error completes: it comes to the end of the program, or it is
cancelled before one of its instructions.

## Main definitions

* `Completion`: how a run completes
* `Outcome`: a completion with the number of instructions executed
* `Outcome.summary`: how it is shown
-/

namespace Brainfuck

/-- How a run completes. -/
inductive Completion
  /-- The run came to the end of the program. -/
  | finished
  /-- The run was asked to stop, and the instruction at `pc` was not executed. -/
  | cancelled (pc : Nat)
  deriving DecidableEq, Repr

def Completion.text : Completion → String
  | finished => "Finished"
  | cancelled pc => s!"Cancelled \x7b pc: {pc} \x7d"

/-- What is reported of a run that completes. -/
structure Outcome where
  completion : Completion
  /-- The number of instructions executed; a counted instruction counts once. It is a natural number
  and has no limit, unlike a machine word. -/
  executed : Nat
  deriving DecidableEq, Repr

/-- The summary of a run: the time it took, in whole milliseconds, and the instructions executed. -/
def Outcome.summary (o : Outcome) (microseconds : Nat) : String :=
  s!"Finished in {microseconds / 1000} ms | Instructions: {o.executed}"

end Brainfuck
