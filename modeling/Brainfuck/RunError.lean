import Brainfuck.Tape.Bounds

/-!
# Run errors

A run is cut short by a move that leaves the tape, by an output that refuses a byte, or by a fault:
something that has no result in machine words.

## Main definitions

* `RunError`: the three causes
* `RunError.message`: how they are worded
-/

namespace Brainfuck

/-- A computation that has no result on a machine. -/
inductive Fault
  /-- A tape is too large to be laid out. -/
  | allocation
  /-- The exact result of pointer arithmetic is not a word. -/
  | arithmetic
  /-- A jump has no target. -/
  | jump
  deriving DecidableEq, Repr

def Fault.message : Fault → String
  | allocation => "tape too large"
  | arithmetic => "pointer arithmetic out of range"
  | jump => "jump out of the program"

/-- What cuts a run short. -/
inductive RunError
  /-- A move left the tape under the policy that forbids it. -/
  | bounds (e : BoundsError)
  /-- The output refused a byte or could not be flushed. -/
  | output (cause : String)
  | fault (f : Fault)
  deriving DecidableEq, Repr

def RunError.message : RunError → String
  | bounds e => e.message
  | output cause => s!"Failed write output: {cause}"
  | fault f => f.message

end Brainfuck
