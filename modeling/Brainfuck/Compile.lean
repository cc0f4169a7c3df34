import Brainfuck.Event
import Brainfuck.Optimize
import Brainfuck.Program
import Brainfuck.Source

/-!
# From a text to a program

A source text is read, optimized and resolved. Each of the three steps logs an event with its
counts; loops that do not balance leave no event.

## Main definitions

* `Event.ofSource`, `Event.ofOptimize`, `Event.ofProgram`: the events of the three steps
* `Compilation.ofSource`: all three steps
-/

namespace Brainfuck

/-- The event of reading a text. -/
def Event.ofSource (source : String) : Event :=
  .tokenized (Source.operators source).length (Source.comments source)

/-- The event of optimizing operators. A fused loop takes two operators away. -/
def Event.ofOptimize (ops : List Operator) : Event :=
  .optimized ops.length ((ops.length - (fuseClearLoops ops).length) / 2) (optimize ops).length

/-- The event of resolving the loops of a program. -/
def Event.ofProgram (p : Program) : Event :=
  .resolved p.size p.jumps.loops

/-- A text made ready to run, or the reason why its loops do not balance. -/
structure Compilation where
  program : Except LoopError Program
  /-- What was logged on the way. -/
  events : List Event

/-- Resolve an instruction list. -/
def Compilation.ofInstructions (code : List Instruction) : Compilation :=
  let program := Program.ofInstructions code
  { program
    events := match program with
      | .ok p => [.ofProgram p]
      | .error _ => [] }

/-- Read, optimize and resolve a text. -/
def Compilation.ofSource (source : String) : Compilation :=
  let ops := Source.operators source
  let resolved := ofInstructions (optimize ops)
  { resolved with events := .ofSource source :: .ofOptimize ops :: resolved.events }

end Brainfuck
