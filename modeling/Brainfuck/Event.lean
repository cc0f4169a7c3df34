import Brainfuck.Outcome

/-!
# Events

The steps on the way from a text to the end of its run are logged as events. An event is shown as a
level, a message and named fields.

## Main definitions

* `Event`: what is logged
* `Event.level`, `Event.message`, `Event.fields`: how it is shown
-/

namespace Brainfuck

/-- How much an event matters. -/
inductive Level
  | debug
  | info
  | warn
  deriving DecidableEq, Repr

def Level.text : Level → String
  | debug => "DEBUG"
  | info => "INFO"
  | warn => "WARN"

/-- What is logged. -/
inductive Event
  /-- A text was converted: its length and that of the result in bytes, and the number of
  characters that belong to no token. -/
  | converted (input output dropped : Nat)
  /-- A text was read: the numbers of its operators and of the other characters. -/
  | tokenized (operators skipped : Nat)
  /-- A program was optimized: the numbers of operators, of fused loops and of instructions. -/
  | optimized (operators cleared instructions : Nat)
  /-- The loops of a program were resolved: the numbers of instructions and of loops. -/
  | resolved (instructions loops : Nat)
  /-- A move left the tape and the policy placed the pointer. -/
  | recovered (policy : BoundsPolicy) (error : BoundsError) (pointer : Nat)
  /-- A read failed, and counts as the end of the input. -/
  | readFailed (cause : String)
  /-- A run was asked to stop before the instruction at `pc`. -/
  | cancelled (pc executed : Nat)
  /-- A run completed. -/
  | completed (instructions executed : Nat) (completion : Completion)
  deriving DecidableEq, Repr

namespace Event

def level : Event → Level
  | readFailed _ => .warn
  | completed .. => .info
  | _ => .debug

def message : Event → String
  | converted .. => "translated source"
  | tokenized .. => "tokenized source"
  | optimized .. => "optimized program"
  | resolved .. => "resolved jump table"
  | recovered .. => "recovered pointer move"
  | readFailed cause => s!"Failed read input, treating as end of input: {cause}"
  | cancelled .. => "run cancelled"
  | completed .. => "run complete"

def fields : Event → List (String × String)
  | converted input output dropped =>
    [("input", Nat.repr input), ("output", Nat.repr output), ("dropped", Nat.repr dropped)]
  | tokenized operators skipped =>
    [("operators", Nat.repr operators), ("skipped", Nat.repr skipped)]
  | optimized operators cleared instructions =>
    [("operators", Nat.repr operators), ("cleared", Nat.repr cleared),
      ("instructions", Nat.repr instructions)]
  | resolved instructions loops =>
    [("instructions", Nat.repr instructions), ("loops", Nat.repr loops)]
  | recovered policy error pointer =>
    [("policy", policy.name), ("error", error.message), ("pointer", Nat.repr pointer)]
  | readFailed _ => []
  | cancelled pc executed => [("pc", Nat.repr pc), ("executed", Nat.repr executed)]
  | completed instructions executed completion =>
    [("instructions", Nat.repr instructions), ("executed", Nat.repr executed),
      ("completion", completion.text)]

/-- An event on one line. -/
def text (e : Event) : String :=
  let fields := e.fields.map fun (name, value) => s!"{name}={value}"
  " ".intercalate (e.level.text :: e.message :: fields)

end Event

end Brainfuck
