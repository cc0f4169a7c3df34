import Brainfuck.Machine
import Brainfuck.Program

/-!
# Executing a program

A run goes through the instructions of a program with a program counter. Before each instruction it
looks at the flag of its machine, and a run that heeds the flag stops there if it is raised. A
program need not end, so that a run is given a number of rounds; more rounds never change how a run
ends. Whatever the ending, the output is flushed once, and an error of the run is reported before
one of the flush.

## Main definitions

* `Run`: a run in progress
* `Run.advance`: one round of a run
* `Run.toEnd`: the rounds up to the end
* `Program.execute`: a run from the first instruction, with the flush

## Main results

* `Run.toEnd_add`: more rounds keep the ending
-/

namespace Brainfuck

/-- What a run goes by, besides its program. -/
structure Rules where
  policy : BoundsPolicy
  /-- Whether the run stops when its machine has been asked to. -/
  heedsCancel : Bool := true
  deriving DecidableEq, Repr

/-- A run in progress. -/
structure Run (w : Width) where
  /-- The index of the next instruction. -/
  pc : Nat
  /-- The number of instructions executed. It is a natural number, where a counter in a machine word
  would run over after 2 ^ 64 instructions. -/
  executed : Nat
  machine : Machine w
  /-- What was logged, in order. -/
  events : Array Event

/-- How a run ends. -/
inductive Ending
  | completed (completion : Completion)
  | failed (e : RunError)
  deriving DecidableEq, Repr

namespace Run

variable {w : Width}

/-- What a round of a run comes to. -/
inductive Next (w : Width)
  | running (r : Run w)
  | ended (ending : Ending) (r : Run w)

/-- The run at the first instruction. -/
def start (m : Machine w) : Run w :=
  ⟨0, 0, m, #[]⟩

/-- Count an instruction that is done, and go on at `pc`. -/
def goTo (pc : Nat) (r : Run w) : Run w :=
  { r with pc, executed := r.executed + 1 }

/-- Execute a loop bracket: go on after its partner, or at the next instruction. -/
def branch (p : Program) (jumps : Bool) (r : Run w) : Next w :=
  if jumps then
    match p.jumps.target? r.pc with
    | some target => .running (r.goTo (target + 1))
    | none => .ended (.failed (.fault .jump)) r
  else .running (r.goTo (r.pc + 1))

/-- Execute the instruction `i` at the program counter. -/
def step (p : Program) (policy : BoundsPolicy) (i : Instruction) (r : Run w) : Next w :=
  match i.op with
  | .loopStart => r.branch p r.machine.tape.isZero
  | .loopEnd => r.branch p (!r.machine.tape.isZero)
  | _ =>
    match r.machine.exec policy i with
    | .done machine event =>
      .running
        { pc := r.pc + 1
          executed := r.executed + 1
          machine
          events := event.elim r.events r.events.push }
    | .failed machine e => .ended (.failed e) { r with machine }

/-- One round: end after the last instruction or when asked to stop, or else execute the
instruction at the program counter. -/
def advance (p : Program) (rules : Rules) (r : Run w) : Next w :=
  match p.instructions[r.pc]? with
  | none => .ended (.completed .finished) r
  | some i =>
    if rules.heedsCancel && r.machine.cancelled then
      .ended (.completed (.cancelled r.pc))
        { r with events := r.events.push (.cancelled r.pc r.executed) }
    else r.step p rules.policy i

/-- The ending of a run and its last state, if it ends within so many rounds. -/
def toEnd (p : Program) (rules : Rules) : (rounds : Nat) → Run w → Option (Ending × Run w)
  | 0, _ => none
  | rounds + 1, r =>
    match r.advance p rules with
    | .running r => toEnd p rules rounds r
    | .ended ending r => some (ending, r)

theorem toEnd_add {p : Program} {rules : Rules} {rounds : Nat} {r : Run w} {x : Ending × Run w}
    (h : toEnd p rules rounds r = some x) (more : Nat) :
    toEnd p rules (rounds + more) r = some x := by
  induction rounds generalizing r with
  | zero => cases h
  | succ rounds ih =>
    rw [Nat.add_right_comm]
    unfold toEnd at h ⊢
    split at h
    · exact ih h
    · exact h

end Run

/-- What comes of executing a program. -/
structure Execution (w : Width) where
  result : Except RunError Outcome
  /-- The machine afterwards. -/
  machine : Machine w
  /-- What was logged, in order. -/
  events : Array Event

namespace Execution

variable {w : Width}

/-- What is reported of a run that ends after so many instructions; `refusal` is why the output
could not be flushed, if it could not. -/
def report (ending : Ending) (executed : Nat) (refusal : Option String) :
    Except RunError Outcome :=
  match ending, refusal with
  | .failed e, _ => .error e
  | .completed _, some cause => .error (.output cause)
  | .completed completion, none => .ok ⟨completion, executed⟩

/-- A run that is reported to complete did so, and its output could be flushed. -/
theorem report_eq_ok_iff {ending : Ending} {executed : Nat} {refusal : Option String}
    {o : Outcome} :
    report ending executed refusal = .ok o ↔
      ending = .completed o.completion ∧ refusal = none ∧ executed = o.executed := by
  obtain ⟨completion, count⟩ := o
  cases ending with
  | failed e => simp [report]
  | completed completion' => cases refusal <;> simp [report]

/-- Flush the output at the end of a run. -/
def close (ending : Ending) (r : Run w) : Execution w where
  result := report ending r.executed r.machine.output.flush.failure
  machine := r.machine.flush
  events := r.events

end Execution

/-- Run a program on a machine from its first instruction, if it ends within so many rounds. -/
def Program.execute {w : Width} (p : Program) (rules : Rules) (rounds : Nat) (m : Machine w) :
    Option (Execution w) :=
  ((Run.start m).toEnd p rules rounds).map fun (ending, r) => Execution.close ending r

end Brainfuck
