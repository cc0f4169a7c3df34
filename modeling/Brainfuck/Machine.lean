import Brainfuck.Event
import Brainfuck.Instruction
import Brainfuck.Stream.Input
import Brainfuck.Stream.Output
import Brainfuck.Tape.Recovery

/-!
# The machine

Instructions act on a machine: a tape, an input, an output, and a flag that asks the run to stop.
Every instruction has its effect as a whole or, if it fails, none at all: a byte that the output does
not accept leaves a trace in the output, which may have asked the run to stop, and a move that fails
leaves none. The loop brackets have no effect on the machine; where they lead is up to the run.

## Main definitions

* `Machine`: what instructions act on
* `Machine.Effect`: what comes of an instruction
* `Machine.exec`: the effect of an instruction
* `Machine.failedBy`: what an instruction that fails leaves
* `Machine.flush`: flushing the output

## Main results

* `Machine.eq_of_exec_failed`: an instruction that fails leaves tape, input and what was written as
  they were
-/

namespace Brainfuck

/-- What instructions act on. -/
structure Machine (w : Width) where
  tape : Tape w
  input : Input
  output : Output
  /-- Whether the run has been asked to stop. -/
  cancelled : Bool

namespace Machine

variable {w : Width}

/-- What comes of an instruction. -/
inductive Effect (w : Width)
  /-- It was executed, and may have something to log. -/
  | done (m : Machine w) (event : Option Event)
  | failed (m : Machine w) (e : RunError)

/-- Move the pointer `n` cells under a policy, and log a move that leaves the tape. -/
def move (policy : BoundsPolicy) (direction : Direction) (n : Nat) (m : Machine w) : Effect w :=
  match policy.move direction n m.tape with
  | .ok (tape, report) =>
    .done { m with tape } (report.map fun e => .recovered policy e tape.pointer)
  | .error e => .failed m e

/-- Read one byte into the current cell. -/
def read (m : Machine w) : Effect w :=
  let reading := m.input.read
  .done
    { m with
      tape := m.tape.write (Cell.ofByte w reading.byte)
      input := reading.rest
      cancelled := m.cancelled || reading.cancelled }
    (reading.failure.map .readFailed)

/-- Write the low byte of the current cell. -/
def print (m : Machine w) : Effect w :=
  match m.output.write (Cell.lowByte m.tape.current) with
  | .done output cancelled => .done { m with output, cancelled := m.cancelled || cancelled } none
  | .failed output cause cancelled =>
    .failed { m with output, cancelled := m.cancelled || cancelled } (.output cause)

/-- The effect of an instruction. -/
def exec (policy : BoundsPolicy) (i : Instruction) (m : Machine w) : Effect w :=
  match i.op with
  | .inc => .done { m with tape := m.tape.increase i.count } none
  | .dec => .done { m with tape := m.tape.decrease i.count } none
  | .right => m.move policy .right i.count
  | .left => m.move policy .left i.count
  | .loopStart => .done m none
  | .loopEnd => .done m none
  | .input => m.read
  | .output => m.print
  | .clear => .done { m with tape := m.tape.write 0 } none

/-- The machine after a byte that its output did not accept. -/
def refused (m : Machine w) : Machine w :=
  { m with
    output := m.output.refused
    cancelled := m.cancelled || m.output.device.cancelsFailing m.output.written.size }

/-- The machine after an instruction that failed with an error. -/
def failedBy (e : RunError) (m : Machine w) : Machine w :=
  match e with
  | .output _ => m.refused
  | .bounds _ | .fault _ => m

/-- The machine with its output flushed. -/
def flush (m : Machine w) : Machine w :=
  { m with
    output := m.output.flush.output
    cancelled := m.cancelled || m.output.flush.cancelled }

section FailedBy

variable (e : RunError) (m : Machine w)

@[simp] theorem tape_failedBy : (m.failedBy e).tape = m.tape := by cases e <;> rfl

@[simp] theorem input_failedBy : (m.failedBy e).input = m.input := by cases e <;> rfl

@[simp] theorem device_failedBy : (m.failedBy e).output.device = m.output.device := by
  cases e <;> rfl

@[simp] theorem written_failedBy : (m.failedBy e).output.written = m.output.written := by
  cases e <;> rfl

@[simp] theorem flushes_failedBy : (m.failedBy e).output.flushes = m.output.flushes := by
  cases e <;> rfl

end FailedBy

/-- The loop brackets have no effect on the machine. -/
theorem exec_of_isBracket {policy : BoundsPolicy} {i : Instruction} {m : Machine w}
    (h : i.op.IsBracket) : m.exec policy i = .done m none := by
  unfold exec
  rcases h with h | h <;> rw [h]

theorem move_ne_output {policy : BoundsPolicy} {direction : Direction} {n : Nat} {m m' : Machine w}
    {cause : String} : m.move policy direction n ≠ .failed m' (.output cause) := by
  intro h
  unfold move at h
  split at h
  · cases h
  next he =>
    obtain ⟨-, rfl⟩ := Effect.failed.inj h
    exact policy.move_ne_output direction n m.tape cause he

theorem eq_of_move_failed {policy : BoundsPolicy} {direction : Direction} {n : Nat}
    {m m' : Machine w} {e : RunError} (h : m.move policy direction n = .failed m' e) :
    m' = m.failedBy e := by
  cases e with
  | output cause => exact absurd h move_ne_output
  | bounds | fault =>
    unfold move at h
    split at h <;> cases h
    rfl

theorem eq_of_print_failed {m m' : Machine w} {e : RunError} (h : m.print = .failed m' e) :
    m' = m.failedBy e := by
  unfold print at h
  rw [Output.write_eq_attempt] at h
  unfold Output.attempt at h
  dsimp only at h
  cases ha : m.output.device.answer m.output.written.size with
  | accept => rw [ha] at h; cases h
  | refuse cause => rw [ha] at h; cases h; rfl
  | takeNothing => rw [ha] at h; cases h; rfl

/-- **An instruction that fails** leaves the machine as it was, but for the trace of a byte that was
not accepted. -/
theorem eq_of_exec_failed {policy : BoundsPolicy} {i : Instruction} {m m' : Machine w}
    {e : RunError} (h : m.exec policy i = .failed m' e) : m' = m.failedBy e := by
  unfold exec at h
  split at h
  case h_3 => exact eq_of_move_failed h
  case h_4 => exact eq_of_move_failed h
  case h_8 => exact eq_of_print_failed h
  all_goals cases h

theorem print_failedBy {m : Machine w} {e : RunError} (h : m.print = .failed (m.failedBy e) e) :
    (m.failedBy e).print = .failed ((m.failedBy e).failedBy e) e := by
  unfold print at h ⊢
  rw [Output.write_eq_attempt] at h ⊢
  unfold Output.attempt at h ⊢
  simp only [tape_failedBy, device_failedBy, written_failedBy] at h ⊢
  cases ha : m.output.device.answer m.output.written.size with
  | accept => rw [ha] at h; cases h
  | refuse cause =>
    rw [ha] at h
    obtain ⟨-, rfl⟩ := Effect.failed.inj h
    rfl
  | takeNothing =>
    rw [ha] at h
    obtain ⟨-, rfl⟩ := Effect.failed.inj h
    rfl

/-- An instruction that fails fails again. -/
theorem exec_failedBy {policy : BoundsPolicy} {i : Instruction} {m : Machine w} {e : RunError}
    (h : m.exec policy i = .failed (m.failedBy e) e) :
    (m.failedBy e).exec policy i = .failed ((m.failedBy e).failedBy e) e := by
  cases e with
  | bounds | fault => exact h
  | output cause =>
    unfold exec at h ⊢
    split at h
    case h_3 => exact absurd h move_ne_output
    case h_4 => exact absurd h move_ne_output
    case h_8 => exact print_failedBy h
    all_goals cases h

end Machine

end Brainfuck
