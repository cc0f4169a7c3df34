/-!
# Output streams

An output stream is a device with what was written to it. How the device answers a byte depends on
the position of the byte, that is, on how many bytes were accepted before. For each byte it may
first interrupt a finite number of calls, which are tried again, and then it accepts the byte or
fails. The call may ask the run to stop in either case, and so may a flush.

A device is what a stream does up to its next flush. Behind each flush the stream goes on as another
device, which may answer the same position in another way. No device looks at the bytes themselves:
it stands for a stream as a run meets it, where the bytes before a position are given. A stream that
interrupts one byte without end is left out, since writing to it never comes to anything.

## Main definitions

* `Device`: the behaviour of the far end up to the next flush
* `Output`: a stream with what it has accepted and refused, and when it was flushed
* `Output.write`: writing one byte
* `Output.flush`: flushing

## Main results

* `Output.write_eq_attempt`: interrupted calls leave no trace
-/

namespace Brainfuck

/-- How a device settles a call to write one byte. -/
inductive WriteAnswer
  | accept
  /-- The call fails. -/
  | refuse (cause : String)
  /-- The call returns without taking the byte. -/
  | takeNothing
  deriving DecidableEq, Repr

/-- The behaviour of the far end of an output stream, up to its next flush. Positions count the bytes
accepted. -/
structure Device where
  /-- How many calls are interrupted before the byte at a position is settled. -/
  interruptions : Nat → Nat
  /-- How the byte at a position is settled. -/
  answer : Nat → WriteAnswer
  /-- Whether the run is asked to stop when so many bytes have been accepted. -/
  cancelsAt : Nat → Bool
  /-- Whether the run is asked to stop by the call that fails at a position. -/
  cancelsFailing : Nat → Bool
  /-- Why flushing fails, if it does. -/
  flushFailure : Option String
  /-- Whether the run is asked to stop by the flush. -/
  cancelsFlush : Bool

namespace Device

/-- The device that accepts everything. -/
def unlimited : Device where
  interruptions _ := 0
  answer _ := .accept
  cancelsAt _ := false
  cancelsFailing _ := false
  flushFailure := none
  cancelsFlush := false

/-- The device that interrupts the first call for every byte. -/
def interrupting (d : Device) : Device :=
  { d with interruptions := fun _ => 1 }

/-- The device that fails once it has accepted `n` bytes. -/
def refusingAfter (n : Nat) (cause : String) (d : Device) : Device :=
  { d with answer := fun position => if n ≤ position then .refuse cause else d.answer position }

/-- The device that takes nothing more once it has accepted `n` bytes. -/
def takingOnly (n : Nat) (d : Device) : Device :=
  { d with answer := fun position => if n ≤ position then .takeNothing else d.answer position }

/-- The device that asks the run to stop with every byte from the `n`th on. -/
def cancellingFrom (n : Nat) (d : Device) : Device :=
  { d with cancelsAt := fun accepted => decide (n ≤ accepted) }

/-- The device that cannot be flushed. -/
def refusingFlush (cause : String) (d : Device) : Device :=
  { d with flushFailure := some cause }

end Device

/-- A stream with what was written to it. -/
structure Output where
  /-- What the stream does up to its next flush. -/
  device : Device
  /-- What it does behind each of the flushes to come. -/
  later : Nat → Device
  /-- The bytes accepted so far. -/
  written : Array UInt8
  /-- For every byte that was not accepted, its position. -/
  refusals : List Nat
  /-- For every flush, how many bytes had been accepted. -/
  flushes : List Nat

namespace Output

/-- The stream to a device that nothing was written to, and that no flush changes. -/
def ofDevice (device : Device) : Output :=
  ⟨device, fun _ => device, #[], [], []⟩

/-- The stream after a byte that it did not accept. -/
def refused (o : Output) : Output :=
  { o with refusals := o.refusals ++ [o.written.size] }

/-- What comes of writing a byte. The run may have been asked to stop. -/
inductive Writing
  | done (output : Output) (cancelled : Bool)
  | failed (output : Output) (cause : String) (cancelled : Bool)

/-- A call to write one byte that is not interrupted. -/
def attempt (b : UInt8) (o : Output) : Writing :=
  let position := o.written.size
  match o.device.answer position with
  | .accept => .done { o with written := o.written.push b } (o.device.cancelsAt (position + 1))
  | .refuse cause => .failed o.refused cause (o.device.cancelsFailing position)
  | .takeNothing =>
    .failed o.refused "failed to write whole buffer" (o.device.cancelsFailing position)

/-- Try to write one byte while so many calls are interrupted. -/
def writeWith (b : UInt8) (o : Output) : (interruptions : Nat) → Writing
  | 0 => attempt b o
  | interruptions + 1 => writeWith b o interruptions

/-- Write one byte. -/
def write (b : UInt8) (o : Output) : Writing :=
  writeWith b o (o.device.interruptions o.written.size)

/-- What comes of flushing. -/
structure Flushing where
  output : Output
  /-- Why it failed, if it did. -/
  failure : Option String
  /-- Whether the run was asked to stop. -/
  cancelled : Bool

/-- Flush the stream, which goes on as the next device. -/
def flush (o : Output) : Flushing where
  output :=
    { o with
      device := o.later 0
      later := fun n => o.later (n + 1)
      flushes := o.flushes ++ [o.written.size] }
  failure := o.device.flushFailure
  cancelled := o.device.cancelsFlush

theorem writeWith_eq_attempt (b : UInt8) (o : Output) (n : Nat) :
    writeWith b o n = attempt b o := by
  induction n with
  | zero => rfl
  | succ n ih => exact ih

theorem write_eq_attempt (b : UInt8) (o : Output) : write b o = attempt b o :=
  writeWith_eq_attempt b o _

end Output

end Brainfuck
