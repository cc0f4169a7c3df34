import Brainfuck.RunError
import Brainfuck.Tape

/-!
# Recovery from a move that leaves the tape

A policy takes the report of a failed move and the number of cells it was meant to go, and places
the pointer or stops the run. The place is found from the pointer in the report by arithmetic on
machine words; if a sum is not a word, the recovery is a fault.

## Main definitions

* `BoundsPolicy.recover`: what each policy does
* `BoundsPolicy.move`: a move with its recovery

## Main results

* `BoundsPolicy.move_ne_output`: the errors of a move are not those of an output
-/

namespace Brainfuck.BoundsPolicy

variable {w : Width}

/-- The remainder on a tape of `capacity` cells of going `n` cells right from `pointer`. -/
def around? (capacity pointer n : Nat) : Direction → Option Nat
  | .right => do
    let steps ← Word.mod? n capacity
    let sum ← Word.add? pointer steps
    Word.mod? sum capacity
  | .left => do
    let steps ← Word.mod? n capacity
    let sum ← Word.add? pointer capacity
    let difference ← Word.sub? sum steps
    Word.mod? difference capacity

/-- Handle a failed move of `n` cells: the tape to go on with, or what the run stops with. -/
def recover (policy : BoundsPolicy) (e : BoundsError) (n : Nat) (t : Tape w) :
    Except RunError (Tape w) :=
  match policy with
  | fatal => .error (.bounds e)
  | ignore => .ok t
  | clamp =>
    match e.direction with
    | .right => .ok (t.seek (t.capacity - 1))
    | .left => .ok (t.seek 0)
  | wrap =>
    match around? t.capacity e.pointer n e.direction with
    | some index => .ok (t.seek index)
    | none => .error (.fault .arithmetic)

/-- Move the pointer `n` cells, and recover from a move that leaves the tape. Its report comes with
the tape to go on with. -/
def move (policy : BoundsPolicy) (direction : Direction) (n : Nat) (t : Tape w) :
    Except RunError (Tape w × Option BoundsError) :=
  match t.move direction n with
  | .ok t => .ok (t, none)
  | .error e => (policy.recover e n t).map fun t => (t, some e)

/-- No move fails for the output. -/
theorem move_ne_output (policy : BoundsPolicy) (direction : Direction) (n : Nat) (t : Tape w)
    (cause : String) : policy.move direction n t ≠ .error (.output cause) := by
  have hrecover (e : BoundsError) : policy.recover e n t ≠ .error (.output cause) := by
    cases policy with
    | fatal | ignore => exact nofun
    | clamp =>
      unfold recover
      cases e.direction <;> exact nofun
    | wrap =>
      unfold recover
      dsimp only
      split <;> exact nofun
  intro h
  unfold move at h
  split at h
  · cases h
  next e _ =>
    refine hrecover e ?_
    cases hr : policy.recover e n t with
    | ok t => rw [hr] at h; cases h
    | error e => rw [hr] at h; cases h; rfl

end Brainfuck.BoundsPolicy
