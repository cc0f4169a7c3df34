import Mathlib.Data.List.Rotate
import Mathlib.Data.Nat.ModEq
import Brainfuck.Proofs.Endings
import Brainfuck.Proofs.Related

/-!
# Tapes without ends

Under the wrapping policy a move that leaves the tape goes on from the other end, so that the tape
is a ring and no place on it is special. A ring can be turned: all cells are moved on by as many
places, around the end, and the pointer with them. Then a move that stayed on the tape may lead
around its end and the other way round, but it leads to the same cell, and a program runs as before.

## Main definitions

* `Tape.RotatedBy`: a tape whose cells and pointer have been moved on around the end
* `Tape.rotate`, `Machine.rotate`: turning a tape

## Main results

* `Tape.rotatedBy_rotate`: turning a tape moves its cells and its pointer on
* `Machine.move_of_rotatedBy`: moves around the tape lead to the same cell of a turned one
* `Program.runsAlike_rotate`: a program runs alike on a turned tape, and never fails for its bounds
-/

namespace Brainfuck

variable {w : Width} {k : Nat}

/-! ## Turned tapes -/

namespace Tape

/-- The tape `t'` is `t` with all cells, and the pointer, moved on by `k` places. -/
structure RotatedBy (k : Nat) (t t' : Tape w) : Prop where
  capacity : t'.capacity = t.capacity
  /-- Behind the last place comes the first one. -/
  cell : ∀ i < t.capacity, t'.cells[(i + k) % t.capacity]? = t.cells[i]?
  pointer : t'.pointer = (t.pointer + k) % t.capacity

variable {t t' : Tape w}

/-- No two cells are moved to one place. -/
theorem eq_of_rotated {capacity i j : Nat} (hi : i < capacity) (hj : j < capacity)
    (h : (i + k) % capacity = (j + k) % capacity) : i = j :=
  (Nat.ModEq.add_right_cancel' k h).eq_of_lt_of_lt hi hj

namespace RotatedBy

theorem current (h : t.RotatedBy k t') : t'.current = t.current := by
  have hcell := h.cell t.pointer t.pointer_lt
  rw [← h.pointer, Array.getElem?_eq_getElem t'.pointer_lt,
    Array.getElem?_eq_getElem t.pointer_lt] at hcell
  exact Option.some.inj hcell

theorem isZero (h : t.RotatedBy k t') : t'.isZero = t.isZero := by
  rw [Tape.isZero, Tape.isZero, h.current]

/-- The current cell is the same one, wherever it is. -/
theorem modify (h : t.RotatedBy k t') (f : Cell w → Cell w) :
    (t.modify f).RotatedBy k (t'.modify f) where
  capacity := by rw [capacity_modify, capacity_modify, h.capacity]
  cell := by
    rw [capacity_modify]
    intro i hi
    show (t'.cells.modify t'.pointer f)[_]? = (t.cells.modify t.pointer f)[i]?
    rw [Array.getElem?_modify, Array.getElem?_modify, h.cell i hi, h.pointer]
    -- The pointer has come to the place of `i` exactly if it was at `i`.
    by_cases hp : t.pointer = i
    · rw [if_pos hp, if_pos (congrArg (fun i => (i + k) % t.capacity) hp)]
    · have hne : (t.pointer + k) % t.capacity ≠ (i + k) % t.capacity :=
        fun he => hp (eq_of_rotated t.pointer_lt_capacity hi he)
      rw [if_neg hp, if_neg hne]
  pointer := by rw [capacity_modify, pointer_modify, pointer_modify, h.pointer]

/-- A move around a turned tape leads as many places further on. -/
theorem land?_wrap (h : t.RotatedBy k t') {offset : Int} {i : Nat}
    (hl : BoundsPolicy.wrap.land? t.capacity t.pointer offset = some i) :
    BoundsPolicy.wrap.land? t'.capacity t'.pointer offset = some ((i + k) % t.capacity) := by
  have hne : (t.capacity : Int) ≠ 0 := Int.natCast_ne_zero.mpr (Nat.ne_of_gt t.capacity_pos)
  rw [BoundsPolicy.land?_wrap] at hl
  -- As an integer, the place is the remainder of the sum.
  have hi : (i : Int) = (t.pointer + offset) % t.capacity := by
    rw [← Option.some.inj hl, Int.toNat_of_nonneg (Int.emod_nonneg _ hne)]
  have hsum : ((t.pointer + k) % t.capacity + offset) % t.capacity =
      (((i + k) % t.capacity : Nat) : Int) := by
    rw [Int.natCast_emod, Int.natCast_add, hi, Int.emod_add_emod, Int.emod_add_emod,
      Int.add_right_comm]
  rw [BoundsPolicy.land?_wrap, h.capacity, h.pointer, Int.natCast_emod, Int.natCast_add, hsum,
    Int.toNat_natCast]

theorem seek {i : Nat} (h : t.RotatedBy k t') (hi : i < t.capacity) :
    (t.seek i).RotatedBy k (t'.seek ((i + k) % t.capacity)) where
  capacity := h.capacity
  cell := h.cell
  pointer := by
    have hlt : (i + k) % t.capacity < t'.capacity := by
      rw [h.capacity]
      exact Nat.mod_lt _ t.capacity_pos
    rw [pointer_seek_of_lt hlt, pointer_seek_of_lt hi, capacity_seek]

end RotatedBy

theorem respectsCells_rotatedBy (k : Nat) :
    RespectsCells (RotatedBy k : Tape w → Tape w → Prop) where
  increase := fun h _ => h.modify _
  decrease := fun h _ => h.modify _
  write := fun h _ => h.modify _
  lowByte := fun h => congrArg Cell.lowByte h.current

/-! ## Turning a tape -/

/-- Move all cells, and the pointer, on by `k` places. -/
def rotate (k : Nat) (t : Tape w) : Tape w where
  cells := (t.cells.toList.rotate (t.capacity - k % t.capacity)).toArray
  pointer := (t.pointer + k) % t.capacity
  pointer_lt := by
    rw [List.size_toArray, List.length_rotate, Array.length_toList]
    exact Nat.mod_lt _ t.capacity_pos
  size_lt := by
    rw [List.size_toArray, List.length_rotate, Array.length_toList]
    exact t.size_lt

/-- Going on and then back leads to where it started. -/
theorem rotated_back {capacity i : Nat} (hi : i < capacity) (k : Nat) :
    ((i + k) % capacity + (capacity - k % capacity)) % capacity = i := by
  have hlt : k % capacity < capacity := Nat.mod_lt k (Nat.zero_lt_of_lt hi)
  have hdiv := Nat.mod_add_div k capacity
  have hsum : i + k + (capacity - k % capacity) = i + capacity * (k / capacity + 1) := by
    rw [Nat.mul_add]
    omega
  rw [Nat.mod_add_mod, hsum, Nat.add_mul_mod_self_left, Nat.mod_eq_of_lt hi]

/-- **Turning a tape moves its cells and its pointer on.** -/
theorem rotatedBy_rotate (k : Nat) (t : Tape w) : t.RotatedBy k (t.rotate k) where
  capacity := by
    show (t.cells.toList.rotate _).toArray.size = t.cells.size
    rw [List.size_toArray, List.length_rotate, Array.length_toList]
  cell := by
    intro i hi
    have hlt : (i + k) % t.capacity < t.cells.toList.length := Nat.mod_lt _ t.capacity_pos
    show (t.cells.toList.rotate _).toArray[_]? = _
    rw [List.getElem?_toArray, List.getElem?_rotate hlt, Array.length_toList,
      Array.getElem?_toList]
    exact congrArg (t.cells[·]?) (rotated_back hi k)
  pointer := rfl

/-- The last cell and the pointer come around to the front. -/
example : (⟨#[1, 2, 3], 2, by decide, by decide⟩ : Tape .byte).rotate 4 =
    ⟨#[3, 1, 2], 0, by decide, by decide⟩ := by
  decide

end Tape

/-! ## Turned machines -/

namespace Machine

/-- A machine with its tape turned. -/
def rotate (k : Nat) (m : Machine w) : Machine w :=
  { m with tape := m.tape.rotate k }

variable {I : Input → Input → Prop} {O : Output → Output → Prop} {m m' : Machine w}

/-- **Moves around the tape** lead to the same cell of a turned one. -/
theorem move_of_rotatedBy (h : Related (Tape.RotatedBy k) I O m m') (d : Direction) (n : Nat) :
    Effect.Alike (Related (Tape.RotatedBy k) I O) (m.move .wrap d n) (m'.move .wrap d n) := by
  have hl : BoundsPolicy.wrap.land? m.tape.capacity m.tape.pointer (d.offset n) = _ :=
    BoundsPolicy.land?_wrap _
  obtain ⟨event, hm⟩ := move_of_land?_eq_some hl
  obtain ⟨event', hm'⟩ := move_of_land?_eq_some (h.tape.land?_wrap hl)
  have hlt := BoundsPolicy.lt_of_land? m.tape.pointer_lt_capacity hl
  rw [hm, hm']
  exact .done ⟨h.tape.seek hlt, h.input, h.output, h.cancelled⟩

end Machine

/-! ## Runs -/

namespace Run

/-- **A round on a turned tape** comes to the same. -/
theorem Alike.advance_of_rotatedBy {p : Program} {heedsCancel : Bool} {r r' : Run w}
    (h : Alike (Machine.Related (Tape.RotatedBy k) Eq Eq) r r') :
    Next.Alike (Alike (Machine.Related (Tape.RotatedBy k) Eq Eq))
      (r.advance p ⟨.wrap, heedsCancel⟩) (r'.advance p ⟨.wrap, heedsCancel⟩) := by
  refine h.advance_of_move (Tape.respectsCells_rotatedBy k) Input.respectsReads_eq ?_ ?_ ?_
  · exact Machine.move_of_rotatedBy h.machine
  · intro _ _ _ _
    exact h.machine.tape.isZero
  · intro _ _ _ _ b
    rw [← h.machine.output]
    exact Output.Writing.alike_eq _

theorem lockstep_rotatedBy (p : Program) (heedsCancel : Bool) (k : Nat) :
    Lockstep p ⟨.wrap, heedsCancel⟩ ⟨.wrap, heedsCancel⟩ (fun _ => False)
      (Alike (Machine.Related (Tape.RotatedBy k : Tape w → Tape w → Prop) Eq Eq)) :=
  fun _ _ h => Or.inr h.advance_of_rotatedBy

end Run

namespace Program

/-- **The tape is a ring under the wrapping policy.** From a tape that was turned, a program runs as
from the tape itself: after as many rounds it is at the same instruction, on the tape it would have
been on, turned as far, and both executions have the same end or none. No execution fails because a
move leaves the tape. -/
theorem runsAlike_rotate (p : Program) (heedsCancel : Bool) (k : Nat) (m : Machine w) :
    p.RunsAlike ⟨.wrap, heedsCancel⟩ (Machine.Related (Tape.RotatedBy k) Eq Eq) m (m.rotate k) ∧
    ∀ rounds e, (p.execute ⟨.wrap, heedsCancel⟩ rounds m).map Execution.result ≠
      some (.error (.bounds e)) := by
  constructor
  · exact (Run.lockstep_rotatedBy p heedsCancel k).runsAlike (fun _ _ h => h)
      Machine.respectsFlush_eq (Run.alike_start ⟨m.tape.rotatedBy_rotate k, rfl, rfl, rfl⟩)
  · intro rounds e h
    obtain ⟨x, hx, he⟩ := Option.map_eq_some_iff.mp h
    obtain ⟨j, s, ending, last, hs, ha, rfl⟩ := Run.exists_steps_of_execute hx
    obtain ⟨hp, -⟩ := (Execution.leftBy_close hs ha).bounds he
    cases hp

end Program

end Brainfuck
