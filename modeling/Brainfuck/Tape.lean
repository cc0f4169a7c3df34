import Brainfuck.Cell
import Brainfuck.Word
import Brainfuck.Tape.Bounds

/-!
# Tapes

A tape is a row of cells with a pointer to one of them, the current cell. The pointer is always on
the tape. A tape has less than `2 ^ 63` cells, so that a pointer and a capacity can be added without
leaving the machine words.

## Main definitions

* `Tape`: cells of one width with a pointer
* `Tape.blank`: the tape of zeros
* `Tape.current`, `Tape.write`, `Tape.increase`, `Tape.decrease`: the current cell
* `Tape.move`: moving the pointer, which fails at either end
* `Tape.seek`: placing the pointer

## Main results

* `Tape.capacity_pos`: a tape is never empty
* `Tape.move_eq_ok_iff`: a move that stays on the tape changes the pointer alone
* `Tape.move_eq_error_iff`: a move that leaves the tape reports where it started
-/

namespace Brainfuck

/-- The number of cells of a tape stays below this bound, which is `2 ^ 63`. -/
def Tape.bound : Nat := 9223372036854775808

/-- Cells of width `w`, and a pointer to one of them. -/
structure Tape (w : Width) where
  cells : Array (Cell w)
  pointer : Nat
  pointer_lt : pointer < cells.size
  size_lt : cells.size < Tape.bound
  deriving DecidableEq

namespace Tape

variable {w : Width}

/-- The tape of `capacity` zeros, with the pointer at the first. -/
def blank (w : Width) (capacity : Nat) (pos : 0 < capacity) (lt : capacity < bound) : Tape w where
  cells := Array.replicate capacity 0
  pointer := 0
  pointer_lt := by simpa using pos
  size_lt := by simpa using lt

/-- The number of cells. -/
def capacity (t : Tape w) : Nat :=
  t.cells.size

/-- A tape is its cells and its pointer. -/
@[ext]
theorem ext {t t' : Tape w} (hc : t.cells = t'.cells) (hp : t.pointer = t'.pointer) : t = t' := by
  cases t
  cases t'
  cases hc
  cases hp
  rfl

theorem pointer_lt_capacity (t : Tape w) : t.pointer < t.capacity :=
  t.pointer_lt

theorem capacity_pos (t : Tape w) : 0 < t.capacity :=
  Nat.lt_of_le_of_lt (Nat.zero_le _) t.pointer_lt

/-! ## The current cell -/

/-- The cell at the pointer. -/
def current (t : Tape w) : Cell w :=
  getElem t.cells t.pointer t.pointer_lt

/-- Change the current cell. -/
def modify (f : Cell w → Cell w) (t : Tape w) : Tape w where
  cells := t.cells.modify t.pointer f
  pointer := t.pointer
  pointer_lt := by simpa using t.pointer_lt
  size_lt := by simpa using t.size_lt

def write (c : Cell w) (t : Tape w) : Tape w :=
  t.modify fun _ => c

def increase (n : Nat) (t : Tape w) : Tape w :=
  t.modify (Cell.increase · n)

def decrease (n : Nat) (t : Tape w) : Tape w :=
  t.modify (Cell.decrease · n)

/-- The current cell holds zero. -/
def isZero (t : Tape w) : Bool :=
  t.current == 0

@[simp]
theorem pointer_modify (f : Cell w → Cell w) (t : Tape w) : (t.modify f).pointer = t.pointer := rfl

@[simp]
theorem capacity_modify (f : Cell w → Cell w) (t : Tape w) :
    (t.modify f).capacity = t.capacity := by
  simp [capacity, modify]

@[simp]
theorem current_modify (f : Cell w → Cell w) (t : Tape w) :
    (t.modify f).current = f t.current := by
  simp [current, modify, Array.getElem_modify]

theorem modify_modify (f g : Cell w → Cell w) (t : Tape w) :
    (t.modify f).modify g = t.modify fun c => g (f c) := by
  apply Tape.ext
  · apply Array.ext
    · simp [modify]
    · intro i h h'
      simp only [modify, Array.getElem_modify]
      split <;> rfl
  · rfl

@[simp]
theorem write_modify (c : Cell w) (f : Cell w → Cell w) (t : Tape w) :
    (t.modify f).write c = t.write c :=
  modify_modify f _ t

@[simp]
theorem write_current (t : Tape w) : t.write t.current = t := by
  apply Tape.ext
  · apply Array.ext
    · simp [write, modify]
    · intro i h h'
      simp only [write, modify, Array.getElem_modify]
      split
      next hi =>
        subst hi
        rfl
      next => rfl
  · rfl

theorem isZero_iff {t : Tape w} : t.isZero = true ↔ t.current = 0 :=
  beq_iff_eq

/-! ## The pointer -/

/-- Place the pointer at `index`, or at the last cell if there is no such cell. -/
def seek (index : Nat) (t : Tape w) : Tape w where
  cells := t.cells
  pointer := min index (t.cells.size - 1)
  pointer_lt := by have := t.capacity_pos; unfold capacity at this; omega
  size_lt := t.size_lt

@[simp]
theorem capacity_seek (index : Nat) (t : Tape w) : (t.seek index).capacity = t.capacity := rfl

theorem pointer_seek_of_lt {index : Nat} {t : Tape w} (h : index < t.capacity) :
    (t.seek index).pointer = index := by
  unfold capacity at h
  show min index (t.cells.size - 1) = index
  omega

@[simp]
theorem seek_pointer (t : Tape w) : t.seek t.pointer = t := by
  apply Tape.ext
  · rfl
  · exact pointer_seek_of_lt t.pointer_lt

/-- The pointer after a move of `n` cells, if that is a word and on the tape. -/
def destination? (t : Tape w) (direction : Direction) (n : Nat) : Option Nat :=
  match direction with
  | .right => (Word.add? t.pointer n).filter (· < t.capacity)
  | .left => Word.sub? t.pointer n

theorem lt_of_destination? {t : Tape w} {direction : Direction} {n next : Nat}
    (h : t.destination? direction n = some next) : next < t.cells.size := by
  cases direction with
  | right =>
    obtain ⟨-, h⟩ := Option.filter_eq_some_iff.1 h
    exact of_decide_eq_true h
  | left =>
    have hp := t.pointer_lt
    have := Word.sub?_eq_some_iff.1 h
    omega

/-- Move the pointer `n` cells. A move that would leave the tape fails, and reports where it
started. -/
def move (direction : Direction) (n : Nat) (t : Tape w) : Except BoundsError (Tape w) :=
  match h : t.destination? direction n with
  | some next => .ok { t with pointer := next, pointer_lt := lt_of_destination? h }
  | none => .error ⟨t.pointer, direction⟩

theorem move_eq_ok_iff {direction : Direction} {n : Nat} {t t' : Tape w} :
    t.move direction n = .ok t' ↔
      t'.cells = t.cells ∧ t.destination? direction n = some t'.pointer := by
  unfold move
  split
  next next h =>
    constructor
    · intro e
      obtain rfl := Except.ok.inj e
      exact ⟨rfl, h⟩
    · rintro ⟨hc, hp⟩
      obtain rfl := Option.some.inj (h.symm.trans hp)
      cases t'
      cases hc
      rfl
  next h => simp [h]

theorem move_eq_error_iff {direction : Direction} {n : Nat} {t : Tape w} {e : BoundsError} :
    t.move direction n = .error e ↔
      t.destination? direction n = none ∧ e = ⟨t.pointer, direction⟩ := by
  unfold move
  split
  next h => simp [h]
  next h => simp [h, eq_comm]

/-- The cells that differ from zero, with their indices. -/
def nonzero (t : Tape w) : List (Nat × Cell w) :=
  t.cells.toList.zipIdx.filterMap fun (c, index) => if c = 0 then none else some (index, c)

end Tape

end Brainfuck
