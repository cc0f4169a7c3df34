import Brainfuck.Name

/-!
# Cells

A tape has cells of one width: eight, sixteen or thirty-two bits. Arithmetic on a cell wraps at its
width. Bytes are read into a cell without sign, and the low byte of a cell is written.

## Main definitions

* `Width`: the three widths
* `Width.modulus`: the number of values of a cell
* `Cell`: a cell of a given width
* `Cell.increase`, `Cell.decrease`: arithmetic
* `Cell.ofByte`, `Cell.lowByte`: bytes in and out

## Main results

* `Cell.toNat_increase`, `Cell.toNat_decrease`: arithmetic is modulo the width
-/

namespace Brainfuck

/-- The width of the cells of a tape. -/
inductive Width
  /-- Eight bits. -/
  | byte
  /-- Sixteen bits. -/
  | short
  /-- Thirty-two bits. -/
  | integer
  deriving DecidableEq, Repr

namespace Width

def all : List Width :=
  [byte, short, integer]

/-- The number of bits. -/
def bits : Width → Nat
  | byte => 8
  | short => 16
  | integer => 32

/-- The number of values of a cell. -/
def modulus : Width → Nat
  | byte => 256
  | short => 65536
  | integer => 4294967296

def name : Width → String
  | byte => "Byte"
  | short => "Short"
  | integer => "Integer"

/-- A width is shown as its number of bits. -/
def text (w : Width) : String :=
  Nat.repr w.bits

/-- The width that is called for by its number of bits or, up to case, by its name. -/
def ofText? (text : String) : Option Width :=
  all.find? fun w => w.text == text || Name.agree w.name text

theorem mem_all (w : Width) : w ∈ all := by
  cases w <;> decide

theorem modulus_eq (w : Width) : w.modulus = Nat.pow 2 w.bits := by
  cases w <;> rfl

end Width

/-- A cell of width `w`. -/
abbrev Cell (w : Width) := BitVec w.bits

namespace Cell

variable {w : Width}

def increase (c : Cell w) (n : Nat) : Cell w :=
  c + BitVec.ofNat w.bits n

def decrease (c : Cell w) (n : Nat) : Cell w :=
  c - BitVec.ofNat w.bits n

/-- The cell that holds a byte. -/
def ofByte (w : Width) (b : UInt8) : Cell w :=
  BitVec.ofNat w.bits b.toNat

/-- The lowest eight bits of a cell. -/
def lowByte (c : Cell w) : UInt8 :=
  UInt8.ofNat c.toNat

theorem toNat_lt (c : Cell w) : c.toNat < w.modulus := by
  rw [Width.modulus_eq]
  exact c.isLt

theorem toNat_ofNat (w : Width) (n : Nat) : (BitVec.ofNat w.bits n).toNat = n % w.modulus := by
  rw [Width.modulus_eq]
  exact BitVec.toNat_ofNat n w.bits

theorem toNat_increase (c : Cell w) (n : Nat) :
    (increase c n).toNat = (c.toNat + n) % w.modulus := by
  have h := BitVec.toNat_add c (BitVec.ofNat w.bits n)
  rw [toNat_ofNat] at h
  change _ = _ % Nat.pow 2 w.bits at h
  rw [← Width.modulus_eq, Nat.add_mod_mod] at h
  exact h

theorem toNat_decrease (c : Cell w) (n : Nat) :
    (decrease c n).toNat = (c.toNat + (w.modulus - n % w.modulus)) % w.modulus := by
  have h := BitVec.toNat_sub c (BitVec.ofNat w.bits n)
  rw [toNat_ofNat, Nat.add_comm] at h
  change _ = (_ + (Nat.pow 2 w.bits - _)) % Nat.pow 2 w.bits at h
  rw [← Width.modulus_eq] at h
  exact h

theorem increase_increase (c : Cell w) (m n : Nat) :
    increase (increase c m) n = increase c (m + n) := by
  unfold increase
  rw [BitVec.ofNat_add, BitVec.add_assoc]

theorem decrease_decrease (c : Cell w) (m n : Nat) :
    decrease (decrease c m) n = decrease c (m + n) := by
  unfold decrease
  rw [BitVec.ofNat_add, BitVec.sub_sub]

/-- One less is closer to zero, unless it wraps. -/
theorem toNat_decrease_one_lt {c : Cell w} (h : c ≠ 0) : (decrease c 1).toNat < c.toNat := by
  have hc : c.toNat ≠ 0 := fun h₀ => h (BitVec.eq_of_toNat_eq h₀)
  have hlt := toNat_lt c
  rw [toNat_decrease]
  cases w <;> simp only [Width.modulus] at hlt ⊢ <;> omega

/-- One more is closer to wrapping to zero. -/
theorem modulus_sub_toNat_increase_one_lt {c : Cell w} (h : c ≠ 0) :
    (w.modulus - (increase c 1).toNat) % w.modulus < (w.modulus - c.toNat) % w.modulus := by
  have hc : c.toNat ≠ 0 := fun h₀ => h (BitVec.eq_of_toNat_eq h₀)
  have hlt := toNat_lt c
  rw [toNat_increase]
  cases w <;> simp only [Width.modulus] at hlt ⊢ <;> omega

end Cell

end Brainfuck
