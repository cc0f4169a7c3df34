import Brainfuck.Error
import Brainfuck.Tape

/-!
# Configurations

A configuration says which tape a program runs on and what happens at its ends.

## Main definitions

* `Config`: width, capacity and bounds policy
* `Config.tape`: the blank tape of a configuration
* `Config.width?`, `Config.policy?`: settings given as text

## Main results

* `Config.validate_eq_ok_iff`: a configuration is valid exactly if it has cells
-/

namespace Brainfuck

/-- The tape that a program runs on and its bounds policy. -/
structure Config where
  width : Width := .byte
  capacity : Nat := 30000
  policy : BoundsPolicy := .fatal
  deriving DecidableEq, Repr

namespace Config

/-- A width given as text. -/
def width? (text : String) : Except ConfigError Width :=
  match Width.ofText? text with
  | some width => .ok width
  | none => .error (.unknownWidth text)

/-- A bounds policy given as text. -/
def policy? (text : String) : Except ConfigError BoundsPolicy :=
  match BoundsPolicy.ofName? text with
  | some policy => .ok policy
  | none => .error (.unknownPolicy text)

/-- A tape needs at least one cell. -/
def validate (c : Config) : Except ConfigError Unit :=
  if c.capacity = 0 then .error .noCells else .ok ()

/-- Whether the cells of the tape can be addressed byte by byte in half of the machine words. -/
def Fits (c : Config) : Prop :=
  c.capacity * (c.width.bits / 8) < Tape.bound

instance (c : Config) : Decidable c.Fits :=
  inferInstanceAs (Decidable (_ < _))

theorem Fits.capacity_lt {c : Config} (h : c.Fits) : c.capacity < Tape.bound := by
  have pos : 0 < c.width.bits / 8 := by cases c.width <;> decide
  exact Nat.lt_of_le_of_lt (Nat.le_mul_of_pos_right _ pos) h

/-- The blank tape of a configuration: none without cells, and none that does not fit. -/
def tape (c : Config) : Except Error (Tape c.width) :=
  if pos : c.capacity = 0 then .error (.config .noCells)
  else if fits : c.Fits then .ok (.blank c.width c.capacity (by omega) fits.capacity_lt)
  else .error (.run (.fault .allocation))

theorem validate_eq_ok_iff {c : Config} : c.validate = .ok () ↔ 0 < c.capacity := by
  unfold validate
  split <;> simp <;> omega

end Config

end Brainfuck
