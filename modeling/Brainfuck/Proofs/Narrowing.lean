import Brainfuck.Proofs.Related

/-!
# Narrower cells

The low bits of a sum, a difference, a byte and zero do not depend on the bits above them. So a
program can be run on narrower cells, and as long as it goes through the same instructions it has
the low bits of the wider cells in them. Only a bracket can tell the two apart: when it finds a cell
that is not zero and has all its low bits zero.

## Main definitions

* `Cell.narrow`: the low bits of a cell
* `Tape.NarrowsTo`: a tape with the low bits of the cells of another one
* `Run.TellsZero`: the next bracket finds a cell that is zero in its low bits only if it is zero

## Main results

* `Cell.toNat_narrow`: the low bits are the remainder modulo the number of values
* `Run.Alike.advance_of_tellsZero`: a round on narrower cells
* `Program.runsAlike_narrow`: a program runs alike on narrower cells as long as its brackets find
  the same
-/

namespace Brainfuck

variable {w W : Width}

/-! ## The low bits of a cell -/

namespace Cell

/-- The low bits of a cell, as a cell of width `w`. -/
def narrow (w : Width) {W : Width} (c : Cell W) : Cell w :=
  c.setWidth w.bits

theorem toNat_narrow (c : Cell W) : (narrow w c).toNat = c.toNat % w.modulus := by
  rw [Width.modulus_eq]
  exact BitVec.toNat_setWidth w.bits c

theorem narrow_ofNat (hw : w.bits ≤ W.bits) (n : Nat) :
    narrow w (BitVec.ofNat W.bits n : Cell W) = BitVec.ofNat w.bits n :=
  BitVec.setWidth_ofNat_of_le hw n

theorem narrow_increase (hw : w.bits ≤ W.bits) (c : Cell W) (n : Nat) :
    narrow w (increase c n) = increase (narrow w c) n := by
  unfold increase
  rw [← narrow_ofNat hw]
  exact BitVec.setWidth_add c _ hw

theorem narrow_decrease (hw : w.bits ≤ W.bits) (c : Cell W) (n : Nat) :
    narrow w (decrease c n) = decrease (narrow w c) n := by
  unfold decrease
  rw [← narrow_ofNat hw, BitVec.sub_eq_add_neg, BitVec.sub_eq_add_neg]
  unfold narrow
  rw [BitVec.setWidth_add _ _ hw, BitVec.setWidth_neg_of_le hw]

theorem lowByte_narrow (c : Cell W) : lowByte (narrow w c) = lowByte c := by
  have hdvd : 256 ∣ w.modulus := by cases w <;> decide
  apply UInt8.toNat_inj.mp
  rw [lowByte, lowByte, toNat_narrow, UInt8.toNat_ofNat', UInt8.toNat_ofNat']
  exact Nat.mod_mod_of_dvd _ hdvd

theorem narrow_eq_zero_iff {c : Cell W} : narrow w c = 0 ↔ w.modulus ∣ c.toNat := by
  rw [Nat.dvd_iff_mod_eq_zero, ← toNat_narrow]
  exact BitVec.toNat_inj.symm

end Cell

/-! ## Tapes of narrower cells -/

namespace Tape

/-- The tape `t'` has the low bits of the cells of `t`, and its pointer at the same index. -/
structure NarrowsTo (t : Tape W) (t' : Tape w) : Prop where
  cells : t'.cells = t.cells.map (Cell.narrow w)
  pointer : t'.pointer = t.pointer

variable {t : Tape W} {t' : Tape w}

namespace NarrowsTo

theorem capacity (h : t.NarrowsTo t') : t'.capacity = t.capacity := by
  unfold Tape.capacity
  rw [h.cells, Array.size_map]

theorem current (h : t.NarrowsTo t') : t'.current = Cell.narrow w t.current := by
  obtain ⟨cells', pointer', lt', size'⟩ := t'
  obtain ⟨rfl, rfl⟩ := h
  exact Array.getElem_map (Cell.narrow w) _

/-- A change that goes by the low bits can be made on them. -/
theorem modify (h : t.NarrowsTo t') {f : Cell W → Cell W} {f' : Cell w → Cell w}
    (hf : ∀ c, Cell.narrow w (f c) = f' (Cell.narrow w c)) :
    (t.modify f).NarrowsTo (t'.modify f') where
  cells := by
    show t'.cells.modify t'.pointer f' = (t.cells.modify t.pointer f).map (Cell.narrow w)
    rw [h.cells, h.pointer]
    apply Array.ext
    · simp
    · intro i h₁ h₂
      simp only [Array.getElem_modify, Array.getElem_map]
      split
      next => exact (hf _).symm
      next => rfl
  pointer := h.pointer

end NarrowsTo

theorem respectsCells_narrowsTo (hw : w.bits ≤ W.bits) :
    RespectsCells (NarrowsTo : Tape W → Tape w → Prop) where
  increase := fun h n => h.modify fun c => Cell.narrow_increase hw c n
  decrease := fun h n => h.modify fun c => Cell.narrow_decrease hw c n
  write := fun h b => h.modify fun _ => Cell.narrow_ofNat hw b.toNat
  lowByte := by
    intro t t' h
    rw [h.current, Cell.lowByte_narrow]

theorem respectsPlaces_narrowsTo : RespectsPlaces (NarrowsTo : Tape W → Tape w → Prop) where
  capacity := fun h => h.capacity
  pointer := fun h => h.pointer
  seek := by
    intro t t' h index
    refine ⟨h.cells, ?_⟩
    show min index (t'.cells.size - 1) = min index (t.cells.size - 1)
    rw [h.cells, Array.size_map]

theorem narrowsTo_blank (hw : w.bits ≤ W.bits) {capacity : Nat} (pos : 0 < capacity)
    (lt : capacity < bound) : (blank W capacity pos lt).NarrowsTo (blank w capacity pos lt) where
  cells := by
    show Array.replicate capacity (BitVec.ofNat w.bits 0) =
      (Array.replicate capacity (BitVec.ofNat W.bits 0)).map (Cell.narrow w)
    rw [Array.map_replicate, Cell.narrow_ofNat hw]
  pointer := rfl

end Tape

/-! ## Runs on narrower cells -/

namespace Run

variable {p : Program} {rules : Rules} {r : Run W} {r' : Run w}

/-- If the instruction at `pc` is a bracket that is executed, the cell it finds is zero, or its low
bits are not. -/
def TellsZero (p : Program) (rules : Rules) (w : Width) (pc : Nat) (m : Machine W) : Prop :=
  ∀ i ∈ p.instructions[pc]?, i.op.IsBracket → rules.stops m = false →
    m.tape.current = 0 ∨ ¬ w.modulus ∣ m.tape.current.toNat

instance (p : Program) (rules : Rules) (w : Width) (pc : Nat) (m : Machine W) :
    Decidable (TellsZero p rules w pc m) :=
  inferInstanceAs (Decidable (∀ i ∈ p.instructions[pc]?, i.op.IsBracket → rules.stops m = false →
    m.tape.current = 0 ∨ ¬ w.modulus ∣ m.tape.current.toNat))

/-- **A round on narrower cells** comes to the same, if its bracket finds the same. -/
theorem Alike.advance_of_tellsZero (hw : w.bits ≤ W.bits)
    (h : Alike (Machine.Related Tape.NarrowsTo Eq Eq) r r')
    (hr : TellsZero p rules w r.pc r.machine) :
    Next.Alike (Alike (Machine.Related Tape.NarrowsTo Eq Eq)) (r.advance p rules)
      (r'.advance p rules) := by
  refine h.advance_of_related (Tape.respectsCells_narrowsTo hw) Tape.respectsPlaces_narrowsTo
    Input.respectsReads_eq ?_ ?_
  · intro i hi hop hs
    rw [Bool.eq_iff_iff, Tape.isZero_iff, Tape.isZero_iff, h.machine.tape.current,
      Cell.narrow_eq_zero_iff]
    rcases hr i hi hop hs with hzero | hlow
    · rw [hzero]
      exact iff_of_true (Nat.dvd_zero _) rfl
    · refine iff_of_false hlow fun hzero => hlow ?_
      rw [hzero]
      exact Nat.dvd_zero _
  · intro i _ _ _ b
    rw [← h.machine.output]
    exact Output.Writing.alike_eq _

/-- Runs on narrower cells go in lockstep as long as the brackets find the same. -/
theorem lockstep_narrow (p : Program) (rules : Rules) (hw : w.bits ≤ W.bits) :
    Lockstep p rules rules (fun _ => False) fun (r : Run W) (r' : Run w) =>
      Alike (Machine.Related Tape.NarrowsTo Eq Eq) r r' ∧
        Throughout p rules (TellsZero p rules w) r := by
  rintro r r' ⟨h, hr⟩
  refine Or.inr ((h.advance_of_tellsZero hw hr.here).and_throughout ?_ hr)
  intro pc m e hm i hi hop hs
  rw [Machine.tape_failedBy]
  exact hm i hi hop (Rules.stops_of_failedBy hs)

end Run

namespace Program

/-- **A program runs alike on narrower cells**, from a fresh tape, as long as no bracket finds a
cell whose low bits alone are zero. A program without brackets always does. -/
theorem runsAlike_narrow (p : Program) (rules : Rules) (hw : w.bits ≤ W.bits) {capacity : Nat}
    (pos : 0 < capacity) (lt : capacity < Tape.bound) (input : Input) (output : Output)
    (cancelled : Bool) :
    (Run.Throughout p rules (Run.TellsZero p rules w)
        (.start ⟨.blank W capacity pos lt, input, output, cancelled⟩) →
      p.RunsAlike rules (Machine.Related Tape.NarrowsTo Eq Eq)
        ⟨.blank W capacity pos lt, input, output, cancelled⟩
        ⟨.blank w capacity pos lt, input, output, cancelled⟩) ∧
    ((∀ i ∈ p.instructions, ¬ i.op.IsBracket) →
      p.RunsAlike rules (Machine.Related Tape.NarrowsTo Eq Eq)
        ⟨.blank W capacity pos lt, input, output, cancelled⟩
        ⟨.blank w capacity pos lt, input, output, cancelled⟩) := by
  have hstart : (Machine.Related Tape.NarrowsTo Eq Eq)
      (⟨.blank W capacity pos lt, input, output, cancelled⟩ : Machine W)
      (⟨.blank w capacity pos lt, input, output, cancelled⟩ : Machine w) :=
    ⟨Tape.narrowsTo_blank hw pos lt, rfl, rfl, rfl⟩
  have halike (h : Run.Throughout p rules (Run.TellsZero p rules w)
      (.start ⟨.blank W capacity pos lt, input, output, cancelled⟩)) :=
    (Run.lockstep_narrow p rules hw).runsAlike (fun _ _ hr => hr.1)
      Machine.respectsFlush_eq ⟨Run.alike_start hstart, h⟩
  refine ⟨halike, fun hp => halike fun k s _ i hi hop _ => ?_⟩
  exact absurd hop (hp i (Array.mem_of_getElem? hi))

/-- A loop whose counts are cut to a byte, and a program without loops that leaves different
cells. -/
theorem runsAlike_narrow_counts :
    ∃ p q : Program,
      p.instructions = #[⟨.dec, 257, by decide⟩, .single .loopStart, .single .output,
        ⟨.inc, 257, by decide⟩, .single .loopEnd] ∧
      q.instructions = #[.single .input, ⟨.dec, 300, by decide⟩, .single .output] ∧
      Width.byte.bits ≤ Width.short.bits ∧ 0 < 1 ∧ 1 < Tape.bound ∧
      Run.Throughout p ⟨.wrap, true⟩ (Run.TellsZero p ⟨.wrap, true⟩ .byte)
        (.start ⟨.blank .short 1 (by decide) (by decide), [], .ofDevice .unlimited, false⟩) ∧
      p.RunsAlike ⟨.wrap, true⟩
        (Machine.Related (Tape.NarrowsTo : Tape .short → Tape .byte → _) Eq Eq)
        ⟨.blank .short 1 (by decide) (by decide), [], .ofDevice .unlimited, false⟩
        ⟨.blank .byte 1 (by decide) (by decide), [], .ofDevice .unlimited, false⟩ ∧
      (∀ i ∈ q.instructions, ¬ i.op.IsBracket) ∧
      q.RunsAlike ⟨.wrap, true⟩
        (Machine.Related (Tape.NarrowsTo : Tape .short → Tape .byte → _) Eq Eq)
        ⟨.blank .short 1 (by decide) (by decide), [.byte 7], .ofDevice .unlimited, false⟩
        ⟨.blank .byte 1 (by decide) (by decide), [.byte 7], .ofDevice .unlimited, false⟩ := by
  let p : Program := ⟨#[⟨.dec, 257, by decide⟩, .single .loopStart, .single .output,
    ⟨.inc, 257, by decide⟩, .single .loopEnd], ⟨#[0, 4, 2, 3, 1]⟩, rfl⟩
  let q : Program := ⟨#[.single .input, ⟨.dec, 300, by decide⟩, .single .output], ⟨#[0, 1, 2]⟩, rfl⟩
  have hp : Run.Throughout p ⟨.wrap, true⟩ (Run.TellsZero p ⟨.wrap, true⟩ .byte)
      (.start ⟨.blank .short 1 (by decide) (by decide), [], .ofDevice .unlimited, false⟩) :=
    Run.throughout_of_holdsToEnd 6 (by decide)
  have hq : ∀ i ∈ q.instructions, ¬ i.op.IsBracket := by decide
  exact ⟨p, q, rfl, rfl, by decide, by decide, by decide, hp,
    (runsAlike_narrow p ⟨.wrap, true⟩ (by decide) (by decide) (by decide) [] _ false).1 hp, hq,
    (runsAlike_narrow q ⟨.wrap, true⟩ (by decide) (by decide) (by decide) [.byte 7] _ false).2 hq⟩

end Program

end Brainfuck
