import Brainfuck.Proofs.Safety

/-!
# Loops that cannot be entered

There are places in a program that a run only comes to with zero in the current cell: its start, if
the tape is blank, the place behind a loop end, and the one behind a `clear`. A loop that starts at
such a place is skipped as a whole whenever a run comes to it. No jump leads into it from elsewhere,
since the partner of an operator inside a loop is inside it, too.

## Main definitions

* `Program.DeadLoop`: a loop that starts where a run only comes with zero
* `Run.Avoids`: a run is outside a loop, and at its start only with zero

## Main results

* `Run.Avoids.running`: a round keeps a run outside
* `Run.Steps.avoids`: any number of rounds do
* `Run.avoids_of_steps_blank`: a run from a blank tape avoids the loops that cannot be entered
-/

namespace Brainfuck

/-- **A loop that cannot be entered**: it starts with the first instruction, or right behind a loop
end or a `clear`. -/
structure Program.DeadLoop (p : Program) (start stop : Nat) : Prop where
  loopStart : ∃ i, p.instructions[start]? = some i ∧ i.op = .loopStart
  target : p.jumps.target? start = some stop
  behind : start = 0 ∨ ∃ k i, start = k + 1 ∧ p.instructions[k]? = some i ∧
    (i.op = .loopEnd ∨ i.op = .clear)

/-- A run is outside the loop from `start` to `stop`, and at its start only with zero in the current
cell. -/
structure Run.Avoids {w : Width} (start stop : Nat) (r : Run w) : Prop where
  zero : r.pc = start → r.machine.tape.current = 0
  outside : ¬ (start < r.pc ∧ r.pc ≤ stop)

variable {w : Width} {p : Program} {rules : Rules} {start stop : Nat}

namespace Program.DeadLoop

theorem encloses (h : p.DeadLoop start stop) : Encloses p.operators start stop :=
  (partner_of_target? h.target).encloses_of_loopStart (getElem?_operators.mpr h.loopStart)

end Program.DeadLoop

/-! ## One round -/

theorem Machine.current_of_clear_done {policy : BoundsPolicy} {i : Instruction} {m m' : Machine w}
    {event : Option Event} (hop : i.op = .clear) (h : m.exec policy i = .done m' event) :
    m'.tape.current = 0 := by
  rw [exec, hop] at h
  obtain ⟨rfl, -⟩ := Effect.done.inj h
  exact Tape.current_modify _ _

theorem Machine.eq_of_isBracket_done {policy : BoundsPolicy} {i : Instruction} {m m' : Machine w}
    {event : Option Event} (hop : i.op.IsBracket) (h : m.exec policy i = .done m' event) :
    m' = m := by
  rw [exec_of_isBracket hop] at h
  exact (Effect.done.inj h).1.symm

namespace Run

variable {r r' : Run w} {m : Machine w}

/-- **Where a loop cannot be entered**, a run comes with zero in the current cell. -/
theorem current_of_running (hd : p.DeadLoop start stop) (ha : r.advance p rules = .running r')
    (hpc : r'.pc = start) : r'.machine.tape.current = 0 := by
  obtain ⟨i, event, hi, he, hn⟩ := exec_of_advance_running ha
  obtain h0 | ⟨k, j, hk, hj, hop⟩ := hd.behind
  · -- Nothing leads to the first instruction.
    rcases cases_of_next? hn with ⟨-, target, -, ht⟩ | ⟨-, ht⟩ <;> omega
  rcases cases_of_next? hn with ⟨hjumps, target, ht, hnext⟩ | ⟨hjumps, hnext⟩
  · -- What jumps past a loop end is a loop start, on zero.
    obtain rfl : target = k := by omega
    have hbracket := isBracket_of_jumps hjumps
    obtain ⟨j', hj', hopposite⟩ := Program.isOpposite_of_target? hi hbracket ht
    obtain rfl := Option.some.inj (hj.symm.trans hj')
    rw [Machine.eq_of_isBracket_done hbracket he]
    rcases hopposite with ⟨hstart, -⟩ | ⟨-, hstart⟩
    · rw [hstart] at hjumps
      exact Tape.isZero_iff.mp hjumps
    · rcases hop with hop | hop <;> cases hop.symm.trans hstart
  · obtain rfl : r.pc = k := by omega
    obtain rfl := Option.some.inj (hi.symm.trans hj)
    rcases hop with hop | hop
    · -- A loop end that does not jump is passed on zero.
      rw [Machine.eq_of_isBracket_done (Or.inr hop) he]
      rw [hop] at hjumps
      exact Tape.isZero_iff.mp ((Bool.not_eq_false' _).mp hjumps)
    · exact Machine.current_of_clear_done hop he

namespace Avoids

/-- **A round keeps a run outside** a loop that cannot be entered. -/
theorem running (h : r.Avoids start stop) (hd : p.DeadLoop start stop)
    (ha : r.advance p rules = .running r') : r'.Avoids start stop where
  zero := current_of_running hd ha
  outside := by
    rintro ⟨hlt, hle⟩
    obtain ⟨i, event, hi, -, hn⟩ := exec_of_advance_running ha
    rcases cases_of_next? hn with ⟨-, target, ht, hnext⟩ | ⟨hjumps, hnext⟩
    · -- A jump into the loop comes from its loop end, or from inside.
      have hp := Program.partner_of_target? ht
      have hinside : start < r.pc ∧ r.pc ≤ stop := by
        rcases Nat.eq_or_lt_of_le (show start ≤ target by omega) with rfl | hlt
        · have hstop := hp.symm.unique (.stop hd.encloses)
          exact ⟨hstop ▸ hd.encloses.lt, Nat.le_of_eq hstop⟩
        · obtain ⟨hlow, hhigh⟩ := hp.inside hd.encloses hlt (by omega)
          exact ⟨hlow, Nat.le_of_lt hhigh⟩
      exact h.outside hinside
    · by_cases hpc : r.pc = start
      · -- At the loop start the cell is zero, so that the loop is skipped.
        obtain ⟨j, hj, hop⟩ := hd.loopStart
        obtain rfl := Option.some.inj (hi.symm.trans (hpc ▸ hj))
        rw [hop] at hjumps
        exact Bool.false_ne_true (hjumps.symm.trans (Tape.isZero_iff.mpr (h.zero hpc)))
      · exact h.outside ⟨by omega, by omega⟩

end Avoids

/-! ## Whole runs -/

/-- **Any number of rounds** keep a run outside. -/
theorem Steps.avoids {k : Nat} (hs : Steps p rules k r r') (hd : p.DeadLoop start stop)
    (h : r.Avoids start stop) : r'.Avoids start stop := by
  induction hs with
  | refl => exact h
  | head first _ ih => exact ih (h.running hd first)

/-- **A run from a blank tape avoids the loops that cannot be entered**: it comes to such a loop with
zero in the current cell only, and never executes an instruction of its body or its loop end. -/
theorem avoids_of_steps_blank (hd : p.DeadLoop start stop) {capacity : Nat} {pos : 0 < capacity}
    {lt : capacity < Tape.bound} {input : Input} {output : Output} {cancelled : Bool} {k : Nat}
    (hs : Steps p rules k (.start ⟨.blank w capacity pos lt, input, output, cancelled⟩) r) :
    r.Avoids start stop := by
  refine hs.avoids hd ⟨fun _ => ?_, fun h => absurd h.1 (Nat.not_lt_zero start)⟩
  exact Array.getElem_replicate _

/-- A loop behind a `clear`, with a loop in its body that could be entered. -/
theorem avoids_behind_clear :
    ∃ (p : Program) (r : Run .byte),
      p.operators = [.inc, .clear, .loopStart, .inc, .loopStart, .output, .loopEnd, .loopEnd] ∧
      p.DeadLoop 2 7 ∧ 0 < 2 ∧ 2 < Tape.bound ∧
      Steps p ⟨.fatal, true⟩ 2
        (.start ⟨.blank .byte 2 (by decide) (by decide), [], .ofDevice .unlimited, false⟩) r ∧
      r.pc = 2 ∧ r.Avoids 2 7 := by
  let p : Program :=
    ⟨#[.single .inc, .single .clear, .single .loopStart, .single .inc, .single .loopStart,
      .single .output, .single .loopEnd, .single .loopEnd], ⟨#[0, 1, 7, 3, 6, 5, 4, 2]⟩, rfl⟩
  have hd : p.DeadLoop 2 7 := ⟨⟨_, rfl, rfl⟩, rfl, Or.inr ⟨1, _, rfl, rfl, Or.inr rfl⟩⟩
  have hs : Steps p ⟨.fatal, true⟩ 2
      (.start ⟨.blank .byte 2 (by decide) (by decide), [], .ofDevice .unlimited, false⟩) _ :=
    .head rfl (.head rfl (.refl _))
  exact ⟨p, _, rfl, hd, by decide, by decide, hs, rfl, avoids_of_steps_blank hd hs⟩

end Run

end Brainfuck
