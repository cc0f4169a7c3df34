import Brainfuck.Proofs.Movement
import Brainfuck.Proofs.Steps

/-!
# What runs write

A byte is accepted or refused by the device alone. A run only ever adds to its output, one byte with
every output instruction, and fails with an output error only where a byte is refused. The device
stays the same up to the flush.

## Main definitions

* `WriteAnswer.refusal?`: why a byte is not accepted
* `Output.Extends`: more has been written to an output

## Main results

* `Machine.print_of_accept`, `Machine.print_of_refusal?`: what an output instruction comes to
* `Machine.refusal?_of_exec_failed`: an output error comes from a byte that is refused
* `Run.Steps.output`: what was written stays written
-/

namespace Brainfuck

variable {w : Width}

/-! ## Outputs -/

/-- Why a byte is not accepted, if it is not. -/
def WriteAnswer.refusal? : WriteAnswer → Option String
  | accept => none
  | refuse cause => some cause
  | takeNothing => some "failed to write whole buffer"

theorem WriteAnswer.refusal?_eq_none_iff {answer : WriteAnswer} :
    answer.refusal? = none ↔ answer = accept := by
  cases answer <;> simp [refusal?]

theorem WriteAnswer.exists_refusal? {answer : WriteAnswer} (h : answer ≠ accept) :
    ∃ cause, answer.refusal? = some cause := by
  cases answer with
  | accept => exact absurd rfl h
  | refuse cause => exact ⟨cause, rfl⟩
  | takeNothing => exact ⟨_, rfl⟩

namespace Output

theorem write_of_accept {o : Output} (h : o.device.answer o.written.size = .accept) (b : UInt8) :
    o.write b =
      .done { o with written := o.written.push b } (o.device.cancelsAt (o.written.size + 1)) := by
  rw [write_eq_attempt]
  unfold attempt
  dsimp only
  rw [h]

theorem write_of_refusal? {o : Output} {cause : String}
    (h : (o.device.answer o.written.size).refusal? = some cause) (b : UInt8) :
    o.write b = .failed o.refused cause (o.device.cancelsFailing o.written.size) := by
  rw [write_eq_attempt]
  unfold attempt
  dsimp only
  cases ha : o.device.answer o.written.size with
  | accept =>
    rw [ha] at h
    cases h
  | refuse cause' =>
    rw [ha] at h
    obtain rfl := Option.some.inj h
    rfl
  | takeNothing =>
    rw [ha] at h
    obtain rfl := Option.some.inj h
    rfl

/-- The output `o'` is `o` with more bytes written or refused, and was not flushed meanwhile. -/
structure Extends (o o' : Output) : Prop where
  device : o'.device = o.device
  later : o'.later = o.later
  flushes : o'.flushes = o.flushes
  written : o.written.toList <+: o'.written.toList
  refusals : o.refusals <+: o'.refusals

theorem Extends.refl (o : Output) : Extends o o :=
  ⟨rfl, rfl, rfl, List.prefix_refl _, List.prefix_refl _⟩

theorem Extends.trans {o o' o'' : Output} (h : Extends o o') (h' : Extends o' o'') :
    Extends o o'' where
  device := h'.device.trans h.device
  later := h'.later.trans h.later
  flushes := h'.flushes.trans h.flushes
  written := h.written.trans h'.written
  refusals := h.refusals.trans h'.refusals

theorem extends_push (o : Output) (b : UInt8) :
    Extends o { o with written := o.written.push b } where
  device := rfl
  later := rfl
  flushes := rfl
  written := by
    rw [Array.toList_push]
    exact List.prefix_append _ _
  refusals := List.prefix_refl _

theorem extends_refused (o : Output) : Extends o o.refused where
  device := rfl
  later := rfl
  flushes := rfl
  written := List.prefix_refl _
  refusals := List.prefix_append _ _

end Output

/-! ## Instructions -/

namespace Machine

variable {policy : BoundsPolicy} {m m' : Machine w} {event : Option Event} {i : Instruction}

theorem print_of_accept (h : m.output.device.answer m.output.written.size = .accept) :
    m.print = .done
      { m with
        output := { m.output with
          written := m.output.written.push (Cell.lowByte m.tape.current) }
        cancelled := m.cancelled || m.output.device.cancelsAt (m.output.written.size + 1) }
      none := by
  unfold print
  rw [Output.write_of_accept h]

theorem print_of_refusal? {cause : String}
    (h : (m.output.device.answer m.output.written.size).refusal? = some cause) :
    m.print = .failed m.refused (.output cause) := by
  unfold print
  rw [Output.write_of_refusal? h]
  rfl

theorem exec_of_output (h : i.op = .output) (policy : BoundsPolicy) (m : Machine w) :
    m.exec policy i = m.print := by
  rw [exec, h]

theorem refusal?_of_print_failed {cause : String} (h : m.print = .failed m' (.output cause)) :
    (m.output.device.answer m.output.written.size).refusal? = some cause := by
  cases hc : (m.output.device.answer m.output.written.size).refusal? with
  | none => cases (print_of_accept (WriteAnswer.refusal?_eq_none_iff.mp hc)).symm.trans h
  | some cause' =>
    obtain ⟨-, he⟩ := Effect.failed.inj ((print_of_refusal? hc).symm.trans h)
    obtain rfl := RunError.output.inj he
    rfl

/-- **An instruction fails with an output error** only where the output refuses a byte, and for the
cause that the output gives. -/
theorem refusal?_of_exec_failed {cause : String}
    (h : m.exec policy i = .failed m' (.output cause)) :
    i.op = .output ∧
      (m.output.device.answer m.output.written.size).refusal? = some cause := by
  have hmove {d : Direction} (hop : i.op = d.operator) : False := by
    rw [exec_of_op_eq_operator hop] at h
    obtain ⟨-, -, he⟩ := bounds_of_move_failed h
    cases he
  cases hop : i.op with
  | right => exact (hmove (d := .right) hop).elim
  | left => exact (hmove (d := .left) hop).elim
  | output =>
    rw [exec_of_output hop] at h
    exact ⟨rfl, refusal?_of_print_failed h⟩
  | _ =>
    rw [exec, hop] at h
    cases h

theorem not_accept_of_exec_failed {cause : String}
    (h : m.exec policy i = .failed m' (.output cause)) :
    m.output.device.answer m.output.written.size ≠ .accept := by
  intro haccept
  have hc := (refusal?_of_exec_failed h).2
  rw [haccept] at hc
  cases hc

/-- A byte that is written was accepted. -/
theorem accept_of_print_done (h : m.print = .done m' event) :
    m.output.device.answer m.output.written.size = .accept := by
  cases hc : (m.output.device.answer m.output.written.size).refusal? with
  | none => exact WriteAnswer.refusal?_eq_none_iff.mp hc
  | some cause => cases (print_of_refusal? hc).symm.trans h

theorem output_of_print_done (h : m.print = .done m' event) : m.output.Extends m'.output := by
  rw [print_of_accept (accept_of_print_done h)] at h
  obtain ⟨rfl, -⟩ := Effect.done.inj h
  exact Output.extends_push _ _

/-- **An instruction only adds to the output.** -/
theorem output_of_exec_done (h : m.exec policy i = .done m' event) :
    m.output.Extends m'.output := by
  cases does_of_exec_done h with
  | move _ h =>
    obtain ⟨index, rfl⟩ := exists_seek_of_move_done h
    exact .refl _
  | read _ h =>
    obtain ⟨rfl, -⟩ := Effect.done.inj h
    exact .refl _
  | print _ h => exact output_of_print_done h
  | change => exact .refl _

/-- So does a round that ends a run. -/
theorem output_endedBy (ending : Ending) (m : Machine w) :
    m.output.Extends (m.endedBy ending).output := by
  cases ending with
  | completed => exact .refl _
  | failed e =>
    cases e with
    | output cause => exact Output.extends_refused _
    | bounds | fault => exact .refl _

end Machine

/-- **What was written stays written**, to the same device. -/
theorem Run.Steps.output {p : Program} {rules : Rules} {r s : Run w} {k : Nat}
    (h : Steps p rules k r s) : r.machine.output.Extends s.machine.output := by
  induction h with
  | refl r => exact .refl _
  | head first _ ih =>
    obtain ⟨i, event, -, he, -⟩ := exec_of_advance_running first
    exact (Machine.output_of_exec_done he).trans ih

theorem Run.output_of_advance_ended {p : Program} {rules : Rules} {r last : Run w} {ending : Ending}
    (h : r.advance p rules = .ended ending last) :
    r.machine.output.Extends last.machine.output := by
  rw [machine_of_advance_ended h]
  exact Machine.output_endedBy ending r.machine

end Brainfuck
