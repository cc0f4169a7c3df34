import Brainfuck.Proofs.Safety
import Brainfuck.Proofs.Trail

/-!
# How executions end

An execution ends at the end of its program, where it was asked to stop, or at an instruction that
cannot be done. In each case it leaves everything as it was after the last instruction that was
done, and then flushes its output once. The run itself comes first in what is reported: that the
output could not be flushed is reported only of a run that did not fail.

## Main definitions

* `Run.Halts`: a run ends in a state, and why
* `Execution.LeftBy`: what is left of an execution that ends in a state

## Main results

* `Run.halts_iff`: a round ends a run exactly for one of four reasons
* `Execution.report_eq_error_iff`: what is reported of a run that fails or cannot be flushed
* `Program.execute_leaves`: an execution leaves everything as the last instruction did, and comes to
  an end where a run does
-/

namespace Brainfuck

variable {w : Width} {p : Program} {rules : Rules}

/-! ## Why a run ends -/

/-- **A run ends in the state `s`**: it is at the end of the program, or it was asked to stop, or
its next instruction moves off the tape under the fatal policy, or writes a byte that is refused. -/
inductive Run.Halts (p : Program) (rules : Rules) (s : Run w) : Ending → Prop
  | finished (h : p.size ≤ s.pc) : Halts p rules s (.completed .finished)
  | cancelled (h : s.pc < p.size) (hs : rules.stops s.machine = true) :
      Halts p rules s (.completed (.cancelled s.pc))
  | bounds {i : Instruction} {d : Direction} (hi : p.instructions[s.pc]? = some i)
      (hs : rules.stops s.machine = false) (policy : rules.policy = .fatal)
      (op : i.op = d.operator)
      (leaves : ¬ OnTape s.machine.tape.capacity (s.machine.tape.pointer + d.offset i.count)) :
      Halts p rules s (.failed (.bounds ⟨s.machine.tape.pointer, d⟩))
  | output {i : Instruction} {cause : String} (hi : p.instructions[s.pc]? = some i)
      (hs : rules.stops s.machine = false) (op : i.op = .output)
      (refused : (s.machine.output.device.answer s.machine.output.written.size).refusal? =
        some cause) :
      Halts p rules s (.failed (.output cause))

/-- **A round that ends a run** does so for one of these reasons. -/
theorem Run.halts_of_advance_ended {s last : Run w} {ending : Ending}
    (h : s.advance p rules = .ended ending last) : s.Halts p rules ending := by
  cases round_of_advance h with
  | finished hi => exact .finished (Array.getElem?_eq_none_iff.mp hi)
  | cancelled hi hs => exact .cancelled (Array.getElem?_eq_some_iff.mp hi).1 hs
  | failed hi hs he =>
    rcases Machine.cases_of_exec_failed he with ⟨cause, rfl⟩ | ⟨hp, d, hop, rfl, ht⟩
    · obtain ⟨hop, hc⟩ := Machine.refusal?_of_exec_failed he
      exact .output hi hs hop hc
    · exact .bounds hi hs hp hop ht

/-- **A run that has a reason to end** does so in the next round. -/
theorem Run.exists_advance_of_halts {s : Run w} {ending : Ending} (h : s.Halts p rules ending) :
    ∃ last, s.advance p rules = .ended ending last := by
  cases h with
  | finished hpc => exact ⟨_, advance_of_none (Array.getElem?_eq_none_iff.mpr hpc)⟩
  | cancelled hpc hs => exact ⟨_, advance_of_stops (Array.getElem?_eq_getElem hpc) hs⟩
  | @bounds i d hi hs hp hop ht =>
    have he : s.machine.exec rules.policy i =
        .failed s.machine (.bounds ⟨s.machine.tape.pointer, d⟩) := by
      rw [Machine.exec_of_op_eq_operator hop, hp]
      exact Machine.move_of_land?_eq_none (BoundsPolicy.land?_fatal_of_not_onTape ht)
    exact ⟨_, advance_of_failed hi hs he⟩
  | @output i cause hi hs hop hc =>
    have he : s.machine.exec rules.policy i = .failed s.machine.refused (.output cause) := by
      rw [Machine.exec_of_output hop]
      exact Machine.print_of_refusal? hc
    exact ⟨_, advance_of_failed hi hs he⟩

/-- **A run ends in a state** exactly if the round from there ends it. -/
theorem Run.halts_iff {s : Run w} {ending : Ending} :
    s.Halts p rules ending ↔ ∃ last, s.advance p rules = .ended ending last :=
  ⟨exists_advance_of_halts, fun ⟨_, h⟩ => halts_of_advance_ended h⟩

/-! ## What is left of an execution -/

namespace Execution

/-- **What is reported as an error**: that of a run that fails, and otherwise that of the flush. -/
theorem report_eq_error_iff {ending : Ending} {executed : Nat} {refusal : Option String}
    {e : RunError} :
    report ending executed refusal = .error e ↔
      ending = .failed e ∨
        ∃ completion cause, ending = .completed completion ∧ refusal = some cause ∧
          e = .output cause := by
  cases ending with
  | failed e' => simp [report]
  | completed completion => cases refusal <;> simp [report, eq_comm]

/-- **What is left of an execution** on the machine `m` that ends in the state `s`, after `k`
instructions that were done. -/
structure LeftBy (p : Program) (rules : Rules) (m : Machine w) (k : Nat) (s : Run w)
    (ending : Ending) (x : Execution w) : Prop where
  /-- The state is the one after the last instruction that was done, -/
  steps : Run.Steps p rules k (.start m) s
  /-- and for this reason the run ends there. -/
  halts : s.Halts p rules ending
  /-- Cells and pointer are as the last instruction left them. -/
  tape : x.machine.tape = s.machine.tape
  input : x.machine.input = s.machine.input
  /-- What was written are the bytes of the output instructions that were done. -/
  written : x.machine.output.written.toList = m.output.written.toList ++
    (Run.start m).trail p rules (fun i m _ => i.byte? m) k
  /-- The output was flushed once, when all this had been written. -/
  flushes : x.machine.output.flushes = m.output.flushes ++ [x.machine.output.written.size]
  /-- A flush that fails is reported exactly if the run did not fail. -/
  error_iff : ∀ e, x.result = .error e ↔
    ending = .failed e ∨
      ∃ completion cause, ending = .completed completion ∧
        m.output.device.flushFailure = some cause ∧ e = .output cause
  ok_iff : ∀ o, x.result = .ok o ↔
    ending = .completed o.completion ∧ m.output.device.flushFailure = none ∧ k = o.executed

theorem leftBy_close {m : Machine w} {k : Nat} {s last : Run w} {ending : Ending}
    (hs : Run.Steps p rules k (.start m) s) (ha : s.advance p rules = .ended ending last) :
    (close ending last).LeftBy p rules m k s ending := by
  -- The round that ends the run executes nothing, and it leaves tape, input and what was written.
  have hmachine := Run.machine_of_advance_ended ha
  have hexecuted : last.executed = k := by
    rw [Run.executed_of_ended ha, hs.executed]
    exact Nat.zero_add k
  have hdevice : last.machine.output.device = m.output.device := by
    rw [hmachine, Machine.device_endedBy]
    exact hs.output.device
  have hflushes : last.machine.output.flushes = m.output.flushes := by
    rw [hmachine, Machine.flushes_endedBy]
    exact hs.output.flushes
  have hresult : (close ending last).result = report ending k m.output.device.flushFailure := by
    rw [← hdevice, ← hexecuted]
    rfl
  have hwritten := hs.written
  rw [← Machine.written_endedBy ending s.machine, ← hmachine] at hwritten
  refine ⟨hs, Run.halts_of_advance_ended ha, ?_, ?_, hwritten, ?_, ?_, ?_⟩
  · rw [← Machine.tape_endedBy ending s.machine, ← hmachine]
    rfl
  · rw [← Machine.input_endedBy ending s.machine, ← hmachine]
    rfl
  · rw [← hflushes]
    rfl
  · intro e
    rw [hresult, report_eq_error_iff]
  · intro o
    rw [hresult, report_eq_ok_iff]

end Execution

/-- **An execution comes to an end** where a run does, if it is given enough rounds. -/
theorem Program.exists_execute_of_halts {m : Machine w} {k : Nat} {s : Run w} {ending : Ending}
    (hs : Run.Steps p rules k (.start m) s) (h : s.Halts p rules ending) {rounds : Nat}
    (hk : k < rounds) :
    ∃ x, p.execute rules rounds m = some x ∧ x.LeftBy p rules m k s ending := by
  obtain ⟨last, ha⟩ := Run.halts_iff.mp h
  have hend : (Run.start m).toEnd p rules rounds = some (ending, last) :=
    Run.toEnd_eq_some_iff.mpr ⟨k, hk, s, hs, ha⟩
  refine ⟨Execution.close ending last, ?_, Execution.leftBy_close hs ha⟩
  rw [execute, hend]
  rfl

/-- A bounds error comes up under the fatal policy alone. It tells the pointer of the tape and the
direction of the move that failed. -/
theorem Execution.LeftBy.bounds {m : Machine w} {k : Nat} {s : Run w} {ending : Ending}
    {x : Execution w} {e : BoundsError} (h : x.LeftBy p rules m k s ending)
    (he : x.result = .error (.bounds e)) :
    rules.policy = .fatal ∧ e.pointer = x.machine.tape.pointer ∧
      ∃ i, p.instructions[s.pc]? = some i ∧ i.op = e.direction.operator ∧
        ¬ OnTape x.machine.tape.capacity (e.pointer + e.direction.offset i.count) := by
  -- The error is that of the run, since the flush only fails with an output error.
  obtain rfl : ending = .failed (.bounds e) := by
    rcases (h.error_iff _).mp he with h | ⟨_, _, _, _, h⟩
    · exact h
    · cases h
  cases h.halts with
  | bounds hi _ hp hop ht =>
    rw [h.tape]
    exact ⟨hp, rfl, _, hi, hop, ht⟩

/-- **An execution leaves everything as the last instruction did**, and flushes its output once
after that. It comes to an end wherever a run does. A bounds error comes up under the fatal policy
alone; it tells the pointer of the tape and the direction of the move that failed. -/
theorem Program.execute_leaves (p : Program) (rules : Rules) (m : Machine w) :
    (∀ rounds x, p.execute rules rounds m = some x →
      ∃ k s ending, x.LeftBy p rules m k s ending ∧
        ∀ e, x.result = .error (.bounds e) →
          rules.policy = .fatal ∧ e.pointer = x.machine.tape.pointer ∧
          ∃ i, p.instructions[s.pc]? = some i ∧ i.op = e.direction.operator ∧
            ¬ OnTape x.machine.tape.capacity (e.pointer + e.direction.offset i.count)) ∧
    ∀ k s ending, Run.Steps p rules k (.start m) s → s.Halts p rules ending →
      ∀ rounds, k < rounds →
        ∃ x, p.execute rules rounds m = some x ∧ x.LeftBy p rules m k s ending := by
  refine ⟨fun rounds x hx => ?_, fun k s ending hs h rounds => exists_execute_of_halts hs h⟩
  obtain ⟨⟨ending, last⟩, hend, rfl⟩ := Option.map_eq_some_iff.mp hx
  obtain ⟨k, -, s, hs, ha⟩ := Run.toEnd_eq_some_iff.mp hend
  have hleft := Execution.leftBy_close hs ha
  exact ⟨k, s, ending, hleft, fun e => hleft.bounds⟩

/-- A move off a tape of two cells wins over a flush that fails, and a request to stop does not. -/
theorem Program.execute_leaves_unflushed :
    ∃ (p : Program) (m m' : Machine .byte) (x x' : Execution .byte),
      p.instructions = #[.single .inc, .single .output, ⟨.right, 2, by decide⟩] ∧
      m.output.device.flushFailure = some "flush refused" ∧ m' = { m with cancelled := true } ∧
      p.execute ⟨.fatal, true⟩ 3 m = some x ∧ p.execute ⟨.fatal, true⟩ 1 m' = some x' ∧
      x.result = .error (.bounds ⟨0, .right⟩) ∧ x.machine.output.written = #[1] ∧
      x'.result = .error (.output "flush refused") ∧
      (∃ k s ending, x.LeftBy p ⟨.fatal, true⟩ m k s ending) ∧
      ∃ k s ending, x'.LeftBy p ⟨.fatal, true⟩ m' k s ending := by
  let p : Program :=
    ⟨#[.single .inc, .single .output, ⟨.right, 2, by decide⟩], ⟨#[0, 1, 2]⟩, rfl⟩
  let m : Machine .byte := ⟨.blank .byte 2 (by decide) (by decide), [],
    .ofDevice (Device.unlimited.refusingFlush "flush refused"), false⟩
  let m' := { m with cancelled := true }
  obtain ⟨k, s, ending, hx, -⟩ := (execute_leaves p ⟨.fatal, true⟩ m).1 3 _ rfl
  obtain ⟨k', s', ending', hx', -⟩ := (execute_leaves p ⟨.fatal, true⟩ m').1 1 _ rfl
  exact ⟨p, m, m', _, _, rfl, rfl, rfl, rfl, rfl, rfl, rfl, rfl, ⟨k, s, ending, hx⟩,
    ⟨k', s', ending', hx'⟩⟩

end Brainfuck
