import Brainfuck.Proofs.Related
import Brainfuck.Proofs.Safety

/-!
# Larger tapes

A run under the fatal policy either is cut short by a move that leaves the tape or stays on it all
the time. In the second case neither the policy nor the number of cells matters: with further cells
behind the last one and under any policy, the run goes through the same rounds and the further cells
keep what they hold.

## Main definitions

* `Tape.ExtendedBy`: a tape with further cells behind its last one
* `Machine.ExtendedBy`: a machine on such a tape

## Main results

* `Machine.exec_of_extendedBy`: instructions do the same on a larger tape, unless a move leaves the
  smaller one
* `Program.execute_of_extendedBy`: so do runs
* `Program.execute_on_larger_tape`: a run on a fresh tape is the run on any larger one
-/

namespace Brainfuck

variable {w : Width} {extra : Array (Cell w)}

/-! ## Further cells -/

namespace Tape

/-- The tape `t'` is `t` with the cells `extra` behind its last one. -/
structure ExtendedBy (extra : Array (Cell w)) (t t' : Tape w) : Prop where
  cells : t'.cells = t.cells ++ extra
  pointer : t'.pointer = t.pointer

variable {t t' : Tape w}

namespace ExtendedBy

theorem capacity (h : t.ExtendedBy extra t') : t'.capacity = t.capacity + extra.size := by
  unfold Tape.capacity
  rw [h.cells, Array.size_append]

theorem current (h : t.ExtendedBy extra t') : t'.current = t.current := by
  obtain ⟨cells', pointer', lt', size'⟩ := t'
  obtain ⟨rfl, rfl⟩ := h
  exact Array.getElem_append_left t.pointer_lt

theorem isZero (h : t.ExtendedBy extra t') : t'.isZero = t.isZero := by
  rw [Tape.isZero, Tape.isZero, h.current]

/-- The current cell is none of the further ones. -/
theorem modify (h : t.ExtendedBy extra t') (f : Cell w → Cell w) :
    (t.modify f).ExtendedBy extra (t'.modify f) where
  cells := by
    show t'.cells.modify t'.pointer f = t.cells.modify t.pointer f ++ extra
    rw [h.cells, h.pointer]
    have hp := t.pointer_lt
    apply Array.ext
    · simp
    · intro i h₁ h₂
      by_cases hi : i < t.cells.size
      · simp only [Array.getElem_modify, Array.getElem_append, Array.size_modify, hi, dite_true]
      · have hne : t.pointer ≠ i := by omega
        simp only [Array.getElem_modify, Array.getElem_append, Array.size_modify, hi, dite_false,
          hne, if_false]
  pointer := h.pointer

theorem seek {index : Nat} (h : t.ExtendedBy extra t') (hindex : index < t.capacity) :
    (t.seek index).ExtendedBy extra (t'.seek index) where
  cells := h.cells
  pointer := by
    rw [pointer_seek_of_lt hindex, pointer_seek_of_lt]
    rw [h.capacity]
    omega

end ExtendedBy

theorem respectsCells_extendedBy (extra : Array (Cell w)) : RespectsCells (ExtendedBy extra) where
  increase := fun h _ => h.modify _
  decrease := fun h _ => h.modify _
  write := fun h _ => h.modify _
  lowByte := fun h => congrArg Cell.lowByte h.current

/-- A fresh tape is any smaller one with zeros behind it. -/
theorem extendedBy_blank {capacity capacity' : Nat} (pos : 0 < capacity)
    (le : capacity ≤ capacity') (lt : capacity' < bound) :
    (blank w capacity pos (Nat.lt_of_le_of_lt le lt)).ExtendedBy
      (Array.replicate (capacity' - capacity) 0)
      (blank w capacity' (Nat.lt_of_lt_of_le pos le) lt) where
  cells := by
    show Array.replicate capacity' 0 = Array.replicate capacity 0 ++ _
    rw [Array.replicate_append_replicate, Nat.add_sub_cancel' le]
  pointer := rfl

end Tape

/-! ## Instructions -/

namespace Machine

/-- The machine `m'` is `m` on a tape with the cells `extra` behind the last one. -/
structure ExtendedBy (extra : Array (Cell w)) (m m' : Machine w) : Prop where
  tape : m.tape.ExtendedBy extra m'.tape
  input : m'.input = m.input
  output : m'.output = m.output
  cancelled : m'.cancelled = m.cancelled

variable {m m' : Machine w} {i : Instruction}

theorem ExtendedBy.related (h : m.ExtendedBy extra m') :
    Related (Tape.ExtendedBy extra) Eq Eq m m' :=
  ⟨h.tape, h.input.symm, h.output.symm, h.cancelled⟩

theorem Related.extendedBy (h : Related (Tape.ExtendedBy extra) Eq Eq m m') :
    m.ExtendedBy extra m' :=
  ⟨h.tape, h.input.symm, h.output.symm, h.cancelled⟩

/-- The flush is the same on a larger tape. -/
theorem respectsFlush_extendedBy (extra : Array (Cell w)) :
    RespectsFlush (ExtendedBy extra) := by
  intro m m' h
  obtain ⟨hfailure, hrelated⟩ := respectsFlush_eq h.related
  exact ⟨hfailure, hrelated.extendedBy⟩

theorem extendedBy_blank {capacity capacity' : Nat} (pos : 0 < capacity)
    (le : capacity ≤ capacity') (lt : capacity' < Tape.bound) (input : Input) (output : Output)
    (cancelled : Bool) :
    ExtendedBy (Array.replicate (capacity' - capacity) 0)
      ⟨.blank w capacity pos (Nat.lt_of_le_of_lt le lt), input, output, cancelled⟩
      ⟨.blank w capacity' (Nat.lt_of_lt_of_le pos le) lt, input, output, cancelled⟩ :=
  ⟨Tape.extendedBy_blank pos le lt, rfl, rfl, rfl⟩

/-- A move that stays on the tape leads to the same cell of a larger one, whatever the policy. -/
theorem exec_of_extendedBy_of_operator (h : m.ExtendedBy extra m') (policy : BoundsPolicy)
    {d : Direction} (hop : i.op = d.operator) :
    (∃ e, m.exec .fatal i = .failed m (.bounds e)) ∨
      Effect.Alike (ExtendedBy extra) (m.exec .fatal i) (m'.exec policy i) := by
  rw [exec_of_op_eq_operator hop, exec_of_op_eq_operator hop]
  by_cases ht : OnTape m.tape.capacity (m.tape.pointer + d.offset i.count)
  · right
    have ht' : OnTape m'.tape.capacity (m'.tape.pointer + d.offset i.count) := by
      rw [h.tape.pointer, h.tape.capacity]
      exact ⟨ht.1, by have := ht.2; omega⟩
    have hland := BoundsPolicy.fatal.land?_of_onTape ht
    have hland' := policy.land?_of_onTape ht'
    obtain ⟨event, hm⟩ := move_of_land?_eq_some hland
    obtain ⟨event', hm'⟩ := move_of_land?_eq_some hland'
    rw [hm, hm', h.tape.pointer]
    have hlt := BoundsPolicy.lt_of_land? m.tape.pointer_lt_capacity hland
    exact .done ⟨h.tape.seek hlt, h.input, h.output, h.cancelled⟩
  · left
    exact ⟨_, move_of_land?_eq_none (BoundsPolicy.land?_fatal_of_not_onTape ht)⟩

/-- **Instructions do the same on a larger tape**, unless a move leaves the smaller one. -/
theorem exec_of_extendedBy (h : m.ExtendedBy extra m') (policy : BoundsPolicy) (i : Instruction) :
    (∃ e, m.exec .fatal i = .failed m (.bounds e)) ∨
      Effect.Alike (ExtendedBy extra) (m.exec .fatal i) (m'.exec policy i) := by
  by_cases hop : ∃ d : Direction, i.op = d.operator
  · obtain ⟨d, hop⟩ := hop
    exact exec_of_extendedBy_of_operator h policy hop
  -- Everything but a move does not depend on the number of cells.
  · refine Or.inr (.mono (fun _ _ hr => hr.extendedBy) (exec_of_related
      (Tape.respectsCells_extendedBy extra) Input.respectsReads_eq h.related ?_ ?_))
    · exact fun d hd => absurd ⟨d, hd⟩ hop
    · intro _ b
      rw [h.output]
      exact Output.Writing.alike_eq _

end Machine

/-! ## Runs -/

namespace Run

/-- **Runs go in lockstep with those on a larger tape**, under any policy, up to a move that leaves
the smaller one. -/
theorem lockstep_of_extendedBy (p : Program) (policy : BoundsPolicy) (heedsCancel : Bool)
    (extra : Array (Cell w)) :
    Lockstep p ⟨.fatal, heedsCancel⟩ ⟨policy, heedsCancel⟩
      (fun ending => ∃ e, ending = .failed (.bounds e)) (Alike (Machine.ExtendedBy extra)) := by
  intro r r' h
  apply h.advance
  · unfold Rules.stops
    rw [h.machine.cancelled]
  · intro i _ _
    exact jumps_congr h.machine.tape.isZero i.op
  · intro i _ _
    rcases Machine.exec_of_extendedBy h.machine policy i with ⟨e, he⟩ | he
    · exact Or.inl ⟨r.machine, .bounds e, he, e, rfl⟩
    · exact Or.inr he

end Run

namespace Program

variable {p : Program} {rules : Rules} {rounds : Nat} {m m' : Machine w} {x : Execution w}

/-- A run keeps the number of cells. -/
theorem capacity_of_execute (h : p.execute rules rounds m = some x) :
    x.machine.tape.capacity = m.tape.capacity := by
  obtain ⟨k, r, ending, last, hs, ha, rfl⟩ := Run.exists_steps_of_execute h
  show last.machine.tape.capacity = _
  rw [Run.machine_of_advance_ended ha, Machine.tape_endedBy]
  exact (hs.reaches .start).capacity_eq

/-- **A run that stays on its tape** does the same with further cells behind the last one and under
any policy. -/
theorem execute_of_extendedBy (hm : m.ExtendedBy extra m') (policy : BoundsPolicy)
    {heedsCancel : Bool} (h : p.execute ⟨.fatal, heedsCancel⟩ rounds m = some x)
    (hx : ∀ e, x.result ≠ .error (.bounds e)) :
    ∃ x', p.execute ⟨policy, heedsCancel⟩ rounds m' = some x' ∧ x'.result = x.result ∧
      x.machine.ExtendedBy extra x'.machine := by
  obtain ⟨⟨ending, last⟩, hend, rfl⟩ := Option.map_eq_some_iff.mp h
  have hexcused : ¬ ∃ e, ending = .failed (.bounds e) := by
    rintro ⟨e, rfl⟩
    exact hx e rfl
  obtain ⟨last', hend', hlast⟩ := (Run.lockstep_of_extendedBy p policy heedsCancel extra).toEnd
    (Run.alike_start hm) hend hexcused
  have hclose := Execution.alike_close (Machine.respectsFlush_extendedBy extra) hlast ending
  refine ⟨Execution.close ending last', ?_, hclose.result, hclose.machine⟩
  rw [execute, hend']
  rfl

/-- **A run that stays on a fresh tape is the run on any larger one**, under any policy: it comes to
the same end with the same streams and pointer, and the further cells are still zero. -/
theorem execute_on_larger_tape (p : Program) (policy : BoundsPolicy) (heedsCancel : Bool)
    {capacity capacity' : Nat} (pos : 0 < capacity) (le : capacity ≤ capacity')
    (lt : capacity' < Tape.bound) (input : Input) (output : Output) (cancelled : Bool)
    {rounds : Nat} {x : Execution w}
    (h : p.execute ⟨.fatal, heedsCancel⟩ rounds
      ⟨.blank w capacity pos (Nat.lt_of_le_of_lt le lt), input, output, cancelled⟩ = some x)
    (hx : ∀ e, x.result ≠ .error (.bounds e)) :
    ∃ x', p.execute ⟨policy, heedsCancel⟩ rounds
        ⟨.blank w capacity' (Nat.lt_of_lt_of_le pos le) lt, input, output, cancelled⟩ = some x' ∧
      x'.result = x.result ∧
      x'.machine.output = x.machine.output ∧
      x'.machine.input = x.machine.input ∧
      x'.machine.cancelled = x.machine.cancelled ∧
      x'.machine.tape.pointer = x.machine.tape.pointer ∧
      x.machine.tape.capacity = capacity ∧
      x'.machine.tape.cells = x.machine.tape.cells ++ Array.replicate (capacity' - capacity) 0 := by
  obtain ⟨x', h', hresult, hmachine⟩ :=
    execute_of_extendedBy (Machine.extendedBy_blank pos le lt input output cancelled) policy h hx
  have hcapacity := capacity_of_execute h
  exact ⟨x', h', hresult, hmachine.output, hmachine.input, hmachine.cancelled,
    hmachine.tape.pointer, hcapacity.trans Array.size_replicate, hmachine.tape.cells⟩

/-- A byte is moved to the second cell, on a tape of two cells and around one of five. -/
theorem execute_on_larger_tape_moving :
    ∃ (p : Program) (x x' : Execution .byte),
      p.instructions = #[.single .input, .single .loopStart, .single .right, .single .inc,
        .single .left, .single .dec, .single .loopEnd, .single .right, .single .output] ∧
      0 < 2 ∧ 2 ≤ 5 ∧ 5 < Tape.bound ∧
      p.execute ⟨.fatal, true⟩ 20
        ⟨.blank .byte 2 (by decide) (by decide), [.byte 2], .ofDevice .unlimited, false⟩ = some x ∧
      (∀ e, x.result ≠ .error (.bounds e)) ∧
      p.execute ⟨.wrap, true⟩ 20
        ⟨.blank .byte 5 (by decide) (by decide), [.byte 2], .ofDevice .unlimited, false⟩ = some x' ∧
      x'.result = .ok ⟨.finished, 14⟩ ∧ x'.machine.output.written = #[2] ∧
      x'.machine.tape.cells = #[0, 2, 0, 0, 0] := by
  obtain ⟨p, hp, hend⟩ : ∃ p : Program,
      p.instructions = #[.single .input, .single .loopStart, .single .right, .single .inc,
        .single .left, .single .dec, .single .loopEnd, .single .right, .single .output] ∧
      ((p.execute ⟨.fatal, true⟩ 20 ⟨.blank .byte 2 (by decide) (by decide), [.byte 2],
        .ofDevice .unlimited, false⟩).map fun x =>
          (x.result, x.machine.output.written, x.machine.tape.cells)) =
        some (.ok ⟨.finished, 14⟩, #[2], #[0, 2]) :=
    ⟨⟨_, ⟨#[0, 6, 2, 3, 4, 5, 1, 7, 8]⟩, rfl⟩, rfl, rfl⟩
  obtain ⟨x, h, hx⟩ := Option.map_eq_some_iff.mp hend
  obtain ⟨hresult, hrest⟩ := Prod.mk.inj hx
  obtain ⟨hwritten, hcells⟩ := Prod.mk.inj hrest
  have hbounds : ∀ e, x.result ≠ .error (.bounds e) := by
    intro e he
    cases hresult.symm.trans he
  obtain ⟨x', h', hresult', houtput', -, -, -, -, hcells'⟩ :=
    execute_on_larger_tape p .wrap true (by decide : 0 < 2) (by decide : 2 ≤ 5) (by decide)
      [.byte 2] (.ofDevice .unlimited) false h hbounds
  rw [hcells] at hcells'
  rw [← houtput'] at hwritten
  exact ⟨p, x, x', hp, by decide, by decide, by decide, h, hbounds, h', hresult'.trans hresult,
    hwritten, hcells'⟩

end Program

end Brainfuck
