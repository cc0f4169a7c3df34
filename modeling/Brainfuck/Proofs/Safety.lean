import Brainfuck.Proofs.Matching
import Brainfuck.Proofs.Movement
import Brainfuck.Proofs.Steps

/-!
# Runs stay in bounds

A program can be executed any number of times on one tape, and the flag can be raised and lowered
meanwhile. Between two executions the streams may change as well, so that one that failed may work
the next time. In every state that comes up, the program counter is an index of the
program or the one after the last, the pointer is that of a cell, and brackets that jump lead to
their opposites. The arithmetic of the next instruction has a result on words, so that no run ends
in a fault.

## Main definitions

* `Run.Reaches`: the states that come up while a program is executed over and over
* `Tape.Computes`: the arithmetic of a move has a result
* `Run.InBounds`: a state is in bounds

## Main results

* `Machine.capacity_of_exec_done`: an instruction keeps the number of cells
* `Tape.computes`: on a tape the arithmetic of every move has a result
* `Run.Reaches.inBounds`: every state that comes up is in bounds
* `Run.inBounds_of_reaches_blank`: so it is from a blank tape
-/

namespace Brainfuck

/-- Two brackets are opposite: one starts a loop and the other ends one. -/
def Operator.IsOpposite (op op' : Operator) : Prop :=
  (op = loopStart ∧ op' = loopEnd) ∨ (op = loopEnd ∧ op' = loopStart)

variable {w : Width} {p : Program} {rules : Rules}

/-- The states that come up while a program is executed on a machine: on the way through the
program, and then from its start again, with streams that may have changed. At any time the flag can
be set from outside. -/
inductive Run.Reaches (p : Program) (rules : Rules) (m : Machine w) : Run w → Prop
  | start : Reaches p rules m (.start m)
  | running {r r' : Run w} (reached : Reaches p rules m r)
      (h : r.advance p rules = .running r') : Reaches p rules m r'
  | again {r last : Run w} {ending : Ending} (reached : Reaches p rules m r)
      (h : r.advance p rules = .ended ending last) (input : Input) (output : Output) :
      Reaches p rules m (.start { (Execution.close ending last).machine with input, output })
  | flag {r : Run w} (reached : Reaches p rules m r) (raised : Bool) :
      Reaches p rules m { r with machine := { r.machine with cancelled := raised } }

/-! ## Moves -/

/-- The arithmetic of a move of `n` cells has a result on words, and leads to cells. -/
structure Tape.Computes (t : Tape w) (d : Direction) (n : Nat) : Prop where
  /-- The sum of the pointer and the number of cells is a word. -/
  sum : Word.add? t.pointer n = some (t.pointer + n)
  /-- A move fails for no other reason than that it leaves the tape. -/
  fails_iff : t.destination? d n = none ↔ ¬ OnTape t.capacity (t.pointer + d.offset n)
  /-- There is a last cell. -/
  last : Word.sub? t.capacity 1 = some (t.capacity - 1)
  /-- From the report of a move that fails, the way around the tape is computed on words throughout
  and leads to a cell. -/
  around : ∀ e, t.move d n = .error e →
    ∃ index < t.capacity, BoundsPolicy.around? t.capacity e.pointer n e.direction = some index

/-- **On a tape the arithmetic of every move has a result.** -/
theorem Tape.computes (t : Tape w) (d : Direction) {n : Nat} (hn : n ≤ maxCount) :
    t.Computes d n where
  sum := by
    have hp := t.pointer_lt_capacity
    have hc : t.capacity < 9223372036854775808 := t.size_lt
    refine Word.add?_eq_some_iff.mpr ⟨?_, rfl⟩
    unfold Word.limit
    unfold maxCount at hn
    omega
  fails_iff := by
    rw [destination?_eq]
    split <;> simp_all
  last := t.sub?_capacity_one
  around := by
    intro e he
    obtain ⟨-, rfl⟩ := move_eq_error_iff.mp he
    exact t.exists_around? d n

/-! ## The number of cells -/

namespace Machine

variable {policy : BoundsPolicy} {m m' : Machine w} {event : Option Event}

theorem tape_of_print_done (h : m.print = .done m' event) : m'.tape = m.tape := by
  unfold print at h
  split at h
  · obtain ⟨rfl, -⟩ := Effect.done.inj h
    rfl
  · cases h

/-- **An instruction keeps the number of cells.** -/
theorem capacity_of_exec_done {i : Instruction} (h : m.exec policy i = .done m' event) :
    m'.tape.capacity = m.tape.capacity := by
  cases does_of_exec_done h with
  | move _ h =>
    obtain ⟨index, rfl⟩ := exists_seek_of_move_done h
    rfl
  | read _ h =>
    obtain ⟨rfl, -⟩ := Effect.done.inj h
    exact Tape.capacity_modify _ _
  | print _ h => rw [tape_of_print_done h]
  | change _ _ _ hcapacity => exact hcapacity

end Machine

/-! ## Jumps -/

namespace Program

/-- The target of an instruction is its partner. -/
theorem partner_of_target? {pc target : Nat} (h : p.jumps.target? pc = some target) :
    Partner p.operators pc target :=
  (JumpTable.target?_eq_some_iff p.resolved).mp h

/-- **The target of a bracket** is the opposite bracket. -/
theorem isOpposite_of_target? {i : Instruction} {pc target : Nat}
    (hi : p.instructions[pc]? = some i) (hop : i.op.IsBracket)
    (ht : p.jumps.target? pc = some target) :
    ∃ i', p.instructions[target]? = some i' ∧ i.op.IsOpposite i'.op := by
  have hpc := getElem?_operators.mpr ⟨i, hi, rfl⟩
  have hp := partner_of_target? ht
  rcases hop with hop | hop
  · rw [hop] at hpc ⊢
    obtain ⟨i', hi', hop'⟩ := getElem?_operators.mp (hp.encloses_of_loopStart hpc).stop
    exact ⟨i', hi', Or.inl ⟨rfl, hop'⟩⟩
  · rw [hop] at hpc ⊢
    obtain ⟨i', hi', hop'⟩ := getElem?_operators.mp (hp.encloses_of_loopEnd hpc).start
    exact ⟨i', hi', Or.inr ⟨rfl, hop'⟩⟩

end Program

/-! ## States in bounds -/

namespace Run

/-- **A state of a run is in bounds**, and its next instruction has a result on words. -/
structure InBounds (p : Program) (rules : Rules) (capacity : Nat) (r : Run w) : Prop where
  /-- The program counter is an index of the program, or the one after the last. -/
  pc_le : r.pc ≤ p.size
  /-- The number of cells has not changed. -/
  capacity_eq : r.machine.tape.capacity = capacity
  /-- The pointer is that of a cell. -/
  pointer_lt : r.machine.tape.pointer < capacity
  /-- A bracket that jumps has the opposite bracket as its target. The index after it is a word if
  all indices of the program are. -/
  jump : ∀ i, p.instructions[r.pc]? = some i → r.jumps i.op = true →
    ∃ target i', p.jumps.target? r.pc = some target ∧ p.instructions[target]? = some i' ∧
      i.op.IsOpposite i'.op ∧ target + 1 ≤ p.size ∧
      (p.size < Word.limit → Word.add? target 1 = some (target + 1))
  /-- The arithmetic of a move has a result. -/
  move : ∀ i d, p.instructions[r.pc]? = some i → i.op = d.operator →
    r.machine.tape.Computes d i.count
  /-- The next round does not end in a fault. -/
  not_fault : ∀ fault last, r.advance p rules ≠ .ended (.failed (.fault fault)) last

variable {r r' : Run w} {m : Machine w}

theorem isBracket_of_jumps {op : Operator} (h : r.jumps op = true) : op.IsBracket := by
  cases op with
  | loopStart => exact Or.inl rfl
  | loopEnd => exact Or.inr rfl
  | _ => cases h

/-- Where an instruction leads is an index of the program, or the one after the last. -/
theorem next?_le {i : Instruction} {pc : Nat} (hi : p.instructions[r.pc]? = some i)
    (hn : r.next? p i = some pc) : pc ≤ p.size := by
  rcases cases_of_next? hn with ⟨hj, target, ht, rfl⟩ | ⟨-, rfl⟩
  · obtain ⟨i', hi', -⟩ := Program.isOpposite_of_target? hi (isBracket_of_jumps hj) ht
    exact (Array.getElem?_eq_some_iff.mp hi').1
  · exact (Array.getElem?_eq_some_iff.mp hi).1

/-- A bracket that jumps has a target, which is the opposite bracket. -/
theorem exists_target {i : Instruction} (hi : p.instructions[r.pc]? = some i)
    (hj : r.jumps i.op = true) :
    ∃ target i', p.jumps.target? r.pc = some target ∧ p.instructions[target]? = some i' ∧
      i.op.IsOpposite i'.op := by
  obtain ⟨pc, hn⟩ := exists_next? hi
  rw [next?, if_pos hj] at hn
  obtain ⟨target, ht, -⟩ := Option.map_eq_some_iff.mp hn
  obtain ⟨i', hi', hop⟩ := Program.isOpposite_of_target? hi (isBracket_of_jumps hj) ht
  exact ⟨target, i', ht, hi', hop⟩

/-- No round ends in a fault. -/
theorem not_fault (p : Program) (rules : Rules) (r : Run w) (fault : Fault) (last : Run w) :
    r.advance p rules ≠ .ended (.failed (.fault fault)) last := by
  intro h
  obtain ⟨i, -, he⟩ := exec_of_advance_failed h
  rcases Machine.cases_of_exec_failed he with ⟨cause, hcause⟩ | ⟨-, d, -, hb, -⟩
  · cases hcause
  · cases hb

namespace Reaches

/-- A round leads on to an index of the program, or to the one after the last. -/
theorem pc_le (h : Reaches p rules m r) : r.pc ≤ p.size := by
  induction h with
  | start => exact Nat.zero_le _
  | running _ ha =>
    obtain ⟨i, event, hi, -, hn⟩ := exec_of_advance_running ha
    exact next?_le hi hn
  | again => exact Nat.zero_le _
  | flag _ _ ih => exact ih

/-- Nothing changes the number of cells. -/
theorem capacity_eq (h : Reaches p rules m r) :
    r.machine.tape.capacity = m.tape.capacity := by
  induction h with
  | start => rfl
  | running _ ha ih =>
    obtain ⟨i, event, -, he, -⟩ := exec_of_advance_running ha
    rw [Machine.capacity_of_exec_done he, ih]
  | @again r last ending _ ha _ _ ih =>
    show last.machine.tape.capacity = _
    rw [machine_of_advance_ended ha, Machine.tape_endedBy, ih]
  | flag _ _ ih => exact ih

/-- **Every state that comes up is in bounds.** -/
theorem inBounds (h : Reaches p rules m r) : r.InBounds p rules m.tape.capacity where
  pc_le := h.pc_le
  capacity_eq := h.capacity_eq
  pointer_lt := by
    rw [← h.capacity_eq]
    exact r.machine.tape.pointer_lt_capacity
  jump := by
    intro i hi hj
    obtain ⟨target, i', ht, hi', hop⟩ := exists_target hi hj
    have hlt : target < p.size := (Array.getElem?_eq_some_iff.mp hi').1
    exact ⟨target, i', ht, hi', hop, hlt,
      fun hsize => Word.add?_eq_some_iff.mpr ⟨Nat.lt_of_le_of_lt hlt hsize, rfl⟩⟩
  move := fun i d _ _ => r.machine.tape.computes d i.count_le
  not_fault := r.not_fault p rules

end Reaches

theorem Steps.reaches {k : Nat} (hs : Steps p rules k r r') (h : Reaches p rules m r) :
    Reaches p rules m r' := by
  induction hs with
  | refl => exact h
  | head first _ ih => exact ih (h.running first)

/-- **Every state that comes up from a blank tape is in bounds**, whatever the streams do. -/
theorem inBounds_of_reaches_blank {capacity : Nat} (pos : 0 < capacity)
    (lt : capacity < Tape.bound) {input : Input} {output : Output} {cancelled : Bool}
    (h : Reaches p rules ⟨.blank w capacity pos lt, input, output, cancelled⟩ r) :
    r.InBounds p rules capacity := by
  have hcapacity : (Tape.blank w capacity pos lt).capacity = capacity := Array.size_replicate
  have hbounds := h.inBounds
  rwa [hcapacity] at hbounds

/-- A loop that is entered a second time around a tape of two cells: its loop end is to jump. -/
theorem inBounds_around_twice :
    ∃ (p : Program) (r : Run .byte),
      p.instructions = #[.single .inc, .single .loopStart, .single .left, .single .loopEnd] ∧
      0 < 2 ∧ 2 < Tape.bound ∧
      Reaches p ⟨.wrap, true⟩
        ⟨.blank .byte 2 (by decide) (by decide), [], .ofDevice .unlimited, false⟩ r ∧
      r.pc = 3 ∧ r.jumps .loopEnd = true ∧ r.InBounds p ⟨.wrap, true⟩ 2 := by
  let p : Program :=
    ⟨#[.single .inc, .single .loopStart, .single .left, .single .loopEnd], ⟨#[0, 3, 2, 1]⟩, rfl⟩
  have first : Reaches p ⟨.wrap, true⟩
      ⟨.blank .byte 2 (by decide) (by decide), [], .ofDevice .unlimited, false⟩ _ :=
    .again (.running (.running (.running (.running .start rfl) rfl) rfl) rfl) rfl []
      (.ofDevice .unlimited)
  have second := Reaches.running (.running (.running first rfl) rfl) rfl
  exact ⟨p, _, rfl, by decide, by decide, second, rfl, rfl,
    inBounds_of_reaches_blank (by decide) (by decide) second⟩

end Run

end Brainfuck
