import Brainfuck.Proofs.Outputs

/-!
# The trail of a run

A run leaves behind the bytes that it writes and the events that it logs. Each of them comes from
one instruction, and is told from the instruction and the machines before and after it. So what a
run has left behind is what its instructions contribute, in the order of their execution.

## Main definitions

* `Run.trail`: what the first instructions of a run contribute
* `Instruction.byte?`: the byte that an instruction writes

## Main results

* `Run.Steps.trail`: what grows by the contribution of every instruction has grown by the trail
* `Run.exists_of_mem_trail`: every part of a trail comes from an instruction
* `Run.Steps.written`: a run has written the bytes of its output instructions
-/

namespace Brainfuck

variable {w : Width} {α : Type}

/-! ## Contributions of instructions -/

namespace Run

/-- What the first `k` instructions of a run contribute, in order. The contribution of an
instruction is told from the machines before and after it. -/
def trail (p : Program) (rules : Rules) (f : Instruction → Machine w → Machine w → Option α) :
    (k : Nat) → Run w → List α
  | 0, _ => []
  | k + 1, r =>
    match p.instructions[r.pc]?, r.advance p rules with
    | some i, .running next => (f i r.machine next.machine).toList ++ trail p rules f k next
    | _, _ => []

variable {p : Program} {rules : Rules} {f : Instruction → Machine w → Machine w → Option α}
  {r next s : Run w} {i : Instruction} {k : Nat}

theorem trail_succ (hi : p.instructions[r.pc]? = some i) (ha : r.advance p rules = .running next) :
    r.trail p rules f (k + 1) =
      (f i r.machine next.machine).toList ++ next.trail p rules f k := by
  rw [trail, hi, ha]

/-- **What grows by the contribution of every instruction** has grown by the trail. -/
theorem Steps.trail {g : Run w → List α}
    (hg : ∀ {r next i}, p.instructions[r.pc]? = some i → r.advance p rules = .running next →
      g next = g r ++ (f i r.machine next.machine).toList)
    (h : Steps p rules k r s) : g s = g r ++ r.trail p rules f k := by
  induction h with
  | refl r => exact (List.append_nil _).symm
  | head first _ ih =>
    obtain ⟨i, event, hi, -, -⟩ := exec_of_advance_running first
    rw [ih, hg hi first, trail_succ hi first, List.append_assoc]

/-- **Every part of a trail** comes from an instruction of the run. -/
theorem exists_of_mem_trail {a : α} (h : a ∈ r.trail p rules f k) :
    ∃ j s next i, Steps p rules j r s ∧ p.instructions[s.pc]? = some i ∧
      s.advance p rules = .running next ∧ f i s.machine next.machine = some a := by
  induction k generalizing r with
  | zero => cases h
  | succ k ih =>
    rw [Run.trail] at h
    split at h
    next i next hi ha =>
      -- It comes from the first instruction, or from one of the run behind it.
      rcases List.mem_append.mp h with h | h
      · exact ⟨0, r, next, i, .refl r, hi, ha, Option.mem_toList.mp h⟩
      · obtain ⟨j, s, next', i', hs, hi', ha', hf⟩ := ih h
        exact ⟨j + 1, s, next', i', .head ha hs, hi', ha', hf⟩
    next => cases h

end Run

/-! ## The bytes of a run -/

/-- The byte that an instruction writes: an output instruction writes the low byte of the current
cell. -/
def Instruction.byte? (i : Instruction) (m : Machine w) : Option UInt8 :=
  if i.op = .output then some (Cell.lowByte m.tape.current) else none

theorem Instruction.byte?_of_ne (i : Instruction) (h : i.op ≠ .output) (m : Machine w) :
    i.byte? m = none :=
  if_neg h

namespace Machine

variable {policy : BoundsPolicy} {m m' : Machine w} {event : Option Event} {i : Instruction}

theorem written_of_print_done (h : m.print = .done m' event) :
    m'.output.written = m.output.written.push (Cell.lowByte m.tape.current) := by
  rw [print_of_accept (accept_of_print_done h)] at h
  obtain ⟨rfl, -⟩ := Effect.done.inj h
  rfl

/-- **An instruction writes its byte**, and nothing else. -/
theorem written_of_exec_done (h : m.exec policy i = .done m' event) :
    m'.output.written.toList = m.output.written.toList ++ (i.byte? m).toList := by
  cases does_of_exec_done h with
  | @move d _ _ hop h =>
    obtain ⟨index, rfl⟩ := exists_seek_of_move_done h
    rw [i.byte?_of_ne (by rw [hop]; cases d <;> decide) m]
    exact (List.append_nil _).symm
  | read hop h =>
    obtain ⟨rfl, -⟩ := Effect.done.inj h
    rw [i.byte?_of_ne (by rw [hop]; decide) m]
    exact (List.append_nil _).symm
  | print hop h =>
    rw [written_of_print_done h, Instruction.byte?, if_pos hop, Array.toList_push,
      Option.toList_some]
  | change _ _ hop =>
    rw [i.byte?_of_ne hop m]
    exact (List.append_nil _).symm

end Machine

/-- **A run has written the bytes of its output instructions.** -/
theorem Run.Steps.written {p : Program} {rules : Rules} {r s : Run w} {k : Nat}
    (h : Steps p rules k r s) :
    s.machine.output.written.toList =
      r.machine.output.written.toList ++ r.trail p rules (fun i m _ => i.byte? m) k := by
  refine h.trail (g := fun r => r.machine.output.written.toList) fun hi ha => ?_
  obtain ⟨i', event, hi', he, -⟩ := exec_of_advance_running ha
  obtain rfl := Option.some.inj (hi.symm.trans hi')
  exact Machine.written_of_exec_done he

end Brainfuck
