import Brainfuck.JumpTable

/-!
# Programs

A program is an instruction list whose loops balance, together with its jump table.

## Main definitions

* `Program`: instructions with the jump table that was resolved from them
* `Program.ofInstructions`: the program of an instruction list
* `Program.operators`: the operators of a program

## Main results

* `Program.ofInstructions_eq_error_iff`: a list makes no program exactly if its loops do not resolve
* `Program.size_targets`: the jump table has one entry for each instruction
-/

namespace Brainfuck

/-- Instructions that are ready to run. -/
structure Program where
  instructions : Array Instruction
  jumps : JumpTable
  resolved : JumpTable.resolve instructions.toList = .ok jumps

namespace Program

/-- The program of an instruction list, if its loops balance. -/
def ofInstructions (code : List Instruction) : Except LoopError Program :=
  match h : JumpTable.resolve code with
  | .ok jumps => .ok ⟨code.toArray, jumps, by simpa using h⟩
  | .error e => .error e

/-- The number of instructions. -/
def size (p : Program) : Nat :=
  p.instructions.size

/-- The operators of the instructions. -/
def operators (p : Program) : List Operator :=
  p.instructions.toList.map Instruction.op

theorem getElem?_operators {p : Program} {n : Nat} {op : Operator} :
    p.operators[n]? = some op ↔ ∃ i, p.instructions[n]? = some i ∧ i.op = op := by
  rw [operators, List.getElem?_map, Array.getElem?_toList, Option.map_eq_some_iff]

theorem size_targets (p : Program) : p.jumps.targets.size = p.size := by
  simpa [size] using JumpTable.size_of_resolve p.resolved

theorem toList_of_ofInstructions {code : List Instruction} {p : Program}
    (h : ofInstructions code = .ok p) : p.instructions.toList = code := by
  unfold ofInstructions at h
  split at h
  · obtain rfl := Except.ok.inj h
    rfl
  · cases h

theorem ofInstructions_toList (p : Program) : ofInstructions p.instructions.toList = .ok p := by
  unfold ofInstructions
  split
  next jumps h =>
    obtain rfl := Except.ok.inj (p.resolved.symm.trans h)
    rfl
  next e h => cases p.resolved.symm.trans h

theorem ofInstructions_eq_error_iff {code : List Instruction} {e : LoopError} :
    ofInstructions code = .error e ↔ JumpTable.resolve code = .error e := by
  unfold ofInstructions
  split
  next h => simp [h]
  next h => simp [h]

end Program

end Brainfuck
