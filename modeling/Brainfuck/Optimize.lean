import Brainfuck.Instruction

/-!
# Optimizing

A program is optimized in two passes. The first replaces each loop that only counts its cell to
zero, written `[-]` or `[+]`, by the operator `clear`. The second batches runs of one operator into
counted instructions. Loops have to be recognised first: a batched run inside a loop no longer
shows whether it is a single step.

## Main definitions

* `fuseClearLoops`: the first pass
* `batch`: the second pass
* `optimize`: both passes

## Main results

* `expand_batch`: batching keeps the operators
* `expand_optimize`: an optimized program stands for the operators after the first pass
-/

namespace Brainfuck

/-! ## Clear loops -/

/-- Replace every clear loop, from left to right, by `clear`. -/
def fuseClearLoops : List Operator → List Operator
  | .loopStart :: .inc :: .loopEnd :: rest => .clear :: fuseClearLoops rest
  | .loopStart :: .dec :: .loopEnd :: rest => .clear :: fuseClearLoops rest
  | op :: rest => op :: fuseClearLoops rest
  | [] => []

/-! ## Batching -/

/-- Batch operators where `current` is the instruction that is still growing. -/
def batchFrom (current : Instruction) : List Operator → List Instruction
  | [] => [current]
  | op :: rest =>
    match current.absorb? op with
    | some longer => batchFrom longer rest
    | none => current :: batchFrom (.single op) rest

/-- Merge runs of one batchable operator into counted instructions; a run longer than the largest
count fills instructions from the left. -/
def batch : List Operator → List Instruction
  | [] => []
  | op :: rest => batchFrom (.single op) rest

theorem batchFrom_cons_of_absorb? {i j : Instruction} {op : Operator} (h : i.absorb? op = some j)
    (ops : List Operator) : batchFrom i (op :: ops) = batchFrom j ops := by
  rw [batchFrom, h]

theorem batchFrom_cons_of_not_absorb? {i : Instruction} {op : Operator} (h : i.absorb? op = none)
    (ops : List Operator) : batchFrom i (op :: ops) = i :: batch (op :: ops) := by
  rw [batchFrom, h, batch]

theorem expand_batchFrom (current : Instruction) (ops : List Operator) :
    Instruction.expand (batchFrom current ops) =
      List.replicate current.count current.op ++ ops := by
  induction ops generalizing current with
  | nil => simp [batchFrom]
  | cons op rest ih =>
    unfold batchFrom
    split
    next longer h =>
      obtain ⟨hi, hj, hcount⟩ := Instruction.eq_of_absorb? h
      rw [ih, hj, hcount, hi, List.replicate_succ', List.append_assoc, List.singleton_append]
    next => simp [ih, Instruction.single]

theorem expand_batch (ops : List Operator) : Instruction.expand (batch ops) = ops := by
  cases ops with
  | nil => rfl
  | cons op rest => simp [batch, expand_batchFrom, Instruction.single]

/-! ## Both passes -/

/-- Fuse clear loops, then batch. -/
def optimize (ops : List Operator) : List Instruction :=
  batch (fuseClearLoops ops)

theorem expand_optimize (ops : List Operator) :
    Instruction.expand (optimize ops) = fuseClearLoops ops :=
  expand_batch _

end Brainfuck
