import Brainfuck.Operator

/-!
# Instructions

An instruction is an operator with the number of times that it is repeated. Only batchable
operators are repeated, and a count fits in a thirty-two-bit word.

## Main definitions

* `Instruction`: an operator with its count
* `Instruction.single`, `Instruction.repeated?`, `Instruction.absorb?`: ways to make one
* `Instruction.expand`: the operators that a list of instructions stands for
* `Instruction.render`: those operators as a source text

## Main results

* `Instruction.count_pos`, `Instruction.count_le`: the range of a count
* `Instruction.expand_append`: expansion goes instruction by instruction
-/

namespace Brainfuck

/-- The largest count of an instruction, `2 ^ 32 - 1`. -/
def maxCount : Nat := 4294967295

/-- An operator repeated `count` times. -/
structure Instruction where
  op : Operator
  count : Nat
  valid : count = 1 ∨ (1 < count ∧ count ≤ maxCount ∧ op.IsBatchable)
  deriving DecidableEq, Repr

namespace Instruction

/-- An operator on its own. -/
def single (op : Operator) : Instruction :=
  ⟨op, 1, .inl rfl⟩

/-- An operator with a given count, where that count is allowed. -/
def repeated? (op : Operator) (count : Nat) : Option Instruction :=
  if h : count = 1 ∨ (1 < count ∧ count ≤ maxCount ∧ op.IsBatchable) then some ⟨op, count, h⟩
  else none

theorem count_pos (i : Instruction) : 0 < i.count := by
  rcases i.valid with h | ⟨h, -⟩ <;> omega

theorem count_le (i : Instruction) : i.count ≤ maxCount := by
  rcases i.valid with h | ⟨-, h, -⟩
  · rw [h]; decide
  · exact h

/-- Only batchable operators are repeated. -/
theorem isBatchable_of_one_lt {i : Instruction} (h : 1 < i.count) : i.op.IsBatchable := by
  rcases i.valid with hi | ⟨-, -, hb⟩
  · omega
  · exact hb

/-- The instruction with one more `op`; none if `op` has to start an instruction of its own. -/
def absorb? (i : Instruction) (op : Operator) : Option Instruction :=
  if h : op = i.op ∧ i.op.IsBatchable ∧ i.count < maxCount then
    some ⟨i.op, i.count + 1, .inr ⟨Nat.succ_lt_succ i.count_pos, h.2.2, h.2.1⟩⟩
  else none

theorem eq_of_absorb? {i j : Instruction} {op : Operator} (h : i.absorb? op = some j) :
    i.op = op ∧ j.op = op ∧ j.count = i.count + 1 := by
  unfold absorb? at h
  split at h
  next hc =>
    obtain rfl := Option.some.inj h
    exact ⟨hc.1.symm, hc.1.symm, rfl⟩
  next => cases h

/-- The instruction as it is shown: the operator, and its count where that is not one. -/
def text (i : Instruction) : String :=
  if i.count = 1 then i.op.text else i.op.text ++ "x" ++ Nat.repr i.count

/-- The operators that an instruction list stands for, one for each repetition. -/
def expand (code : List Instruction) : List Operator :=
  code.flatMap fun i => List.replicate i.count i.op

/-- An instruction list written out as a source text. -/
def render (code : List Instruction) : String :=
  String.ofList ((expand code).flatMap Operator.spelling)

/-- An instruction list as it is shown: the instructions with a blank between any two. -/
def listing (code : List Instruction) : String :=
  " ".intercalate (code.map text)

@[simp]
theorem expand_nil : expand [] = [] := rfl

@[simp]
theorem expand_cons (i : Instruction) (code : List Instruction) :
    expand (i :: code) = List.replicate i.count i.op ++ expand code := rfl

theorem expand_append (code code' : List Instruction) :
    expand (code ++ code') = expand code ++ expand code' :=
  List.flatMap_append

end Instruction

end Brainfuck
