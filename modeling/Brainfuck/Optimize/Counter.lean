import Brainfuck.Instruction

/-!
# Batching in place

Operators can also be batched in one pass that keeps what it has made so far. Each operator is
counted by the last counter, if that counts its repetitions and can count on, or else begins a new
one. A count is then a machine word of thirty-two bits, and one more than the largest count would be
zero.

## Main definitions

* `Counter`: an operator with a machine word that counts it
* `Counter.absorb?`: counting one more operator
* `Counter.batch`: batching in place
-/

namespace Brainfuck

/-- An operator with the number of times that it was counted. -/
structure Counter where
  op : Operator
  count : UInt32
  deriving DecidableEq, Repr

namespace Counter

/-- An operator that was counted once. -/
def single (op : Operator) : Counter :=
  ⟨op, 1⟩

/-- Count one more `op`; none if it has to begin a counter of its own. -/
def absorb? (c : Counter) (op : Operator) : Option Counter :=
  if op ≠ c.op ∨ ¬ op.IsBatchable ∨ c.count = 4294967295 then none
  else some { c with count := c.count + 1 }

/-- Count an operator in the last counter, or else begin a new one with it. -/
def enter (counters : Array Counter) (op : Operator) : Array Counter :=
  match counters.back?.bind (absorb? · op) with
  | some longer => counters.pop.push longer
  | none => counters.push (.single op)

/-- Batch operators in place. -/
def batch (ops : List Operator) : Array Counter :=
  ops.foldl enter #[]

end Counter

end Brainfuck
