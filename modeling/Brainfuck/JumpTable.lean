import Brainfuck.Instruction

/-!
# Jump tables

A jump table holds, for every instruction of a list, the index of its partner: the matching loop end
for a loop start, the matching loop start for a loop end, and the instruction itself otherwise. It
is found in one pass that keeps the indices of the loop starts that are still open.

## Main definitions

* `LoopError`: the two ways in which loops fail to balance
* `JumpTable.resolve`: the jump table of an instruction list

## Main results

* `JumpTable.size_of_resolve`: a table has one entry for each instruction
-/

namespace Brainfuck

/-- Why the loops of an instruction list do not balance. -/
inductive LoopError
  /-- The instruction at `index` ends a loop, and none is open. -/
  | unmatchedEnd (index : Nat)
  /-- The list ends with `count` loops still open. -/
  | unclosedStart (count : Nat)
  deriving DecidableEq, Repr

def LoopError.message : LoopError → String
  | unmatchedEnd index => s!"Invalid loops: unmatched loop end at instruction {index}"
  | unclosedStart count => s!"Invalid loops: {count} loop start(s) never closed"

/-- For every instruction of a list, the index of its partner. -/
structure JumpTable where
  targets : Array Nat
  deriving DecidableEq, Repr

namespace JumpTable

/-- The index of the partner of the instruction at `pc`. -/
def target? (table : JumpTable) (pc : Nat) : Option Nat :=
  table.targets[pc]?

/-- The number of loops: of entries that point forward. -/
def loops (table : JumpTable) : Nat :=
  table.targets.toList.zipIdx.countP fun (target, pc) => pc < target

/-- Resolve the rest of an instruction list, after the instructions that have their entry in
`targets`; `started` holds the loop starts among them that are still open, the innermost first. -/
def resolveFrom (targets : Array Nat) (started : List Nat) :
    List Instruction → Except LoopError (Array Nat)
  | [] =>
    match started with
    | [] => .ok targets
    | _ :: _ => .error (.unclosedStart started.length)
  | i :: rest =>
    match i.op with
    -- The entry of a loop start is set once its loop end is found.
    | .loopStart => resolveFrom (targets.push targets.size) (targets.size :: started) rest
    | .loopEnd =>
      match started with
      | [] => .error (.unmatchedEnd targets.size)
      | start :: outer =>
        resolveFrom ((targets.setIfInBounds start targets.size).push start) outer rest
    | _ => resolveFrom (targets.push targets.size) started rest

/-- The jump table of an instruction list, or the first reason why it has none. -/
def resolve (code : List Instruction) : Except LoopError JumpTable :=
  (resolveFrom #[] [] code).map JumpTable.mk

theorem resolveFrom_of_loopStart {i : Instruction} (h : i.op = .loopStart) (targets : Array Nat)
    (started : List Nat) (rest : List Instruction) :
    resolveFrom targets started (i :: rest) =
      resolveFrom (targets.push targets.size) (targets.size :: started) rest := by
  simp only [resolveFrom, h]

theorem resolveFrom_of_loopEnd {i : Instruction} (h : i.op = .loopEnd) (targets : Array Nat)
    (start : Nat) (outer : List Nat) (rest : List Instruction) :
    resolveFrom targets (start :: outer) (i :: rest) =
      resolveFrom ((targets.setIfInBounds start targets.size).push start) outer rest := by
  simp only [resolveFrom, h]

theorem resolveFrom_of_not_isBracket {i : Instruction} (h : ¬ i.op.IsBracket)
    (targets : Array Nat) (started : List Nat) (rest : List Instruction) :
    resolveFrom targets started (i :: rest) =
      resolveFrom (targets.push targets.size) started rest := by
  cases hop : i.op with
  | loopStart => exact absurd (Or.inl hop) h
  | loopEnd => exact absurd (Or.inr hop) h
  | _ => simp only [resolveFrom, hop]

theorem size_of_resolveFrom {code : List Instruction} {targets targets' : Array Nat}
    {started : List Nat} (h : resolveFrom targets started code = .ok targets') :
    targets'.size = targets.size + code.length := by
  induction code generalizing targets started with
  | nil =>
    cases started with
    | nil => obtain rfl := Except.ok.inj h; rfl
    | cons start outer => cases h
  | cons i rest ih =>
    unfold resolveFrom at h
    split at h
    · rw [ih h, Array.size_push, List.length_cons]; omega
    · cases started with
      | nil => cases h
      | cons start outer =>
        rw [ih h, Array.size_push, Array.size_setIfInBounds, List.length_cons]; omega
    · rw [ih h, Array.size_push, List.length_cons]; omega

theorem size_of_resolve {code : List Instruction} {table : JumpTable}
    (h : resolve code = .ok table) : table.targets.size = code.length := by
  unfold resolve at h
  cases hr : resolveFrom #[] [] code with
  | error e => rw [hr] at h; cases h
  | ok targets =>
    rw [hr] at h
    obtain rfl := Except.ok.inj h
    simpa using size_of_resolveFrom hr

end JumpTable

end Brainfuck
