import Brainfuck.JumpTable

/-!
# Jump tables by search

A jump table can also be found without a record of the loops that are open. Then the brackets are
counted first, and if they balance, the list is searched for the loop end of every loop start. The
search goes over the rest of the list for each of them, while `JumpTable.resolve` needs one pass.

## Main definitions

* `JumpTable.balanceFrom`: counting the loops that are open
* `JumpTable.loopEnd?`: the loop end that comes after a loop start
* `JumpTable.search`: the jump table of an instruction list
-/

namespace Brainfuck.JumpTable

/-- Count the loops that are open. The list begins at `index`, with `opened` of them. -/
def balanceFrom (index opened : Nat) : List Instruction → Except LoopError Unit
  | [] => if opened = 0 then .ok () else .error (.unclosedStart opened)
  | i :: rest =>
    match i.op with
    | .loopStart => balanceFrom (index + 1) (opened + 1) rest
    | .loopEnd =>
      match opened with
      | 0 => .error (.unmatchedEnd index)
      | opened + 1 => balanceFrom (index + 1) opened rest
    | _ => balanceFrom (index + 1) opened rest

/-- The index of the loop end that is not matched in the list that begins at `index`, after the
ends of `depth` loops that were started before. -/
def loopEnd? (index depth : Nat) : List Instruction → Option Nat
  | [] => none
  | i :: rest =>
    match i.op with
    | .loopStart => loopEnd? (index + 1) (depth + 1) rest
    | .loopEnd =>
      match depth with
      | 0 => some index
      | depth + 1 => loopEnd? (index + 1) depth rest
    | _ => loopEnd? (index + 1) depth rest

/-- Enter the loops that start in the list, which begins at `start`: the two brackets of a loop
become the partners of each other. -/
def pairFrom (targets : Array Nat) (start : Nat) : List Instruction → Array Nat
  | [] => targets
  | i :: rest =>
    if i.op = .loopStart then
      match loopEnd? (start + 1) 0 rest with
      | some stop =>
        pairFrom ((targets.setIfInBounds start stop).setIfInBounds stop start) (start + 1) rest
      | none => pairFrom targets (start + 1) rest
    else pairFrom targets (start + 1) rest

/-- The jump table of an instruction list by search, or the first reason why it has none. At first
every instruction is its own partner. -/
def search (code : List Instruction) : Except LoopError JumpTable :=
  (balanceFrom 0 0 code).map fun _ => ⟨pairFrom (Array.range code.length) 0 code⟩

theorem balanceFrom_of_not_isBracket {i : Instruction} (h : ¬ i.op.IsBracket) (index opened : Nat)
    (rest : List Instruction) :
    balanceFrom index opened (i :: rest) = balanceFrom (index + 1) opened rest := by
  cases hop : i.op with
  | loopStart => exact absurd (Or.inl hop) h
  | loopEnd => exact absurd (Or.inr hop) h
  | _ => simp only [balanceFrom, hop]

theorem loopEnd?_of_not_isBracket {i : Instruction} (h : ¬ i.op.IsBracket) (index depth : Nat)
    (rest : List Instruction) :
    loopEnd? index depth (i :: rest) = loopEnd? (index + 1) depth rest := by
  cases hop : i.op with
  | loopStart => exact absurd (Or.inl hop) h
  | loopEnd => exact absurd (Or.inr hop) h
  | _ => simp only [loopEnd?, hop]

theorem pairFrom_of_op_ne {i : Instruction} (h : i.op ≠ .loopStart) (targets : Array Nat)
    (start : Nat) (rest : List Instruction) :
    pairFrom targets start (i :: rest) = pairFrom targets (start + 1) rest := by
  rw [pairFrom, if_neg h]

theorem pairFrom_of_loopEnd? {i : Instruction} {start stop : Nat} {rest : List Instruction}
    (h : i.op = .loopStart) (hs : loopEnd? (start + 1) 0 rest = some stop) (targets : Array Nat) :
    pairFrom targets start (i :: rest) =
      pairFrom ((targets.setIfInBounds start stop).setIfInBounds stop start) (start + 1) rest := by
  rw [pairFrom, if_pos h, hs]

end Brainfuck.JumpTable
