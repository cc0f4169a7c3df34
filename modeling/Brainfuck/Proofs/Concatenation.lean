import Brainfuck.Proofs.Block

/-!
# Programs one after the other

A list that begins with the instructions of a program is resolved as the rest of it is, with all
indices moved behind the program. So the concatenation of two programs is a program: it looks up the
instructions and the jumps of the first where that has any, and those of the second behind them.

## Main definitions

* `LoopError.behind`, `JumpTable.append`: errors and jump tables behind so many instructions
* `Program.append`: two programs one after the other
* `Program.empty`, `Program.repeated`: none, and so many copies of one

## Main results

* `JumpTable.resolveFrom_behind`: resolving goes on behind other instructions as it does without
* `JumpTable.resolve_append`: the jump table of a list that begins with a program
* `Program.instructions_repeated`: the instructions of so many copies
-/

namespace Brainfuck

/-- The error of a list that comes behind `n` instructions. -/
def LoopError.behind (n : Nat) : LoopError → LoopError
  | unmatchedEnd index => unmatchedEnd (n + index)
  | unclosedStart count => unclosedStart count

namespace JumpTable

/-- The table of two lists one after the other: the entries of the second are moved behind the
first. -/
def append (table after : JumpTable) : JumpTable :=
  ⟨table.targets ++ after.targets.map (table.targets.size + ·)⟩

/-- **Resolving goes on behind other instructions** as it does without them, if none of their loops
is open. -/
theorem resolveFrom_behind (code : List Instruction) (before targets : Array Nat)
    (started : List Nat) :
    resolveFrom (before ++ targets.map (before.size + ·)) (started.map (before.size + ·)) code =
      match resolveFrom targets started code with
      | .ok targets => .ok (before ++ targets.map (before.size + ·))
      | .error e => .error (e.behind before.size) := by
  have hsize (targets : Array Nat) :
      (before ++ targets.map (before.size + ·)).size = before.size + targets.size := by
    simp
  have hpush (targets : Array Nat) (target : Nat) :
      (before ++ targets.map (before.size + ·)).push (before.size + target) =
        before ++ (targets.push target).map (before.size + ·) := by
    simp
  have hset (targets : Array Nat) (start stop : Nat) :
      (before ++ targets.map (before.size + ·)).setIfInBounds (before.size + start)
          (before.size + stop) =
        before ++ (targets.setIfInBounds start stop).map (before.size + ·) := by
    rw [Array.map_setIfInBounds, Array.setIfInBounds_append_right (Nat.le_add_right _ _),
      Nat.add_sub_cancel_left]
  -- Induction on the list, with the entries and the open loops that are already there.
  induction code generalizing targets started with
  | nil =>
    cases started with
    | nil => rfl
    | cons start outer => simp [resolveFrom, LoopError.behind]
  | cons i rest ih =>
    by_cases hop : i.op.IsBracket
    · rcases hop with hs | he
      · rw [resolveFrom_of_loopStart hs, resolveFrom_of_loopStart hs, hsize, hpush]
        exact ih (targets.push targets.size) (targets.size :: started)
      · cases started with
        | nil => simp [resolveFrom, he, LoopError.behind]
        | cons start outer =>
          rw [List.map_cons, resolveFrom_of_loopEnd he, resolveFrom_of_loopEnd he, hsize, hset,
            hpush]
          exact ih ((targets.setIfInBounds start targets.size).push start) outer
    · rw [resolveFrom_of_not_isBracket hop, resolveFrom_of_not_isBracket hop, hsize, hpush]
      exact ih (targets.push targets.size) started

/-- **A list that begins with a program** has a table exactly if the rest has one, and its error
otherwise. -/
theorem resolve_append {front : List Instruction} {table : JumpTable}
    (h : resolve front = .ok table) (code : List Instruction) :
    resolve (front ++ code) =
      match resolve code with
      | .ok after => .ok (table.append after)
      | .error e => .error (e.behind front.length) := by
  have hsize := size_of_resolve h
  obtain ⟨b, hb⟩ := Block.exists_parse?_of_resolve h
  obtain rfl := Block.parse?_eq_some_iff.mp hb
  rw [Block.resolve_code] at h
  obtain rfl := Except.ok.inj h
  have hbehind := resolveFrom_behind code (b.targets 0).toArray #[] []
  rw [Array.map_empty, Array.append_empty, List.map_nil, hsize] at hbehind
  rw [resolve, resolve, Block.resolveFrom_code_append, Array.empty_append, Array.size_empty,
    hbehind]
  cases resolveFrom #[] [] code with
  | ok targets =>
    rw [← hsize]
    rfl
  | error e => rfl

end JumpTable

namespace Program

/-- Two programs one after the other. -/
def append (p q : Program) : Program where
  instructions := p.instructions ++ q.instructions
  jumps := p.jumps.append q.jumps
  resolved := by rw [Array.toList_append, JumpTable.resolve_append p.resolved, q.resolved]

/-- The program without instructions. -/
def empty : Program :=
  ⟨#[], ⟨#[]⟩, rfl⟩

/-- So many copies of a program one after the other. -/
def repeated (p : Program) : Nat → Program
  | 0 => empty
  | k + 1 => p.append (p.repeated k)

theorem instructions_repeated (p : Program) (k : Nat) :
    (p.repeated k).instructions.toList = (List.replicate k p.instructions.toList).flatten := by
  induction k with
  | zero => rfl
  | succ k ih =>
    rw [repeated, append, Array.toList_append, ih, List.replicate_succ, List.flatten_cons]

variable {p q : Program} {pc : Nat}

/-! ## Looking up -/

theorem getElem?_append_of_lt (h : pc < p.size) :
    (p.append q).instructions[pc]? = p.instructions[pc]? :=
  Array.getElem?_append_left h

theorem getElem?_append_add :
    (p.append q).instructions[p.size + pc]? = q.instructions[pc]? := by
  show (p.instructions ++ q.instructions)[p.instructions.size + pc]? = _
  rw [Array.getElem?_append_right (Nat.le_add_right _ _), Nat.add_sub_cancel_left]

theorem target?_append_of_lt (h : pc < p.size) :
    (p.append q).jumps.target? pc = p.jumps.target? pc := by
  rw [← p.size_targets] at h
  exact Array.getElem?_append_left h

theorem target?_append_add :
    (p.append q).jumps.target? (p.size + pc) = (q.jumps.target? pc).map (p.size + ·) := by
  rw [← p.size_targets]
  show (p.jumps.targets ++ q.jumps.targets.map _)[p.jumps.targets.size + pc]? = _
  rw [Array.getElem?_append_right (Nat.le_add_right _ _), Nat.add_sub_cancel_left,
    Array.getElem?_map]
  rfl

end Program

end Brainfuck
