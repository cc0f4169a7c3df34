import Brainfuck.Proofs.LoopErrors
import Brainfuck.Proofs.Matching
import Brainfuck.Proofs.Stages

/-!
# Counting operators

The stages of a run log how many operators, fused loops, instructions and loops they have found.
Every operator of a text is counted in one of the instructions that it is optimized to, but for the
two that a fused loop takes away, and every loop has one entry of the jump table that points
forward.

## Main definitions

* `Instruction.sumCounts`: the sum of the counts of an instruction list
* `Source.Counts`: the counts of a text

## Main results

* `length_fuseClearLoops`: a fused loop takes two operators away
* `JumpTable.loops_of_resolve`: the loops of a table are the loop starts of its list
* `Source.counts`: what is logged of a text are its counts
-/

namespace Brainfuck

/-! ## Counting operators -/

theorem Operator.ofChar?_ne_clear (c : Char) : ofChar? c ≠ some clear := by
  intro h
  cases toChar?_eq_some_iff.mpr h

theorem Source.count_clear_operators (source : String) :
    (operators source).count .clear = 0 := by
  rw [List.count_eq_zero, operators, List.mem_filterMap]
  rintro ⟨c, -, hc⟩
  exact Operator.ofChar?_ne_clear c hc

/-- **A fused loop takes two operators away.** -/
theorem length_fuseClearLoops (ops : List Operator) :
    (fuseClearLoops ops).length + 2 * (fuseClearLoops ops).count .clear =
      ops.length + 2 * ops.count .clear := by
  fun_induction fuseClearLoops ops with
  | case1 rest ih | case2 rest ih =>
    -- Three operators became one, which is counted twice more.
    simp only [List.length_cons, List.count_cons]
    simp
    omega
  | case3 op rest _ _ ih =>
    simp only [List.length_cons, List.count_cons]
    omega
  | case4 => rfl

namespace Instruction

/-- The sum of the counts of an instruction list. -/
def sumCounts (code : List Instruction) : Nat :=
  code.foldr (fun i sum => i.count + sum) 0

theorem length_expand (code : List Instruction) : (expand code).length = sumCounts code := by
  induction code with
  | nil => rfl
  | cons i code ih =>
    rw [expand_cons, List.length_append, List.length_replicate, ih]
    rfl

/-- An operator that is not batched is as frequent as its instructions. -/
theorem count_expand {op : Operator} (h : ¬ op.IsBatchable) (code : List Instruction) :
    (expand code).count op = (code.map Instruction.op).count op := by
  induction code with
  | nil => rfl
  | cons i code ih =>
    rw [expand_cons, List.count_append, ih, List.map_cons, List.count_cons]
    by_cases hi : i.op = op
    · have hcount : i.count = 1 := congrArg Instruction.count (eq_single (hi ▸ h))
      simp [hi, hcount, Nat.add_comm]
    · simp [List.count_replicate, hi]

end Instruction

/-! ## Counting loops -/

namespace JumpTable

variable {code : List Instruction} {table : JumpTable}

/-- The entries that point forward are those of the loop starts. -/
theorem lt_target?_iff (h : resolve code = .ok table) {i j : Nat} {op : Operator}
    (hop : (code.map Instruction.op)[i]? = some op) (ht : table.target? i = some j) :
    i < j ↔ op = .loopStart := by
  cases (target?_eq_some_iff h).mp ht with
  | plain hi hplain =>
    obtain rfl := Option.some.inj (hop.symm.trans hi)
    exact ⟨fun hlt => absurd hlt (Nat.lt_irrefl i), fun hs => absurd (.inl hs) hplain⟩
  | stop he =>
    obtain rfl := Option.some.inj (hop.symm.trans he.start)
    exact ⟨fun _ => rfl, fun _ => he.lt⟩
  | start he =>
    obtain rfl := Option.some.inj (hop.symm.trans he.stop)
    exact ⟨fun hlt => absurd he.lt (Nat.lt_asymm hlt), fun hs => by cases hs⟩

/-- **The loops of a table** are the loop starts of its list. -/
theorem loops_of_resolve (h : resolve code = .ok table) :
    table.loops = (code.map Instruction.op).count .loopStart := by
  -- Place by place, an entry points forward exactly if the operator is a loop start.
  have hforward : (table.targets.toList.zipIdx.map fun entry => decide (entry.2 < entry.1)) =
      (code.map Instruction.op).map (· == .loopStart) := by
    refine List.ext_getElem ?_ fun i hi hi' => ?_
    · rw [List.length_map, List.length_zipIdx, Array.length_toList, size_of_resolve h,
        List.length_map, List.length_map]
    · rw [List.length_map] at hi hi'
      rw [List.getElem_map, List.getElem_map, List.getElem_zipIdx, Nat.zero_add]
      rw [List.length_zipIdx, Array.length_toList] at hi
      have ht : table.target? i = some table.targets[i] := Array.getElem?_eq_getElem hi
      rw [Bool.eq_iff_iff, beq_iff_eq]
      exact decide_eq_true_iff.trans (lt_target?_iff h (List.getElem?_eq_getElem hi') ht)
  have hcount := congrArg (List.countP id) hforward
  rw [List.countP_map, List.countP_map] at hcount
  exact hcount

theorem exists_resolve_optimize_iff {ops : List Operator} :
    (∃ table, resolve (optimize ops) = .ok table) ↔ Balanced ops := by
  -- Optimizing keeps the number of open loops, and that number tells whether a list is balanced.
  rw [exists_resolve_iff, ← openLoops?_zero_eq_zero_iff, openLoops?_optimize,
    openLoops?_zero_eq_zero_iff]

end JumpTable

/-! ## The counts of a text -/

namespace Source

/-- **The counts of a text**, as they are logged: its operators and its other characters, and the
fused loops, the instructions and the loops of what it is optimized to. -/
structure Counts (source : String) (operators skipped cleared total loops : Nat) : Prop where
  /-- Every character is counted. -/
  characters : operators + skipped = source.toList.length
  /-- Every operator is counted in an instruction, but for two in each fused loop. -/
  operators : operators = Instruction.sumCounts (instructions source) + 2 * cleared
  cleared : cleared = ((instructions source).map Instruction.op).count .clear
  total : total = (instructions source).length
  loops : loops = ((instructions source).map Instruction.op).count .loopStart

theorem expand_instructions (source : String) :
    Instruction.expand (instructions source) = fuseClearLoops (operators source) :=
  expand_optimize _

theorem length_fuseClearLoops_operators (source : String) :
    (fuseClearLoops (operators source)).length =
      Instruction.sumCounts (instructions source) := by
  rw [← expand_instructions, Instruction.length_expand]

/-- The operators of a text are those of its instructions, and two more for every fused loop. -/
theorem length_operators (source : String) :
    (operators source).length = Instruction.sumCounts (instructions source) +
      2 * ((instructions source).map Instruction.op).count .clear := by
  have hfused := length_fuseClearLoops (operators source)
  rw [count_clear_operators, length_fuseClearLoops_operators, ← expand_instructions,
    Instruction.count_expand (by decide)] at hfused
  exact hfused.symm

/-- **What is logged of a text are its counts.** -/
theorem counts (source : String) :
    Counts source (operators source).length (comments source)
      (((operators source).length - (fuseClearLoops (operators source)).length) / 2)
      (optimize (operators source)).length
      (((instructions source).map Instruction.op).count .loopStart) := by
  -- Halving what the fused loops took away is exact.
  have hcleared : ((operators source).length - (fuseClearLoops (operators source)).length) / 2 =
      ((instructions source).map Instruction.op).count .clear := by
    rw [length_fuseClearLoops_operators, length_operators]
    omega
  rw [hcleared]
  exact ⟨length_operators_add_comments source, length_operators source, rfl, rfl, rfl⟩

end Source

theorem Event.ofProgram_eq {source : String} {p : Program}
    (hp : p.instructions.toList = Source.instructions source) :
    Event.ofProgram p = .resolved (optimize (Source.operators source)).length
      (((Source.instructions source).map Instruction.op).count .loopStart) := by
  rw [ofProgram, JumpTable.loops_of_resolve p.resolved, hp, Program.size, ← Array.length_toList, hp]
  rfl

end Brainfuck
