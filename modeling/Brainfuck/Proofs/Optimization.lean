import Brainfuck.Proofs.Batching
import Brainfuck.Proofs.ClearLoops

/-!
# Optimizing keeps what a program does

Optimizing fuses clear loops and then batches what is left. The first is exact, and the second is
exact up to the pointer of a run that ends because it left the tape, so that an optimized program
does what the operators do. Under the policies that place the pointer no run ends in this way. Under
the fatal policy the error of the optimized run reports the cell from which its counted move
started, and that of the other run the edge of the tape.

## Main definitions

* `Run.SameFatalEnd`: how the ends of a run and of an optimized run compare under the fatal policy

## Main results

* `optimize_preserves_of_wrap_or_clamp`: optimizing is exact if the policy places the pointer
* `optimize_preserves_of_fatal`: optimizing is exact under the fatal policy, up to the pointer of a
  bounds error
-/

namespace Brainfuck

variable {w : Width}

/-- A balanced list makes a program in which every operator is an instruction of its own, and
another that is optimized and improves on the first, unless moves off the tape are ignored. -/
theorem exists_optimized_of_balanced {ops : List Operator} (h : Balanced ops) :
    ∃ plain optimized : Program,
      Program.ofInstructions (ops.map .single) = .ok plain ∧
      Program.ofInstructions (optimize ops) = .ok optimized ∧
      ∀ {w : Width} {rules : Rules}, rules.policy ≠ .ignore → ∀ m : Machine w,
        plain.ImprovedBy (Run.ImprovedEnd Halt.SameUpToPointer) optimized rules m := by
  obtain ⟨b, plain, hb, hplain, hcode⟩ := exists_program_of_balanced h
  -- The optimized list is that of a block which is the fused block if it is written out.
  obtain ⟨c, hc, hexpand⟩ : ∃ c, Block.parse? (optimize ops) = some c ∧ c.expand = b.fuse := by
    have hparse := Block.parse?_expand (optimize ops)
    rw [expand_optimize, ← Block.code_fuse hb, Block.parse?_code] at hparse
    exact Option.map_eq_some_iff.mp hparse.symm
  have hccode := Block.parse?_eq_some_iff.mp hc
  obtain ⟨optimized, hoptimized, hcode'⟩ := c.exists_ofInstructions
  rw [hccode] at hoptimized
  refine ⟨plain, optimized, hplain, hoptimized, ?_⟩
  intro w rules hp m
  -- Fusing is exact, so that the looser relation is that of batching.
  have hfuse : Improvement Halt.SameUpToPointer (b.Evaluates (w := w) rules)
      (b.fuse.Evaluates rules) := by
    refine b.improvement_fuse.mono ?_
    rintro s _ rfl
    exact .refl s
  have hbatch := c.improvement_expand (w := w) hp
  rw [hexpand] at hbatch
  have himproved : Improvement Halt.SameUpToPointer (b.Evaluates rules) (c.Evaluates rules) :=
    hfuse.trans Halt.SameUpToPointer.trans hbatch
  exact himproved.improvedBy hcode hcode'

/-! ## How runs end -/

namespace Run

variable {p : Program} {rules : Rules} {r : Run w} {x y : Ending × Run w}

/-- A run that fails stands at the instruction that fails. -/
theorem exec_of_toEnd_failed {e : RunError} (h : ∃ rounds, r.toEnd p rules rounds = some x)
    (he : x.1 = .failed e) : ∃ i, ∃ m : Machine w, p.instructions[x.2.pc]? = some i ∧
      x.2.machine = m.failedBy e ∧ m.exec rules.policy i = .failed x.2.machine e := by
  obtain ⟨ending, last⟩ := x
  subst he
  obtain ⟨rounds, h⟩ := h
  obtain ⟨k, -, hends⟩ := toEnd_eq_some_iff.mp h
  exact hends.exec_of_failed

/-- The ends of a run and of an improved one agree, or both left the tape in one direction. -/
theorem ImprovedEnd.cases (h : ImprovedEnd Halt.SameUpToPointer x y) :
    x.1.result x.2.machine = y.1.result y.2.machine ∨
      x.2.machine.SameButPointer y.2.machine ∧ ∃ d q q',
        x.1 = .failed (.bounds ⟨q, d⟩) ∧ y.1 = .failed (.bounds ⟨q', d⟩) := by
  obtain ⟨hrel, -⟩ := h
  generalize hx : x.1.result x.2.machine = x' at hrel
  generalize hy : y.1.result y.2.machine = y' at hrel
  cases hrel with
  | passed m => exact Or.inl rfl
  | @halted why why' m m' hs =>
    cases hs with
    | refl => exact Or.inl rfl
    | bounds d hwhy hwhy' same =>
      obtain rfl : why = .failed (.bounds ⟨m.tape.pointer, d⟩) := hwhy
      obtain rfl : why' = .failed (.bounds ⟨m'.tape.pointer, d⟩) := hwhy'
      obtain ⟨hm, _, hxe⟩ := Ending.result_eq_iff.mp hx
      obtain ⟨hm', _, hye⟩ := Ending.result_eq_iff.mp hy
      refine Or.inr ⟨?_, d, _, _, hxe, hye⟩
      rw [hm, hm']
      exact same

end Run

/-! ## Optimizing under policies that place the pointer -/

/-- **Optimizing keeps what a program does** if moves off the tape wrap around or stop at the edge:
from every machine the program of a balanced list and the optimized one come to the same end or to
none, and no run fails but for its output. -/
theorem optimize_preserves_of_wrap_or_clamp {ops : List Operator} (h : Balanced ops)
    {policy : BoundsPolicy} (hp : policy = .wrap ∨ policy = .clamp) :
    ∃ plain optimized : Program,
      Program.ofInstructions (ops.map .single) = .ok plain ∧
      Program.ofInstructions (optimize ops) = .ok optimized ∧
      ∀ {w : Width} (heedsCancel : Bool) (m : Machine w),
        plain.ImprovedBy
          (fun x y => Run.SameEnd x y ∧ ∀ e, x.1 = .failed e → ∃ cause, e = .output cause)
          optimized ⟨policy, heedsCancel⟩ m := by
  obtain ⟨plain, optimized, hplain, hoptimized, himproved⟩ := exists_optimized_of_balanced h
  refine ⟨plain, optimized, hplain, hoptimized, ?_⟩
  intro w heedsCancel m
  have hfatal : policy ≠ .fatal := by rcases hp with rfl | rfl <;> decide
  have hignore : policy ≠ .ignore := by rcases hp with rfl | rfl <;> decide
  refine (himproved hignore m).mono ?_
  intro x y hx _ hxy
  -- No move fails under these policies, so that a failure is one of the output.
  have houtput : ∀ e, x.1 = .failed e → ∃ cause, e = .output cause := by
    intro e he
    obtain ⟨i, m, -, -, hi⟩ := Run.exec_of_toEnd_failed hx he
    rcases Machine.cases_of_exec_failed hi with houtput | ⟨hpolicy, -⟩
    · exact houtput
    · exact absurd hpolicy hfatal
  refine ⟨?_, houtput⟩
  rcases hxy.cases with heq | ⟨-, d, q, q', hxe, -⟩
  · exact Run.sameEnd_of_result_eq heq hxy.2
  · obtain ⟨cause, hcause⟩ := houtput _ hxe
    cases hcause

/-- A loop that adds a cell to the one two to its right, there and back in one move each. -/
theorem optimize_preserves_transfer :
    Balanced [.loopStart, .dec, .right, .right, .inc, .left, .left, .loopEnd] ∧
    (BoundsPolicy.wrap = .wrap ∨ BoundsPolicy.wrap = .clamp) ∧
    ∃ plain optimized : Program,
      Program.ofInstructions ([.loopStart, .dec, .right, .right, .inc, .left, .left,
        .loopEnd].map .single) = .ok plain ∧
      Program.ofInstructions (optimize [.loopStart, .dec, .right, .right, .inc, .left, .left,
        .loopEnd]) = .ok optimized ∧
      ∀ {w : Width} (heedsCancel : Bool) (m : Machine w),
        plain.ImprovedBy
          (fun x y => Run.SameEnd x y ∧ ∀ e, x.1 = .failed e → ∃ cause, e = .output cause)
          optimized ⟨.wrap, heedsCancel⟩ m :=
  ⟨by decide, Or.inl rfl, optimize_preserves_of_wrap_or_clamp (by decide) (Or.inl rfl)⟩

/-! ## Optimizing under the fatal policy -/

/-- A single step off the tape starts at the edge. -/
theorem eq_edge_of_not_onTape {capacity pointer : Nat} (h : pointer < capacity) {d : Direction}
    (ht : ¬ OnTape capacity (pointer + d.offset 1)) : pointer = d.edge capacity := by
  cases d with
  | right =>
    rw [onTape_right] at ht
    rw [Direction.edge]
    omega
  | left =>
    rw [onTape_left h] at ht
    rw [Direction.edge]
    omega

/-- **How the ends of a run and of an optimized run compare under the fatal policy.** -/
structure Run.SameFatalEnd (optimized : Program) (x y : Ending × Run w) : Prop where
  /-- Both leave the tape in the same direction, or neither leaves it. -/
  bounds_iff : ∀ d, (∃ q, x.1 = .failed (.bounds ⟨q, d⟩)) ↔ ∃ q, y.1 = .failed (.bounds ⟨q, d⟩)
  /-- In any case the machines differ at most in the pointer. -/
  sameButPointer : x.2.machine.SameButPointer y.2.machine
  /-- The run that is not optimized reports the edge. -/
  edge : ∀ q d, x.1 = .failed (.bounds ⟨q, d⟩) → q = d.edge x.2.machine.tape.capacity
  /-- The optimized run reports where its pointer is, and where the move started that failed. -/
  started : ∀ q d, y.1 = .failed (.bounds ⟨q, d⟩) → q = y.2.machine.tape.pointer ∧
    ∃ i, optimized.instructions[y.2.pc]? = some i ∧ i.op = d.operator ∧
      y.2.machine.tape.move d i.count = .error ⟨q, d⟩
  /-- If they do not leave it, then they come to the same end. -/
  sameEnd : (∀ e, x.1 ≠ .failed (.bounds e)) → Run.SameEnd x y
  /-- Nothing else fails but the output. -/
  failed : ∀ e, x.1 = .failed e → (∃ cause, e = .output cause) ∨ ∃ b, e = .bounds b
  executed_le : y.2.executed ≤ x.2.executed

namespace Run

variable {p : Program} {rules : Rules} {r : Run w} {x y : Ending × Run w}

/-- A run that leaves the tape reports its pointer, and stands at the move. -/
theorem move_of_toEnd_bounds {q : Nat} {d : Direction}
    (h : ∃ rounds, r.toEnd p rules rounds = some x) (hx : x.1 = .failed (.bounds ⟨q, d⟩)) :
    q = x.2.machine.tape.pointer ∧ ∃ i, p.instructions[x.2.pc]? = some i ∧ i.op = d.operator ∧
      ¬ OnTape x.2.machine.tape.capacity (x.2.machine.tape.pointer + d.offset i.count) := by
  -- A move that fails leaves the machine as it is.
  obtain ⟨i, m, hi, hm, he⟩ := exec_of_toEnd_failed h hx
  obtain rfl : m = x.2.machine := hm.symm
  rcases Machine.cases_of_exec_failed he with ⟨cause, hcause⟩ | ⟨-, d', hop, hb, ht⟩
  · cases hcause
  · obtain ⟨hq, rfl⟩ := BoundsError.mk.inj (RunError.bounds.inj hb)
    exact ⟨hq, i, hi, hop, ht⟩

theorem edge_of_toEnd_bounds {ops : List Operator} {q : Nat} {d : Direction}
    (hp : p.instructions.toList = ops.map .single) (h : ∃ rounds, r.toEnd p rules rounds = some x)
    (hx : x.1 = .failed (.bounds ⟨q, d⟩)) : q = d.edge x.2.machine.tape.capacity := by
  obtain ⟨rfl, i, hi, -, ht⟩ := move_of_toEnd_bounds h hx
  -- The instruction is one of those that stand for a single operator.
  have hmem : i ∈ ops.map Instruction.single := by
    rw [← hp]
    exact Array.mem_toList_iff.mpr (Array.mem_of_getElem? hi)
  obtain ⟨op, -, rfl⟩ := List.mem_map.mp hmem
  exact eq_edge_of_not_onTape x.2.machine.tape.pointer_lt_capacity ht

theorem ImprovedEnd.bounds_iff (h : ImprovedEnd Halt.SameUpToPointer x y) (d : Direction) :
    (∃ q, x.1 = .failed (.bounds ⟨q, d⟩)) ↔ ∃ q, y.1 = .failed (.bounds ⟨q, d⟩) := by
  rcases h.cases with heq | ⟨-, d', q, q', hx, hy⟩
  · exact exists_congr fun q => Ending.eq_failed_iff_of_result_eq heq _
  · simp [hx, hy]

theorem ImprovedEnd.sameButPointer (h : ImprovedEnd Halt.SameUpToPointer x y) :
    x.2.machine.SameButPointer y.2.machine := by
  rcases h.cases with heq | ⟨hsame, -⟩
  · have hm := congrArg Result.machine heq
    rw [Ending.machine_result, Ending.machine_result] at hm
    rw [hm]
    exact .refl _
  · exact hsame

end Run

/-- **Optimizing keeps what a program does under the fatal policy**, up to the pointer of a bounds
error: from every machine the program of a balanced list and the optimized one both end or both do
not, and their ends compare as said above. -/
theorem optimize_preserves_of_fatal {ops : List Operator} (h : Balanced ops) :
    ∃ plain optimized : Program,
      Program.ofInstructions (ops.map .single) = .ok plain ∧
      Program.ofInstructions (optimize ops) = .ok optimized ∧
      ∀ {w : Width} (heedsCancel : Bool) (m : Machine w),
        plain.ImprovedBy (Run.SameFatalEnd optimized) optimized ⟨.fatal, heedsCancel⟩ m := by
  obtain ⟨plain, optimized, hplain, hoptimized, himproved⟩ := exists_optimized_of_balanced h
  refine ⟨plain, optimized, hplain, hoptimized, ?_⟩
  intro w heedsCancel m
  have hignore : BoundsPolicy.fatal ≠ .ignore := by decide
  refine (himproved hignore m).mono ?_
  intro x y hx hy hxy
  have hcode := Program.toList_of_ofInstructions hplain
  constructor
  case bounds_iff => exact hxy.bounds_iff
  case sameButPointer => exact hxy.sameButPointer
  case edge =>
    intro q d hxe
    exact Run.edge_of_toEnd_bounds hcode hx hxe
  case started =>
    -- The optimized run still stands at the move that failed.
    intro q d hye
    obtain ⟨rfl, i, hi, hop, ht⟩ := Run.move_of_toEnd_bounds hy hye
    refine ⟨rfl, i, hi, hop, ?_⟩
    rw [Tape.move_eq, if_neg ht]
  case sameEnd =>
    intro hne
    rcases hxy.cases with heq | ⟨-, d, q, q', hxe, -⟩
    · exact Run.sameEnd_of_result_eq heq hxy.2
    · exact absurd hxe (hne _)
  case failed =>
    intro e he
    obtain ⟨i, m, -, -, hi⟩ := Run.exec_of_toEnd_failed hx he
    rcases Machine.cases_of_exec_failed hi with houtput | ⟨-, d, -, hb, -⟩
    · exact Or.inl houtput
    · exact Or.inr ⟨_, hb⟩
  case executed_le => exact hxy.2

/-- A loop that clears every second cell up to the first zero, and may leave the tape. -/
theorem optimize_preserves_clearing_scan :
    Balanced [.loopStart, .loopStart, .dec, .loopEnd, .right, .right, .loopEnd] ∧
    ∃ plain optimized : Program,
      Program.ofInstructions ([.loopStart, .loopStart, .dec, .loopEnd, .right, .right,
        .loopEnd].map .single) = .ok plain ∧
      Program.ofInstructions (optimize [.loopStart, .loopStart, .dec, .loopEnd, .right, .right,
        .loopEnd]) = .ok optimized ∧
      ∀ {w : Width} (heedsCancel : Bool) (m : Machine w),
        plain.ImprovedBy (Run.SameFatalEnd optimized) optimized ⟨.fatal, heedsCancel⟩ m :=
  ⟨by decide, optimize_preserves_of_fatal (by decide)⟩

/-- The error of a program that leaves a fresh tape of two cells. -/
example : ([[.right, .right, .right].map .single, optimize [.right, .right, .right]].map fun code =>
      (Program.ofInstructions code).toOption.bind fun p =>
        (p.execute ⟨.fatal, true⟩ 4 (w := .byte)
          ⟨.blank .byte 2 (by decide) (by decide), [], .ofDevice .unlimited, false⟩).map (·.result)) =
    [some (.error (.bounds ⟨1, .right⟩)), some (.error (.bounds ⟨0, .right⟩))] := by
  rfl

end Brainfuck
