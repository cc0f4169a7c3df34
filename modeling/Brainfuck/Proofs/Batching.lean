import Brainfuck.Optimize
import Brainfuck.Proofs.Improvement
import Brainfuck.Proofs.Movement

/-!
# Batching runs of operators

A counted instruction does at once what its operator does over and over. There is one exception: a
counted move that leaves the tape fails as a whole, while single moves fail at the edge, having gone
there. Then the run is over, so that the pointers are all that comes out differently. Under a policy
that ignores moves off the tape the two differ for good, and batching is no improvement.

## Main definitions

* `Machine.SameButPointer`, `Halt.SameUpToPointer`: what comes out the same
* `Block.expand`: a block with its counted instructions written out

## Main results

* `Meaning.improvement_merge`: an instruction improves on two in a row that add up to it
* `Block.improvement_expand`: counted instructions improve a block
* `Block.parse?_expand`: the tree of a list with its counted instructions written out
-/

namespace Brainfuck

variable {w : Width} {rules : Rules}

/-! ## Machines that differ in the pointer -/

/-- Two machines are the same except for the pointers of their tapes. -/
structure Machine.SameButPointer (m m' : Machine w) : Prop where
  cells_eq : m'.tape.cells = m.tape.cells
  input_eq : m'.input = m.input
  output_eq : m'.output = m.output
  cancelled_eq : m'.cancelled = m.cancelled

theorem Machine.SameButPointer.refl (m : Machine w) : m.SameButPointer m :=
  ⟨rfl, rfl, rfl, rfl⟩

theorem Machine.SameButPointer.trans {m m' m'' : Machine w} (h : m.SameButPointer m')
    (h' : m'.SameButPointer m'') : m.SameButPointer m'' where
  cells_eq := h'.cells_eq.trans h.cells_eq
  input_eq := h'.input_eq.trans h.input_eq
  output_eq := h'.output_eq.trans h.output_eq
  cancelled_eq := h'.cancelled_eq.trans h.cancelled_eq

/-- Two evaluations are cut short in the same way, or both by a move that leaves the tape in the
same direction; then each reports its own pointer, and the machines may differ in it. -/
inductive Halt.SameUpToPointer : Halt × Machine w → Halt × Machine w → Prop
  | refl (s : Halt × Machine w) : SameUpToPointer s s
  | bounds {s s' : Halt × Machine w} (d : Direction)
      (hs : s.1 = .failed (.bounds ⟨s.2.tape.pointer, d⟩))
      (hs' : s'.1 = .failed (.bounds ⟨s'.2.tape.pointer, d⟩)) (same : s.2.SameButPointer s'.2) :
      SameUpToPointer s s'

theorem Halt.SameUpToPointer.trans {s t u : Halt × Machine w} (h : SameUpToPointer s t)
    (h' : SameUpToPointer t u) : SameUpToPointer s u := by
  cases h with
  | refl => exact h'
  | bounds d hs ht same =>
    cases h' with
    | refl => exact .bounds d hs ht same
    -- The error in the middle is one and the same, so that both go in one direction.
    | bounds d' ht' hu same' =>
      obtain rfl : d = d' := by
        rw [ht] at ht'
        injection ht' with he
        injection he with he
        injection he
      exact .bounds d hs hu (same.trans same')

/-! ## Two instructions that add up -/

namespace Meaning

variable {i i' j : Instruction}

theorem improvement_modify {f f' : Cell w → Cell w} (hi : i.Modifies rules.policy f)
    (hi' : i'.Modifies rules.policy f') (hj : j.Modifies rules.policy fun c => f' (f c)) :
    Improvement Halt.SameUpToPointer (Seq (One rules i) (One rules i')) (One (w := w) rules j) := by
  refine .of_one .refl (functional_one _ _) ?_
  intro m hs
  have hj' := hj m
  rw [← Tape.modify_modify] at hj'
  exact ⟨1 + 1, _, 1, _, .passed (.done hs (hi m)) (.done hs (hi' _)), .done hs hj',
    Nat.le_add_right 1 1, .passed _⟩

/-- A move that lands on the tape. -/
theorem One.of_land?_eq_some {d : Direction} {m : Machine w} {index : Nat} (hi : i.op = d.operator)
    (hs : rules.stops m = false)
    (h : rules.policy.land? m.tape.capacity m.tape.pointer (d.offset i.count) = some index) :
    One rules i m 1 (.passed { m with tape := m.tape.seek index }) := by
  obtain ⟨event, hm⟩ := Machine.move_of_land?_eq_some h
  rw [← Machine.exec_of_op_eq_operator hi] at hm
  exact .done hs hm

/-- A move that the policy does not let land. -/
theorem One.of_land?_eq_none {d : Direction} {m : Machine w} (hi : i.op = d.operator)
    (hs : rules.stops m = false)
    (h : rules.policy.land? m.tape.capacity m.tape.pointer (d.offset i.count) = none) :
    One rules i m 0 (.halted (.failed (.bounds ⟨m.tape.pointer, d⟩)) m) := by
  have hm := Machine.move_of_land?_eq_none h
  rw [← Machine.exec_of_op_eq_operator hi] at hm
  exact .failed hs hm

theorem improvement_move (hp : rules.policy ≠ .ignore) {d : Direction} (hi : i.op = d.operator)
    (hi' : i'.op = d.operator) (hj : j.op = d.operator) (hn : j.count = i.count + i'.count) :
    Improvement Halt.SameUpToPointer (Seq (One rules i) (One rules i')) (One (w := w) rules j) := by
  refine .of_one .refl (functional_one _ _) ?_
  intro m hs
  have hsum := BoundsPolicy.land?_bind hp m.tape.pointer_lt_capacity d i.count i'.count
  rw [← hn] at hsum
  cases hl : rules.policy.land? m.tape.capacity m.tape.pointer (d.offset i.count) with
  | none =>
    -- The first part of the move leaves the tape, and so does the whole.
    rw [hl, Option.bind_none] at hsum
    exact ⟨0, _, 0, _, .halted (.of_land?_eq_none hi hs hl), .of_land?_eq_none hj hs hsum.symm,
      Nat.le_refl 0, .halted (.refl _)⟩
  | some index =>
    rw [hl, Option.bind_some] at hsum
    have hfirst := One.of_land?_eq_some hi hs hl
    -- The second part starts where the first one landed.
    obtain ⟨m', hm'⟩ : ∃ m' : Machine w, m' = { m with tape := m.tape.seek index } := ⟨_, rfl⟩
    have hptr : m'.tape.pointer = index := by
      rw [hm']
      exact Tape.pointer_seek_of_lt (BoundsPolicy.lt_of_land? m.tape.pointer_lt_capacity hl)
    have hcap : m'.tape.capacity = m.tape.capacity := by rw [hm', Tape.capacity_seek]
    have hs' : rules.stops m' = false := by rw [hm']; exact hs
    rw [← hm'] at hfirst
    rw [← hptr, ← hcap] at hsum
    cases hl' : rules.policy.land? m'.tape.capacity m'.tape.pointer (d.offset i'.count) with
    | none =>
      -- Here the pointers differ: the parts fail at `index`, the whole where it started.
      rw [hl', hcap] at hsum
      refine ⟨1 + 0, _, 0, _, .passed hfirst (.of_land?_eq_none hi' hs' hl'),
        .of_land?_eq_none hj hs hsum.symm, Nat.zero_le _, .halted (.bounds d rfl rfl ?_)⟩
      rw [hm']
      exact ⟨rfl, rfl, rfl, rfl⟩
    | some index' =>
      rw [hl', hcap] at hsum
      have hsecond := One.of_land?_eq_some hi' hs' hl'
      refine ⟨1 + 1, _, 1, _, .passed hfirst hsecond, .of_land?_eq_some hj hs hsum.symm,
        Nat.le_add_right 1 1, ?_⟩
      rw [hm']
      exact .passed _

/-- **An instruction improves on two in a row that add up to it**, unless moves off the tape are
ignored. -/
theorem improvement_merge (hp : rules.policy ≠ .ignore) {op : Operator} (hb : op.IsBatchable)
    (hi : i.op = op) (hi' : i'.op = op) (hj : j.op = op) (hn : j.count = i.count + i'.count) :
    Improvement Halt.SameUpToPointer (Seq (One rules i) (One rules i')) (One (w := w) rules j) := by
  -- Arithmetic on a cell adds up at any count, and so do moves that land.
  rcases hb with rfl | rfl | rfl | rfl
  · refine improvement_modify (Instruction.modifies_of_inc _ hi)
      (Instruction.modifies_of_inc _ hi') ?_
    simp only [Cell.increase_increase, ← hn]
    exact Instruction.modifies_of_inc _ hj
  · refine improvement_modify (Instruction.modifies_of_dec _ hi)
      (Instruction.modifies_of_dec _ hi') ?_
    simp only [Cell.decrease_decrease, ← hn]
    exact Instruction.modifies_of_dec _ hj
  · exact improvement_move (d := .right) hp hi hi' hj hn
  · exact improvement_move (d := .left) hp hi hi' hj hn

end Meaning

/-! ## Writing counted instructions out -/

/-- One repetition less leaves an instruction that is counted once less. -/
theorem Instruction.exists_shorter {i : Instruction} {n : Nat} (h : i.count = n + 1 + 1) :
    i.op.IsBatchable ∧ ∃ i' : Instruction, i'.op = i.op ∧ i'.count = n + 1 := by
  rcases i.valid with hi | ⟨-, hle, hb⟩
  · omega
  · refine ⟨hb, ⟨i.op, n + 1, ?_⟩, rfl, rfl⟩
    rcases Nat.eq_zero_or_pos n with rfl | hn
    · exact Or.inl rfl
    · exact Or.inr ⟨by omega, by omega, hb⟩

namespace Block

/-- The operator `op` so many times, and then `rest`. -/
def repeated (op : Operator) (plain : ¬ op.IsBracket) (rest : Block) : Nat → Block
  | 0 => rest
  | n + 1 => step (.single op) plain (repeated op plain rest n)

/-- Write every counted instruction out. -/
def expand : Block → Block
  | nil => nil
  | step i plain rest => repeated i.op plain rest.expand i.count
  | loop body rest => loop body.expand rest.expand

/-- **A counted instruction improves on its operator written out.** -/
theorem improvement_repeated (hp : rules.policy ≠ .ignore) {op : Operator}
    (plain : ¬ op.IsBracket) (rest : Block) {i : Instruction} (hop : i.op = op) :
    Improvement Halt.SameUpToPointer ((repeated op plain rest i.count).Evaluates (w := w) rules)
      (Meaning.Seq (Meaning.One rules i) (rest.Evaluates rules)) := by
  obtain ⟨n, hn⟩ : ∃ n, i.count = n + 1 := Nat.exists_eq_add_one.mpr i.count_pos
  rw [hn]
  -- Induction on the count; the counted instruction changes with it.
  induction n generalizing i with
  | zero =>
    obtain rfl : Instruction.single op = i := by rw [Instruction.eq_single_of_count hn, hop]
    exact .refl .refl _
  | succ n ih =>
    -- One operator is written out, and what is left of the count is an instruction again.
    obtain ⟨hb, i', hop', hn'⟩ := Instruction.exists_shorter hn
    rw [hop] at hb hop'
    have hrest := Improvement.seq (.refl .refl (Meaning.One rules (.single op))) (ih hop' hn')
    have hadd : i.count = (Instruction.single op).count + i'.count := by
      rw [hn, hn', Nat.add_comm]
      rfl
    have hmerge := Improvement.seq (Meaning.improvement_merge hp hb rfl hop' hop hadd)
      (.refl .refl (rest.Evaluates (w := w) rules))
    rw [Meaning.seq_assoc] at hmerge
    exact hrest.trans Halt.SameUpToPointer.trans hmerge

/-- **Counted instructions improve a block**, unless moves off the tape are ignored. -/
theorem improvement_expand (hp : rules.policy ≠ .ignore) (b : Block) :
    Improvement Halt.SameUpToPointer (b.expand.Evaluates (w := w) rules) (b.Evaluates rules) := by
  induction b with
  | nil => exact .refl .refl _
  | step i plain rest ih =>
    have hrest := Improvement.seq (.refl .refl (Meaning.One rules i)) ih
    exact (improvement_repeated hp plain rest.expand rfl).trans Halt.SameUpToPointer.trans hrest
  | loop body rest ihb ihr =>
    exact .seq (.refl .refl _) (.seq (ihb.iterated .refl) ihr)

/-! ## The tree of a written out list -/

/-- What was read is written out. -/
def expandAll : Block × List Block → Block × List Block
  | (b, outer) => (b.expand, outer.map expand)

theorem parseFrom_replicate {op : Operator} (plain : ¬ op.IsBracket) {code : List Instruction}
    {b : Block} {outer : List Block} (h : parseFrom code = some (b, outer)) (n : Nat) :
    parseFrom (List.replicate n (.single op) ++ code) = some (repeated op plain b n, outer) := by
  induction n with
  | zero => exact h
  | succ n ih =>
    rw [List.replicate_succ, List.cons_append, parseFrom, ih]
    exact enter_of_not_isBracket (i := .single op) plain _ _

theorem parseFrom_append_of_none {code : List Instruction} (h : parseFrom code = none)
    (front : List Instruction) : parseFrom (front ++ code) = none := by
  -- Reading goes from the end, so that what comes in front changes nothing.
  induction front with
  | nil => exact h
  | cons i front ih => rw [List.cons_append, parseFrom, ih, Option.bind_none]

/-- A bracket is not counted, so that it is read as it is. -/
theorem enter_expandAll {i : Instruction} (hop : i.op.IsBracket) (x : Block × List Block) :
    enter i (expandAll x) = (enter i x).map expandAll := by
  obtain ⟨b, outer⟩ := x
  rcases hop with hop | hop
  · cases outer with
    | nil => simp [expandAll, enter, hop]
    | cons after outer =>
      show enter i (b.expand, after.expand :: outer.map expand) = _
      rw [enter_of_loopStart hop, enter_of_loopStart hop]
      rfl
  · show enter i (b.expand, outer.map expand) = _
    rw [enter_of_loopEnd hop, enter_of_loopEnd hop]
    rfl

/-- **Reading a list that is written out** is writing out what is read. -/
theorem parseFrom_expand (code : List Instruction) :
    parseFrom ((Instruction.expand code).map .single) = (parseFrom code).map expandAll := by
  induction code with
  | nil => rfl
  | cons i rest ih =>
    rw [Instruction.expand_cons, List.map_append, List.map_replicate, parseFrom]
    cases h : parseFrom rest with
    | none =>
      rw [h] at ih
      exact parseFrom_append_of_none ih _
    | some x =>
      obtain ⟨b, outer⟩ := x
      rw [h] at ih
      rw [Option.bind_some]
      -- A bracket is an instruction of its own; everything else is written out.
      by_cases hop : i.op.IsBracket
      · have hi := Instruction.eq_single_of_isBracket hop
        have hcount : i.count = 1 := by rw [hi, Instruction.single]
        rw [hcount, List.replicate_one, List.singleton_append, parseFrom, ih, ← hi]
        exact enter_expandAll hop (b, outer)
      · rw [enter_of_not_isBracket hop]
        exact parseFrom_replicate hop ih i.count

/-- **The tree of a list that is written out** is the tree of the list, written out. -/
theorem parse?_expand (code : List Instruction) :
    parse? ((Instruction.expand code).map .single) = (parse? code).map expand := by
  unfold parse?
  rw [parseFrom_expand]
  cases parseFrom code with
  | none => rfl
  | some x =>
    obtain ⟨b, outer⟩ := x
    cases outer <;> rfl

end Block

end Brainfuck
