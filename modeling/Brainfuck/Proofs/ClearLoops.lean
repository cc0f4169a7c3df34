import Brainfuck.Optimize
import Brainfuck.Proofs.Improvement

/-!
# Fusing clear loops

A loop that only steps its own cell by one ends with that cell at zero, from any cell and at any
width: counting down it comes to zero, and counting up it wraps to zero. The operator `clear` does
the same at once, so that a block with its clear loops fused improves on the block. Fusing works on
operator lists, where a clear loop is a window of three operators; in the tree it is a loop with one
operator for its body, and the two ways of fusing agree.

## Main definitions

* `Block.IsClearLoop`: the body of a loop only steps the cell
* `Block.fuse`: a block with its clear loops fused

## Main results

* `Meaning.While.exists_countdown`: a loop that brings its cell closer to zero comes to an end
* `Block.improvement_fuse`: fusing improves a block
* `Block.code_fuse`: fusing an operator list fuses its tree
* `fuseClearLoops_preserves`: fusing keeps what a program does, under every policy
-/

namespace Brainfuck

variable {w : Width} {rules : Rules}

/-! ## Loops that step their cell -/

namespace Meaning

variable {i : Instruction} {f : Cell w → Cell w} {m : Machine w}

/-- One round of a loop that steps its cell. -/
theorem round_of_modifies (hf : i.Modifies rules.policy f) (hs : rules.stops m = false) :
    Seq (One rules i) (One rules (.single .loopEnd)) m (1 + 1)
      (.passed { m with tape := m.tape.modify f }) :=
  .passed (.done hs (hf m)) (.of_isBracket (Or.inr rfl) hs)

/-- **A loop that brings its cell closer to zero** comes to an end, with the cell at zero. -/
theorem While.exists_countdown (hf : i.Modifies rules.policy f) (μ : Cell w → Nat)
    (hμ : ∀ c, c ≠ 0 → μ (f c) < μ c) (hs : rules.stops m = false) :
    ∃ k, While rules (One rules i) m k (.passed { m with tape := m.tape.write 0 }) := by
  -- The measure of the current cell decreases with every round; the rest of the machine stays.
  generalize hn : μ m.tape.current = n
  induction n using Nat.strongRecOn generalizing m with
  | ind n ih =>
    cases hz : m.tape.isZero with
    | true =>
      -- Writing zero to a cell that holds zero changes nothing.
      have hw := Tape.write_current m.tape
      rw [Tape.isZero_iff.mp hz] at hw
      rw [hw]
      exact ⟨0, .exit hz⟩
    | false =>
      have hc : m.tape.current ≠ 0 := fun hc => by simp [Tape.isZero_iff.mpr hc] at hz
      have hlt := hμ _ hc
      rw [hn] at hlt
      obtain ⟨k, rest⟩ := @ih _ hlt { m with tape := m.tape.modify f } hs
        (by rw [Tape.current_modify])
      rw [Tape.write_modify] at rest
      exact ⟨1 + 1 + k, .again hz (round_of_modifies hf hs) rest⟩

/-- **`clear` improves on a loop that steps its cell to zero.** -/
theorem improvement_clear (hf : i.Modifies rules.policy f) (μ : Cell w → Nat)
    (hμ : ∀ c, c ≠ 0 → μ (f c) < μ c) :
    Improvement Eq
      (Seq (One rules (.single .loopStart)) (While rules (One rules i)))
      (One (w := w) rules (.single .clear)) := by
  refine .of_one (fun _ => rfl) (functional_one _ _).iterated ?_
  intro m hs
  obtain ⟨k, hk⟩ := While.exists_countdown hf μ hμ hs
  exact ⟨1 + k, _, 1, _, .passed (.of_isBracket (Or.inl rfl) hs) hk,
    .done hs (Instruction.modifies_of_clear _ rfl m), Nat.le_add_right 1 k, .passed _⟩

end Meaning

/-! ## Fusing a tree -/

namespace Block

/-- The body of a loop is one single `inc` or `dec`. -/
def IsClearLoop (body : Block) : Prop :=
  body.code = [.single .inc] ∨ body.code = [.single .dec]

instance (body : Block) : Decidable body.IsClearLoop :=
  inferInstanceAs (Decidable (_ ∨ _))

/-- Replace every clear loop of a block by `clear`. -/
def fuse : Block → Block
  | nil => nil
  | step i plain rest => step i plain rest.fuse
  | loop body rest =>
    if body.IsClearLoop then step (.single .clear) (by decide) rest.fuse
    else loop body.fuse rest.fuse

theorem evaluates_of_code_eq_singleton {b : Block} {i : Instruction} (plain : ¬ i.op.IsBracket)
    (h : b.code = [i]) : b.Evaluates (w := w) rules = Meaning.One rules i := by
  obtain rfl : b = step i plain nil := code_injective h
  exact Meaning.seq_skip _

/-- The loop start and the iteration of a clear loop are improved by `clear`. -/
theorem IsClearLoop.improvement (rules : Rules) {body : Block} (h : body.IsClearLoop) :
    Improvement Eq
      (Meaning.Seq (Meaning.One rules (.single .loopStart))
        (Meaning.While rules (body.Evaluates rules)))
      (Meaning.One (w := w) rules (.single .clear)) := by
  rcases h with h | h
  -- Counting up, the cell comes closer to the value at which it wraps.
  · rw [evaluates_of_code_eq_singleton (by decide) h]
    exact Meaning.improvement_clear (Instruction.modifies_of_inc _ rfl)
      (fun c => (w.modulus - c.toNat) % w.modulus) fun _ => Cell.modulus_sub_toNat_increase_one_lt
  -- Counting down, it comes closer to zero.
  · rw [evaluates_of_code_eq_singleton (by decide) h]
    exact Meaning.improvement_clear (Instruction.modifies_of_dec _ rfl)
      (fun c => c.toNat) fun _ => Cell.toNat_decrease_one_lt

/-- **Fusing improves a block.** -/
theorem improvement_fuse (b : Block) :
    Improvement Eq (b.Evaluates (w := w) rules) (b.fuse.Evaluates rules) := by
  have hrefl : ∀ s : Halt × Machine w, s = s := fun _ => rfl
  induction b with
  | nil => exact .refl hrefl _
  | step i plain rest ih => exact .seq (.refl hrefl _) ih
  | loop body rest ihb ihr =>
    unfold fuse
    split
    next h =>
      -- The loop start and the iteration are replaced together.
      have hfused := (h.improvement rules).seq ihr
      rw [Meaning.seq_assoc] at hfused
      exact hfused
    next h => exact .seq (.refl hrefl _) (.seq (ihb.iterated hrefl) ihr)

/-! ## Fusing a list -/

/-- Only a loop whose body is one operator can begin with that operator and a loop end. -/
theorem operators_eq_singleton {body : Block} {op : Operator} {after rest : List Operator}
    (hop : ¬ op.IsBracket) (h : body.operators ++ .loopEnd :: after = op :: .loopEnd :: rest) :
    body.operators = [op] := by
  cases body with
  | nil =>
    obtain ⟨rfl, -⟩ := List.cons.inj h
    exact absurd (Or.inr rfl) hop
  | step i plain tail =>
    rw [operators_step, List.cons_append] at h
    obtain ⟨hi, h⟩ := List.cons.inj h
    cases tail with
    | nil => rw [operators_step, hi, operators_nil]
    | step j plain' tail =>
      obtain ⟨hj, -⟩ := List.cons.inj h
      exact absurd (Or.inr hj) plain'
    | loop inner tail =>
      rw [operators_loop, List.cons_append] at h
      obtain ⟨hj, -⟩ := List.cons.inj h
      cases hj
  | loop inner tail =>
    rw [operators_loop, List.cons_append] at h
    obtain ⟨rfl, -⟩ := List.cons.inj h
    exact absurd (Or.inl rfl) hop

theorem operators_of_isClearLoop {body : Block} (h : body.IsClearLoop) :
    body.operators = [.inc] ∨ body.operators = [.dec] := by
  rcases h with h | h
  · exact Or.inl (by rw [operators, h]; rfl)
  · exact Or.inr (by rw [operators, h]; rfl)

/-- A block that writes every operator on its own. -/
def IsUnbatched (b : Block) : Prop :=
  ∀ i ∈ b.code, i.count = 1

theorem IsUnbatched.code_eq {b : Block} (h : b.IsUnbatched) :
    b.code = b.operators.map .single := by
  rw [operators, List.map_map]
  conv => lhs; rw [← List.map_id b.code]
  exact List.map_congr_left fun i hi => Instruction.eq_single_of_count (h i hi)

theorem isUnbatched_of_code_eq {b : Block} {ops : List Operator} (h : b.code = ops.map .single) :
    b.IsUnbatched := by
  intro i hi
  rw [h] at hi
  obtain ⟨op, -, rfl⟩ := List.mem_map.mp hi
  rfl

theorem IsUnbatched.of_step {i : Instruction} {plain : ¬ i.op.IsBracket} {rest : Block}
    (h : (step i plain rest).IsUnbatched) : rest.IsUnbatched :=
  fun j hj => h j (List.mem_cons_of_mem _ hj)

theorem IsUnbatched.of_loop {body rest : Block} (h : (loop body rest).IsUnbatched) :
    body.IsUnbatched ∧ rest.IsUnbatched := by
  constructor
  · intro i hi
    exact h i (List.mem_cons_of_mem _ (List.mem_append_left _ hi))
  · intro i hi
    exact h i (List.mem_cons_of_mem _ (List.mem_append_right _ (List.mem_cons_of_mem _ hi)))

/-- Nothing that fusing adds is counted. -/
theorem IsUnbatched.fuse {b : Block} (h : b.IsUnbatched) : b.fuse.IsUnbatched := by
  induction b with
  | nil => exact h
  | step i plain rest ih =>
    intro j hj
    rcases List.mem_cons.mp hj with rfl | hj
    · exact h _ (List.mem_cons_self ..)
    · exact ih h.of_step j hj
  | loop body rest ihb ihr =>
    obtain ⟨hbody, hrest⟩ := h.of_loop
    intro j hj
    unfold Block.fuse at hj
    split at hj
    · rcases List.mem_cons.mp hj with rfl | hj
      · rfl
      · exact ihr hrest j hj
    · rcases List.mem_cons.mp hj with rfl | hj
      · rfl
      rcases List.mem_append.mp hj with hj | hj
      · exact ihb hbody j hj
      rcases List.mem_cons.mp hj with rfl | hj
      · rfl
      · exact ihr hrest j hj

theorem IsUnbatched.isClearLoop {body : Block} (h : body.IsUnbatched) {op : Operator}
    (hop : op = .inc ∨ op = .dec) (hb : body.operators = [op]) : body.IsClearLoop := by
  rw [IsClearLoop, h.code_eq, hb]
  rcases hop with rfl | rfl
  · exact Or.inl rfl
  · exact Or.inr rfl

/-- Fusing leaves a loop start alone that begins no window. -/
theorem fuseClearLoops_loopStart {ops : List Operator}
    (h : ∀ op rest, op = .inc ∨ op = .dec → ops ≠ op :: .loopEnd :: rest) :
    fuseClearLoops (.loopStart :: ops) = .loopStart :: fuseClearLoops ops := by
  rw [fuseClearLoops]
  · intro rest _ hrest
    exact h .inc rest (Or.inl rfl) hrest
  · intro rest _ hrest
    exact h .dec rest (Or.inr rfl) hrest

theorem fuseClearLoops_cons {op : Operator} (h : op ≠ .loopStart) (ops : List Operator) :
    fuseClearLoops (op :: ops) = op :: fuseClearLoops ops := by
  rw [fuseClearLoops]
  · intro rest hop _
    exact h hop
  · intro rest hop _
    exact h hop

/-- **Fusing a list fuses its tree**, whatever follows: no window goes beyond a block. -/
theorem fuseClearLoops_append {b : Block} (h : b.IsUnbatched) (rest : List Operator) :
    fuseClearLoops (b.operators ++ rest) = b.fuse.operators ++ fuseClearLoops rest := by
  -- Induction on the tree: a window is a loop of the tree, and is fused as such.
  induction b generalizing rest with
  | nil => rfl
  | step i plain after ih =>
    have hop : i.op ≠ .loopStart := fun hop => plain (Or.inl hop)
    rw [operators_step, List.cons_append, fuseClearLoops_cons hop, ih h.of_step]
    rfl
  | loop body after ihb ihr =>
    obtain ⟨hbody, hafter⟩ := h.of_loop
    rw [operators_loop, List.cons_append, List.append_assoc, List.cons_append]
    unfold fuse
    split
    next hc =>
      rcases operators_of_isClearLoop hc with hb | hb
      · rw [hb]
        exact congrArg (Operator.clear :: ·) (ihr hafter rest)
      · rw [hb]
        exact congrArg (Operator.clear :: ·) (ihr hafter rest)
    next hc =>
      -- A window here would be the whole loop, and the loop is none.
      have hwindow : ∀ op tail, op = .inc ∨ op = .dec →
          body.operators ++ .loopEnd :: (after.operators ++ rest) ≠ op :: .loopEnd :: tail := by
        intro op tail hop heq
        refine hc (hbody.isClearLoop hop (operators_eq_singleton ?_ heq))
        rcases hop with rfl | rfl <;> decide
      rw [fuseClearLoops_loopStart hwindow, ihb hbody, fuseClearLoops_cons (by decide),
        ihr hafter, operators_loop, List.cons_append, List.append_assoc, List.cons_append]

/-- **The text of a fused block** is the fused list, if the block writes every operator on its
own. -/
theorem code_fuse {b : Block} {ops : List Operator} (h : b.code = ops.map .single) :
    b.fuse.code = (fuseClearLoops ops).map .single := by
  have hb : b.IsUnbatched := isUnbatched_of_code_eq h
  have hops : b.operators = ops := by
    rw [operators, h, List.map_map]
    exact List.map_id _
  have hfuse := fuseClearLoops_append hb []
  rw [List.append_nil, fuseClearLoops, List.append_nil, hops] at hfuse
  rw [hb.fuse.code_eq, hfuse]

end Block

/-! ## Fusing a program -/

/-- A balanced list makes a program in which every operator is an instruction of its own. -/
theorem exists_program_of_balanced {ops : List Operator} (h : Balanced ops) :
    ∃ (b : Block) (p : Program), b.code = ops.map .single ∧
      Program.ofInstructions (ops.map .single) = .ok p ∧ p.instructions.toList = b.code := by
  have hops : (ops.map Instruction.single).map Instruction.op = ops := by
    rw [List.map_map]
    exact List.map_id _
  rw [← hops] at h
  obtain ⟨b, hb⟩ := Block.exists_parse?_of_balanced h
  have hcode := Block.parse?_eq_some_iff.mp hb
  obtain ⟨p, hp, hpc⟩ := b.exists_ofInstructions
  rw [hcode] at hp
  exact ⟨b, p, hcode, hp, hpc⟩

/-- **Fusing clear loops keeps what a program does**, under every policy: the program of a balanced
list and that of the fused list both exist, and from every machine they come to the same end or to
none. -/
theorem fuseClearLoops_preserves {ops : List Operator} (h : Balanced ops) :
    ∃ plain fused : Program,
      Program.ofInstructions (ops.map .single) = .ok plain ∧
      Program.ofInstructions ((fuseClearLoops ops).map .single) = .ok fused ∧
      ∀ {w : Width} (rules : Rules) (m : Machine w),
        plain.ImprovedBy Run.SameEnd fused rules m := by
  obtain ⟨b, plain, hb, hplain, hcode⟩ := exists_program_of_balanced h
  obtain ⟨fused, hfused, hcode'⟩ := b.fuse.exists_ofInstructions
  rw [Block.code_fuse hb] at hfused
  refine ⟨plain, fused, hplain, hfused, ?_⟩
  intro w rules m
  have himproved : plain.ImprovedBy (Run.ImprovedEnd Eq) fused rules m :=
    b.improvement_fuse.improvedBy hcode hcode'
  exact himproved.mono fun _ _ hend => hend.sameEnd

/-- Two windows in a row, and a third one inside a loop at the very end. -/
theorem fuseClearLoops_preserves_nested :
    Balanced [.loopStart, .dec, .loopEnd, .loopStart, .inc, .loopEnd, .loopStart, .right,
      .loopStart, .dec, .loopEnd, .loopEnd] ∧
    ∃ plain fused : Program,
      Program.ofInstructions ([.loopStart, .dec, .loopEnd, .loopStart, .inc, .loopEnd, .loopStart,
        .right, .loopStart, .dec, .loopEnd, .loopEnd].map .single) = .ok plain ∧
      Program.ofInstructions ([.clear, .clear, .loopStart, .right, .clear, .loopEnd].map .single) =
        .ok fused ∧
      ∀ {w : Width} (rules : Rules) (m : Machine w),
        plain.ImprovedBy Run.SameEnd fused rules m :=
  ⟨by decide, fuseClearLoops_preserves (by decide)⟩

end Brainfuck
