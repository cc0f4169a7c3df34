import Brainfuck.Program

/-!
# Blocks

The loops of a balanced instruction list nest, so that the list is the text of a tree: a block is a
sequence of plain instructions and loops, and the body of a loop is a block again. The jump table of
a block can be read off the tree.

## Main definitions

* `Balanced`: the brackets of an operator list balance
* `Block`: a tree of instructions and loops
* `Block.code`, `Block.targets`: its instructions, and their partners
* `Block.parse?`: the tree of an instruction list

## Main results

* `Block.parse?_eq_some_iff`: a list has one tree, whose text it is, or none
* `Block.exists_parse?_of_balanced`, `Block.exists_parse?_of_resolve`: a balanced list has a tree,
  and so has every list with a jump table
* `Block.resolve_code`: the jump table of a block
-/

namespace Brainfuck

/-- The brackets of an operator list balance: no front part ends more loops than it starts, and as
many loops are ended as are started. -/
def Balanced (ops : List Operator) : Prop :=
  (∀ front, front <+: ops → front.count .loopEnd ≤ front.count .loopStart) ∧
    ops.count .loopEnd = ops.count .loopStart

instance (ops : List Operator) : Decidable (Balanced ops) :=
  decidable_of_iff
    ((∀ n < ops.length + 1, (ops.take n).count .loopEnd ≤ (ops.take n).count .loopStart) ∧
      ops.count .loopEnd = ops.count .loopStart) <| by
    refine and_congr_left fun _ => ⟨fun h front hf => ?_, fun h n _ => h _ (List.take_prefix n ops)⟩
    rw [List.prefix_iff_eq_take.mp hf]
    exact h _ (Nat.lt_succ_of_le hf.length_le)

/-- Instructions nested by their loops. -/
inductive Block
  | nil
  /-- An instruction that is no bracket, and what follows it. -/
  | step (i : Instruction) (plain : ¬ i.op.IsBracket) (rest : Block)
  /-- A loop, and what follows it. -/
  | loop (body rest : Block)
  deriving DecidableEq

namespace Instruction

theorem eq_single {i : Instruction} (h : ¬ i.op.IsBatchable) : i = single i.op := by
  obtain ⟨op, count, hc | hc⟩ := i
  · subst hc
    rfl
  · exact absurd hc.2.2 h

theorem eq_single_of_count {i : Instruction} (h : i.count = 1) : i = single i.op := by
  obtain ⟨op, count, valid⟩ := i
  subst h
  rfl

theorem eq_single_of_isBracket {i : Instruction} (h : i.op.IsBracket) : i = single i.op :=
  eq_single h.not_isBatchable

end Instruction

namespace Block

/-- The instructions of a block, in order. -/
def code : Block → List Instruction
  | nil => []
  | step i _ rest => i :: rest.code
  | loop body rest => .single .loopStart :: (body.code ++ .single .loopEnd :: rest.code)

/-- The operators of a block, in order, each as often as it is written. -/
def operators (b : Block) : List Operator :=
  b.code.map Instruction.op

/-- The number of instructions of a block. -/
def size (b : Block) : Nat :=
  b.code.length

/-- The partners of the instructions of a block whose first instruction has the index `base`. -/
def targets (base : Nat) : Block → List Nat
  | nil => []
  | step _ _ rest => base :: rest.targets (base + 1)
  | loop body rest =>
    (base + 1 + body.size) ::
      (body.targets (base + 1) ++ base :: rest.targets (base + 1 + body.size + 1))

@[simp] theorem operators_nil : nil.operators = [] := rfl

@[simp] theorem operators_step (i : Instruction) (plain : ¬ i.op.IsBracket) (rest : Block) :
    (step i plain rest).operators = i.op :: rest.operators := rfl

@[simp] theorem operators_loop (body rest : Block) :
    (loop body rest).operators =
      .loopStart :: (body.operators ++ .loopEnd :: rest.operators) := by
  simp [operators, code, Instruction.single]

@[simp] theorem size_nil : nil.size = 0 := rfl

@[simp] theorem size_step (i : Instruction) (plain : ¬ i.op.IsBracket) (rest : Block) :
    (step i plain rest).size = rest.size + 1 := rfl

@[simp] theorem size_loop (body rest : Block) :
    (loop body rest).size = body.size + rest.size + 2 := by
  simp [size, code]
  omega

@[simp] theorem length_targets (base : Nat) (b : Block) : (b.targets base).length = b.size := by
  induction b generalizing base with
  | nil => rfl
  | step i plain rest ih => simp [targets, ih]
  | loop body rest ihb ihr =>
    simp [targets, ihb, ihr]
    omega

/-! ## Parsing

A list is read from its end. Then a loop end opens a new block, since what was read so far comes
after a loop, and a loop start closes the innermost of them. -/

/-- Read one instruction more, in front of a block and of those that follow loop ends that were
not matched, the innermost first. -/
def enter (i : Instruction) : Block × List Block → Option (Block × List Block)
  | (b, outer) =>
    if hs : i.op = .loopStart then
      match outer with
      | [] => none
      | after :: outer => some (loop b after, outer)
    else if he : i.op = .loopEnd then some (nil, b :: outer)
    else some (step i (by rintro (h | h) <;> contradiction) b, outer)

/-- Read a list up to its first instruction. -/
def parseFrom : List Instruction → Option (Block × List Block)
  | [] => some (nil, [])
  | i :: rest => (parseFrom rest).bind (enter i)

/-- The tree of an instruction list: none if a loop is not matched. -/
def parse? (code : List Instruction) : Option Block :=
  match parseFrom code with
  | some (b, []) => some b
  | _ => none

theorem enter_of_loopStart {i : Instruction} (h : i.op = .loopStart) (b after : Block)
    (outer : List Block) : enter i (b, after :: outer) = some (loop b after, outer) := by
  unfold enter
  dsimp only
  rw [dif_pos h]

theorem enter_of_loopEnd {i : Instruction} (h : i.op = .loopEnd) (b : Block)
    (outer : List Block) : enter i (b, outer) = some (nil, b :: outer) := by
  unfold enter
  dsimp only
  rw [dif_neg (by rw [h]; decide), dif_pos h]

theorem enter_of_not_isBracket {i : Instruction} (h : ¬ i.op.IsBracket) (b : Block)
    (outer : List Block) : enter i (b, outer) = some (step i h b, outer) := by
  unfold enter
  dsimp only
  rw [dif_neg fun hs => h (Or.inl hs), dif_neg fun he => h (Or.inr he)]

/-- **Reading the text of a block** gives the block. -/
theorem parseFrom_code_append (b : Block) {rest : List Instruction} {outer : List Block}
    (h : parseFrom rest = some (nil, outer)) :
    parseFrom (b.code ++ rest) = some (b, outer) := by
  induction b generalizing rest outer with
  | nil => exact h
  | step i plain after ih =>
    rw [code, List.cons_append, parseFrom, ih h]
    exact enter_of_not_isBracket plain after outer
  | loop body after ihb ihr =>
    -- The text of the body is followed by the loop end, which leaves `after` to be closed.
    have hend : parseFrom (.single .loopEnd :: (after.code ++ rest)) =
        some (nil, after :: outer) := by
      rw [parseFrom, ihr h]
      exact enter_of_loopEnd (i := .single .loopEnd) rfl after outer
    rw [code, List.cons_append, List.append_assoc, List.cons_append, parseFrom, ihb hend]
    exact enter_of_loopStart (i := .single .loopStart) rfl body after outer

/-- What was read is the text of the blocks, with a loop end between any two. -/
theorem eq_of_parseFrom {code : List Instruction} {b : Block} {outer : List Block}
    (h : parseFrom code = some (b, outer)) :
    code = b.code ++ outer.flatMap fun after => .single .loopEnd :: after.code := by
  -- Induction on the list; the last step was to enter its first instruction.
  induction code generalizing b outer with
  | nil =>
    obtain ⟨rfl, rfl⟩ := Prod.mk.inj (Option.some.inj h)
    rfl
  | cons i rest ih =>
    obtain ⟨⟨b₀, outer₀⟩, h₀, he⟩ := Option.bind_eq_some_iff.mp h
    have hrest := ih h₀
    by_cases hi : i.op.IsBracket
    -- A loop start joins the first two blocks into one, and a loop end opens a new one.
    · rw [Instruction.eq_single_of_isBracket hi]
      rcases hi with hi | hi
      · cases outer₀ with
        | nil => simp [enter, hi] at he
        | cons after outer₁ =>
          rw [enter_of_loopStart hi] at he
          obtain ⟨rfl, rfl⟩ := Prod.mk.inj (Option.some.inj he)
          simp [hi, hrest, Block.code]
      · rw [enter_of_loopEnd hi] at he
        obtain ⟨rfl, rfl⟩ := Prod.mk.inj (Option.some.inj he)
        simp [hi, hrest, Block.code]
    · rw [enter_of_not_isBracket hi] at he
      obtain ⟨rfl, rfl⟩ := Prod.mk.inj (Option.some.inj he)
      simp [hrest, Block.code]

/-- **A list has one tree**, the one whose text it is, or none. -/
theorem parse?_eq_some_iff {code : List Instruction} {b : Block} :
    parse? code = some b ↔ b.code = code := by
  constructor
  · intro h
    unfold parse? at h
    split at h
    next b₀ h₀ =>
      obtain rfl := Option.some.inj h
      simpa using (eq_of_parseFrom h₀).symm
    next => cases h
  · rintro rfl
    have h : parseFrom (b.code ++ []) = some (b, []) := parseFrom_code_append b rfl
    rw [List.append_nil] at h
    rw [parse?, h]

theorem parse?_code (b : Block) : parse? b.code = some b :=
  parse?_eq_some_iff.mpr rfl

theorem code_injective {b b' : Block} (h : b.code = b'.code) : b = b' := by
  have hb := parse?_code b
  rw [h, parse?_code] at hb
  exact (Option.some.inj hb).symm

theorem parse?_of_parseFrom {code : List Instruction} {b : Block} {outer : List Block}
    (h : parseFrom code = some (b, outer)) (hl : outer.length = 0) : parse? code = some b := by
  obtain rfl := List.length_eq_zero_iff.mp hl
  rw [parse?, h]

/-! ## Balanced lists -/

/-- A list that ends `d` loops more than it starts, and the loops of which are otherwise matched,
is read into a block and `d` blocks that follow. -/
theorem exists_parseFrom_of_balanced {code : List Instruction} {d : Nat}
    (hfront : ∀ front, front <+: code.map Instruction.op →
      front.count .loopEnd ≤ d + front.count .loopStart)
    (hall : (code.map Instruction.op).count .loopEnd =
      d + (code.map Instruction.op).count .loopStart) :
    ∃ b outer, parseFrom code = some (b, outer) ∧ outer.length = d := by
  -- Induction on the list: its first instruction changes `d` for what comes after it.
  induction code generalizing d with
  | nil =>
    have hd : d = 0 := by simpa using hall.symm
    exact ⟨nil, [], rfl, hd.symm⟩
  | cons i rest ih =>
    have hfront' : ∀ front, front <+: rest.map Instruction.op →
        (i.op :: front).count .loopEnd ≤ d + (i.op :: front).count .loopStart := by
      intro front hf
      exact hfront _ (List.cons_prefix_cons.mpr ⟨rfl, hf⟩)
    rw [List.map_cons] at hall
    by_cases hs : i.op = .loopStart
    · -- After a loop start one loop end more is not matched: its own.
      obtain ⟨b, outer, hp, hl⟩ := @ih (d + 1)
        (fun front hf => by have := hfront' front hf; simp [hs] at this; omega)
        (by simp [hs] at hall; omega)
      obtain ⟨after, outer', rfl⟩ := List.exists_cons_of_length_eq_add_one hl
      refine ⟨loop b after, outer', ?_, by simpa using hl⟩
      rw [parseFrom, hp]
      exact enter_of_loopStart hs b after outer'
    by_cases he : i.op = .loopEnd
    · -- The first loop end alone is a front part, so that one of the `d` is this one.
      have hd : 1 ≤ d := by simpa [he] using hfront' [] (List.nil_prefix)
      obtain ⟨b, outer, hp, hl⟩ := @ih (d - 1)
        (fun front hf => by have := hfront' front hf; simp [he] at this; omega)
        (by simp [he] at hall; omega)
      refine ⟨nil, b :: outer, ?_, by simp [hl]; omega⟩
      rw [parseFrom, hp]
      exact enter_of_loopEnd he b outer
    · have hop : ¬ i.op.IsBracket := by
        rintro (h | h) <;> contradiction
      obtain ⟨b, outer, hp, hl⟩ := @ih d
        (fun front hf => by simpa [List.count_cons, hs, he] using hfront' front hf)
        (by simpa [List.count_cons, hs, he] using hall)
      refine ⟨step i hop b, outer, ?_, hl⟩
      rw [parseFrom, hp]
      exact enter_of_not_isBracket hop b outer

/-- **A list whose brackets balance has a tree.** -/
theorem exists_parse?_of_balanced {code : List Instruction}
    (h : Balanced (code.map Instruction.op)) : ∃ b, parse? code = some b := by
  obtain ⟨b, outer, hp, hl⟩ := exists_parseFrom_of_balanced (d := 0)
    (fun front hf => by simpa using h.1 front hf) (by simpa using h.2)
  exact ⟨b, parse?_of_parseFrom hp hl⟩

/-! ## Jump tables -/

theorem exists_parseFrom_of_resolveFrom {code : List Instruction} {targets targets' : Array Nat}
    {started : List Nat} (h : JumpTable.resolveFrom targets started code = .ok targets') :
    ∃ b outer, parseFrom code = some (b, outer) ∧ outer.length = started.length := by
  -- Induction on the list: every open loop start waits for one of the blocks that follow.
  induction code generalizing targets started with
  | nil =>
    cases started with
    | nil => exact ⟨nil, [], rfl, rfl⟩
    | cons start outer => cases h
  | cons i rest ih =>
    unfold JumpTable.resolveFrom at h
    split at h
    next hs =>
      obtain ⟨b, outer, hp, hl⟩ := ih h
      obtain ⟨after, outer', rfl⟩ := List.exists_cons_of_length_eq_add_one hl
      refine ⟨loop b after, outer', ?_, by simpa using hl⟩
      rw [parseFrom, hp]
      exact enter_of_loopStart hs b after outer'
    next he =>
      cases started with
      | nil => cases h
      | cons start started' =>
        obtain ⟨b, outer, hp, hl⟩ := ih h
        refine ⟨nil, b :: outer, ?_, by simp [hl]⟩
        rw [parseFrom, hp]
        exact enter_of_loopEnd he b outer
    next hs he =>
      obtain ⟨b, outer, hp, hl⟩ := ih h
      have hop : ¬ i.op.IsBracket := by
        rintro (h | h) <;> contradiction
      refine ⟨step i hop b, outer, ?_, hl⟩
      rw [parseFrom, hp]
      exact enter_of_not_isBracket hop b outer

/-- **A list with a jump table has a tree.** -/
theorem exists_parse?_of_resolve {code : List Instruction} {table : JumpTable}
    (h : JumpTable.resolve code = .ok table) : ∃ b, parse? code = some b := by
  unfold JumpTable.resolve at h
  cases hr : JumpTable.resolveFrom #[] [] code with
  | error e =>
    rw [hr] at h
    cases h
  | ok targets =>
    obtain ⟨b, outer, hp, hl⟩ := exists_parseFrom_of_resolveFrom hr
    exact ⟨b, parse?_of_parseFrom hp hl⟩

/-- A loop start is pushed with its own index, which its loop end overwrites. -/
theorem setIfInBounds_push_append (targets inner : Array Nat) (partner : Nat) :
    (targets.push targets.size ++ inner).setIfInBounds targets.size partner =
      targets.push partner ++ inner := by
  apply Array.toList_inj.mp
  simp

/-- **Resolving the text of a block** adds the partners of its instructions, and leaves the loops
that were open before as they are. -/
theorem resolveFrom_code_append (b : Block) (targets : Array Nat) (started : List Nat)
    (rest : List Instruction) :
    JumpTable.resolveFrom targets started (b.code ++ rest) =
      JumpTable.resolveFrom (targets ++ (b.targets targets.size).toArray) started rest := by
  -- Induction on the tree; only a loop touches an entry that is already there, its own.
  induction b generalizing targets started rest with
  | nil => simp [code, Block.targets]
  | step i plain after ih =>
    rw [code, List.cons_append, JumpTable.resolveFrom_of_not_isBracket plain, ih, Block.targets,
      Array.size_push]
    congr 1
    apply Array.toList_inj.mp
    simp
  | loop body after ihb ihr =>
    have hsize (first : Nat) :
        (targets.push first ++ (body.targets (targets.size + 1)).toArray).size =
          targets.size + 1 + body.size := by
      simp only [Array.size_append, Array.size_push, List.size_toArray, length_targets]
    rw [code, List.cons_append, List.append_assoc, List.cons_append,
      JumpTable.resolveFrom_of_loopStart rfl, ihb, JumpTable.resolveFrom_of_loopEnd rfl,
      Array.size_push, hsize, setIfInBounds_push_append, ihr, Array.size_push, hsize]
    congr 1
    apply Array.toList_inj.mp
    simp [Block.targets]

/-- **The jump table of a block** holds the partners of its instructions. -/
theorem resolve_code (b : Block) : JumpTable.resolve b.code = .ok ⟨(b.targets 0).toArray⟩ := by
  have h := resolveFrom_code_append b #[] [] []
  rw [List.append_nil] at h
  rw [JumpTable.resolve, h]
  simp [JumpTable.resolveFrom]
  rfl

/-- The text of a block makes a program. -/
theorem exists_ofInstructions (b : Block) :
    ∃ p, Program.ofInstructions b.code = .ok p ∧ p.instructions.toList = b.code := by
  cases h : Program.ofInstructions b.code with
  | ok p => exact ⟨p, rfl, Program.toList_of_ofInstructions h⟩
  | error e =>
    have he := Program.ofInstructions_eq_error_iff.mp h
    rw [resolve_code] at he
    cases he

end Block

end Brainfuck
