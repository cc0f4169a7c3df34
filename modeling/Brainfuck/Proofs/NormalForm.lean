import Mathlib.Data.List.Chain
import Mathlib.Data.List.Infix
import Mathlib.Tactic.MkIffOfInductiveProp
import Mathlib.Tactic.TFAE
import Brainfuck.Proofs.ClearLoops
import Brainfuck.Source

/-!
# Normal forms

The instruction lists that optimizing produces are the normal forms: no clear loop is left in them,
and no two neighbours could be one instruction. A normal form is found again from the operators that
it stands for, and also from the text that it is written out as, although `clear` is written as a
loop there.

## Main definitions

* `IsFused`: an operator list without clear loops
* `Instruction.Apart`: two neighbours that are not to be merged
* `Instruction.IsNormal`: the normal forms
* `Operator.unfused`: `clear` as the loop that it is written as

## Main results

* `fuseClearLoops_eq_self_iff`: fusing leaves the lists alone that have no clear loop
* `batch_eq_iff`: batching finds the one list of neighbours that are apart
* `fuseClearLoops_flatMap_unfused`: writing `clear` as a loop makes or hides no other clear loop
* `optimize_normal_forms`: optimizing produces the normal forms, and keeps them
-/

namespace Brainfuck

/-! ## Lists without clear loops -/

/-- There is no loop start, `inc` or `dec`, and loop end in a row. -/
def IsFused (ops : List Operator) : Prop :=
  ∀ op ∈ [Operator.inc, .dec], ¬ [.loopStart, op, .loopEnd] <:+: ops

instance (ops : List Operator) : Decidable (IsFused ops) :=
  inferInstanceAs (Decidable (∀ op ∈ [Operator.inc, .dec], ¬ _ <:+: ops))

variable {op : Operator} {ops rest : List Operator}

theorem isFused_cons :
    IsFused (op :: ops) ↔
      IsFused ops ∧ (op = .loopStart → ∀ op' ∈ [Operator.inc, .dec], ¬ [op', .loopEnd] <+: ops) := by
  simp only [IsFused, List.infix_cons_iff, List.cons_prefix_cons, not_or]
  constructor
  · intro h
    exact ⟨fun op' hop => (h op' hop).2, fun hs op' hop hp => (h op' hop).1 ⟨hs.symm, hp⟩⟩
  · rintro ⟨h, hs⟩ op' hop
    exact ⟨fun ⟨he, hp⟩ => hs he.symm op' hop hp, h op' hop⟩

theorem isFused_cons_of_ne (h : op ≠ .loopStart) : IsFused (op :: ops) ↔ IsFused ops := by
  rw [isFused_cons]
  exact and_iff_left fun hs => absurd hs h

/-- What a fused list begins with, other than `clear`, was there before. -/
theorem exists_of_fuseClearLoops_eq_cons (h : fuseClearLoops ops = op :: rest)
    (hop : op ≠ .clear) : ∃ ops', ops = op :: ops' ∧ fuseClearLoops ops' = rest := by
  unfold fuseClearLoops at h
  split at h
  · exact absurd (List.cons.inj h).1.symm hop
  · exact absurd (List.cons.inj h).1.symm hop
  · obtain ⟨rfl, rfl⟩ := List.cons.inj h
    exact ⟨_, rfl, rfl⟩
  · cases h

/-- Fusing leaves no clear loop. -/
theorem isFused_fuseClearLoops (ops : List Operator) : IsFused (fuseClearLoops ops) := by
  fun_induction fuseClearLoops ops with
  | case1 rest ih => exact (isFused_cons_of_ne (by decide)).mpr ih
  | case2 rest ih => exact (isFused_cons_of_ne (by decide)).mpr ih
  | case3 op rest hinc hdec ih =>
    refine isFused_cons.mpr ⟨ih, ?_⟩
    -- A window that begins here would have been one before the rest was fused.
    rintro rfl op' hop' ⟨tail, htail⟩
    have hne : op' ≠ .clear := by
      rintro rfl
      simp at hop'
    obtain ⟨ops, rfl, hops⟩ := exists_of_fuseClearLoops_eq_cons htail.symm hne
    obtain ⟨ops', rfl, -⟩ := exists_of_fuseClearLoops_eq_cons hops (by decide)
    rcases List.mem_pair.mp hop' with rfl | rfl
    · exact hinc _ rfl rfl
    · exact hdec _ rfl rfl
  | case4 => decide

/-- Without clear loops there is nothing to fuse. -/
theorem IsFused.fuseClearLoops_eq (h : IsFused ops) : fuseClearLoops ops = ops := by
  fun_induction fuseClearLoops ops with
  | case1 rest => exact absurd (List.prefix_append _ rest).isInfix (h .inc (by simp))
  | case2 rest => exact absurd (List.prefix_append _ rest).isInfix (h .dec (by simp))
  | case3 op rest _ _ ih => rw [ih (isFused_cons.mp h).1]
  | case4 => rfl

/-- **Fusing leaves the lists alone** that have no clear loop. -/
theorem fuseClearLoops_eq_self_iff : fuseClearLoops ops = ops ↔ IsFused ops := by
  refine ⟨fun h => ?_, IsFused.fuseClearLoops_eq⟩
  rw [← h]
  exact isFused_fuseClearLoops ops

/-! ## Neighbours that are apart -/

namespace Instruction

/-- Two neighbours that are not to be merged: if both repeat one batchable operator, then the first
repeats it as often as an instruction can. -/
def Apart (i j : Instruction) : Prop :=
  i.op = j.op → i.op.IsBatchable → i.count = maxCount

instance (i j : Instruction) : Decidable (Apart i j) :=
  inferInstanceAs (Decidable (_ → _ → _))

variable {i j : Instruction} {code : List Instruction}

theorem apart_iff_absorb? : Apart i j ↔ i.absorb? j.op = none := by
  have hle := i.count_le
  unfold Apart absorb?
  rw [dite_eq_right_iff]
  constructor
  · rintro h ⟨hop, hb, hlt⟩
    exact absurd (h hop.symm hb) (Nat.ne_of_lt hlt)
  · intro h hop hb
    by_contra hne
    cases h ⟨hop.symm, hb, by omega⟩

theorem apart_of_not_isBatchable (h : ¬ j.op.IsBatchable) : Apart i j := by
  intro hop hb
  rw [hop] at hb
  exact absurd hb h

/-- The instruction that repeats the operator of `i` once more, if there is one. -/
theorem absorb?_of_lt (h : i.count < j.count) (hop : j.op = i.op) :
    ∃ i', i.absorb? i.op = some i' ∧ i'.op = i.op ∧ i'.count = i.count + 1 := by
  have hpos := i.count_pos
  have hle := j.count_le
  have hb : i.op.IsBatchable := hop ▸ isBatchable_of_one_lt (by omega : 1 < j.count)
  have hlt : i.count < maxCount := by omega
  refine ⟨_, dif_pos ⟨rfl, hb, hlt⟩, rfl, rfl⟩

end Instruction

open Instruction

/-! ## Batching -/

variable {i j : Instruction} {code : List Instruction}

/-- Batching begins with the operator that is growing. -/
theorem exists_batchFrom_eq_cons (i : Instruction) (ops : List Operator) :
    ∃ j rest, batchFrom i ops = j :: rest ∧ j.op = i.op := by
  induction ops generalizing i with
  | nil => exact ⟨i, [], rfl, rfl⟩
  | cons op ops ih =>
    unfold batchFrom
    split
    next longer h =>
      obtain ⟨hi, hlonger, -⟩ := eq_of_absorb? h
      obtain ⟨j, rest, hj, hop⟩ := ih longer
      exact ⟨j, rest, hj, by rw [hop, hlonger, hi]⟩
    next => exact ⟨i, _, rfl, rfl⟩

theorem isChain_batchFrom (i : Instruction) (ops : List Operator) :
    (batchFrom i ops).IsChain Apart := by
  induction ops generalizing i with
  | nil => exact List.IsChain.singleton i
  | cons op ops ih =>
    unfold batchFrom
    split
    next longer _ => exact ih longer
    next h =>
      -- The next instruction repeats `op`, which was not taken in.
      obtain ⟨j, rest, hj, hop⟩ := exists_batchFrom_eq_cons (.single op) ops
      have hrest := ih (.single op)
      rw [hj] at hrest ⊢
      refine List.isChain_cons_cons.mpr ⟨apart_iff_absorb?.mpr ?_, hrest⟩
      rwa [hop]

/-- Batched neighbours are apart. -/
theorem isChain_batch (ops : List Operator) : (batch ops).IsChain Apart := by
  cases ops with
  | nil => exact List.IsChain.nil
  | cons op ops => exact isChain_batchFrom _ ops

/-- An instruction grows by taking its operator in. -/
theorem batchFrom_replicate {n : Nat} (hop : j.op = i.op) (hn : j.count = i.count + n)
    (ops : List Operator) : batchFrom i (List.replicate n i.op ++ ops) = batchFrom j ops := by
  induction n generalizing i with
  | zero =>
    obtain rfl : i = j := by
      cases i
      cases j
      simp_all
    rfl
  | succ n ih =>
    obtain ⟨i', hi', hop', hcount⟩ := absorb?_of_lt (i := i) (j := j) (by omega) hop
    rw [List.replicate_succ, List.cons_append, batchFrom_cons_of_absorb? hi', ← hop']
    exact ih (by rw [hop, hop']) (by omega)

/-- A run of operators becomes the instruction that repeats them. -/
theorem batch_replicate_append (j : Instruction) (ops : List Operator) :
    batch (List.replicate j.count j.op ++ ops) = batchFrom j ops := by
  obtain ⟨n, hn⟩ : ∃ n, j.count = n + 1 := Nat.exists_eq_add_one.mpr j.count_pos
  have hcount : j.count = (Instruction.single j.op).count + n := by
    rw [hn, Nat.add_comm]
    rfl
  rw [hn, List.replicate_succ, List.cons_append, batch]
  exact batchFrom_replicate (i := .single j.op) (j := j) rfl hcount ops

/-- An operator that is not taken in begins an instruction of its own. -/
theorem batchFrom_of_apart (h : Apart i j) (ops : List Operator) :
    batchFrom i (List.replicate j.count j.op ++ ops) =
      i :: batch (List.replicate j.count j.op ++ ops) := by
  obtain ⟨n, hn⟩ : ∃ n, j.count = n + 1 := Nat.exists_eq_add_one.mpr j.count_pos
  rw [hn, List.replicate_succ, List.cons_append,
    batchFrom_cons_of_not_absorb? (apart_iff_absorb?.mp h)]

theorem batchFrom_expand (h : (i :: code).IsChain Apart) :
    batchFrom i (expand code) = i :: code := by
  induction code generalizing i with
  | nil => rfl
  | cons j code ih =>
    obtain ⟨hij, hcode⟩ := List.isChain_cons_cons.mp h
    rw [expand_cons, batchFrom_of_apart hij, batch_replicate_append, ih hcode]

/-- Neighbours that are apart come out of batching as they are. -/
theorem batch_expand (h : code.IsChain Apart) : batch (expand code) = code := by
  cases code with
  | nil => rfl
  | cons i code => rw [expand_cons, batch_replicate_append, batchFrom_expand h]

/-- **Batching finds the one list** for its operators in which neighbours are apart. -/
theorem batch_eq_iff : batch ops = code ↔ expand code = ops ∧ code.IsChain Apart := by
  constructor
  · rintro rfl
    exact ⟨expand_batch ops, isChain_batch ops⟩
  · rintro ⟨rfl, h⟩
    exact batch_expand h

/-! ## Clear loops in an instruction list -/

/-- What an expanded list begins with is repeated by its first instruction. -/
theorem exists_of_cons_prefix_expand (h : op :: ops <+: expand code) :
    ∃ i rest, code = i :: rest ∧ i.op = op ∧
      ops <+: List.replicate (i.count - 1) op ++ expand rest := by
  cases code with
  | nil => simp at h
  | cons i rest =>
    obtain ⟨n, hn⟩ : ∃ n, i.count = n + 1 := Nat.exists_eq_add_one.mpr i.count_pos
    rw [expand_cons, hn, List.replicate_succ, List.cons_append, List.cons_prefix_cons] at h
    obtain ⟨rfl, h⟩ := h
    exact ⟨i, rest, rfl, rfl, by rwa [hn]⟩

/-- The end of a clear loop is two instructions, even next to others of its operator. -/
theorem prefix_of_prefix_expand (hop : op ≠ .loopEnd) (h : [op, .loopEnd] <+: expand code) :
    [.single op, .single .loopEnd] <+: code := by
  obtain ⟨i, rest, rfl, rfl, h⟩ := exists_of_cons_prefix_expand h
  -- A second repetition would stand where the loop ends.
  have hi : i.count = 1 := by
    by_contra hne
    have hpos := i.count_pos
    obtain ⟨n, hn⟩ : ∃ n, i.count - 1 = n + 1 := Nat.exists_eq_add_one.mpr (by omega)
    rw [hn, List.replicate_succ, List.cons_append, List.cons_prefix_cons] at h
    exact hop h.1.symm
  rw [hi, Nat.sub_self, List.replicate_zero, List.nil_append] at h
  obtain ⟨j, rest', rfl, hj, -⟩ := exists_of_cons_prefix_expand h
  have hj' : j = .single .loopEnd := by
    rw [eq_single_of_isBracket (Or.inr hj), hj]
  rw [hj', ← eq_single_of_count hi]
  exact List.prefix_append [i, .single .loopEnd] rest'

theorem isFused_replicate_append (h : op ≠ .loopStart) (n : Nat) :
    IsFused (List.replicate n op ++ ops) ↔ IsFused ops := by
  induction n with
  | zero => rfl
  | succ n ih => rw [List.replicate_succ, List.cons_append, isFused_cons_of_ne h, ih]

/-- **The clear loops of an instruction list** are those of its operators. -/
theorem isFused_expand_iff :
    IsFused (expand code) ↔ ∀ op ∈ [Operator.inc, .dec],
      ¬ [Operator.loopStart, op, .loopEnd].map Instruction.single <:+: code := by
  constructor
  · rintro h op hop ⟨front, back, rfl⟩
    refine h op hop ⟨expand front, expand back, ?_⟩
    rw [expand_append, expand_append]
    rfl
  · intro h
    induction code with
    | nil => decide
    | cons i code ih =>
      have hcode := ih fun op hop hw => h op hop (hw.trans (List.suffix_cons i code).isInfix)
      rw [expand_cons]
      by_cases hi : i.op = .loopStart
      · -- A window that begins with this loop start begins with this instruction.
        obtain rfl : i = .single .loopStart := by rw [eq_single_of_isBracket (Or.inl hi), hi]
        refine isFused_cons.mpr ⟨hcode, fun _ op hop hp => h op hop ?_⟩
        have hne : op ≠ .loopEnd := by
          rintro rfl
          simp at hop
        exact (List.cons_prefix_cons.mpr ⟨rfl, prefix_of_prefix_expand hne hp⟩).isInfix
      · exact (isFused_replicate_append hi i.count).mpr hcode

/-! ## Writing `clear` as a loop -/

/-- An operator as it is written out: `clear` is the loop that counts down. -/
def Operator.unfused : Operator → List Operator
  | clear => [loopStart, dec, loopEnd]
  | op => [op]

theorem Operator.filterMap_spelling (op : Operator) :
    op.spelling.filterMap ofChar? = op.unfused := by
  cases op <;> rfl

/-- **The operators of a list that is written out as a text.** -/
theorem operators_render (code : List Instruction) :
    Source.operators (render code) = (expand code).flatMap Operator.unfused := by
  rw [Source.operators, render, String.toList_ofList, List.filterMap_flatMap]
  exact congrArg (List.flatMap · _) (funext Operator.filterMap_spelling)

/-- Only a loop start can begin what was not there before. -/
theorem exists_of_flatMap_unfused_eq_cons (h : ops.flatMap Operator.unfused = op :: rest)
    (hop : op ≠ .loopStart) : ∃ ops', ops = op :: ops' ∧ ops'.flatMap Operator.unfused = rest := by
  cases ops with
  | nil => cases h
  | cons op' ops =>
    rw [List.flatMap_cons] at h
    cases op' with
    | clear => exact absurd (List.cons.inj h).1.symm hop
    | _ =>
      obtain ⟨rfl, rfl⟩ := List.cons.inj h
      exact ⟨ops, rfl, rfl⟩

/-- **Writing `clear` as a loop makes or hides no other clear loop**: fusing comes to the same. -/
theorem fuseClearLoops_flatMap_unfused (ops : List Operator) :
    fuseClearLoops (ops.flatMap Operator.unfused) = fuseClearLoops ops := by
  fun_induction fuseClearLoops ops with
  | case1 rest ih => exact congrArg (Operator.clear :: ·) ih
  | case2 rest ih => exact congrArg (Operator.clear :: ·) ih
  | case3 op rest hinc hdec ih =>
    rw [List.flatMap_cons]
    cases op with
    | clear => exact congrArg (Operator.clear :: ·) ih
    | loopStart =>
      refine (Block.fuseClearLoops_loopStart ?_).trans (congrArg (Operator.loopStart :: ·) ih)
      -- The operators of a window behind this loop start were there before.
      intro op tail hop htail
      have hne : op ≠ .loopStart := by
        rintro rfl
        simp at hop
      obtain ⟨ops, rfl, hops⟩ := exists_of_flatMap_unfused_eq_cons htail hne
      obtain ⟨ops', rfl, -⟩ := exists_of_flatMap_unfused_eq_cons hops (by decide)
      rcases hop with rfl | rfl
      · exact hinc _ rfl rfl
      · exact hdec _ rfl rfl
    | _ => exact (Block.fuseClearLoops_cons (by decide) _).trans (congrArg _ ih)
  | case4 => rfl

/-! ## Normal forms -/

/-- **An instruction list in normal form**: nothing is left to fuse or to batch. -/
@[mk_iff]
structure Instruction.IsNormal (code : List Instruction) : Prop where
  /-- There is no loop start, single `inc` or `dec`, and loop end in a row. -/
  no_clear_loop : ∀ op ∈ [Operator.inc, .dec],
    ¬ [Operator.loopStart, op, .loopEnd].map Instruction.single <:+: code
  /-- Neighbours with the same batchable operator are only found behind a full count. -/
  apart : code.IsChain Apart

instance (code : List Instruction) : Decidable (IsNormal code) :=
  decidable_of_iff _ (isNormal_iff code).symm

theorem Instruction.isNormal_iff_expand :
    IsNormal code ↔ IsFused (expand code) ∧ code.IsChain Apart := by
  rw [isNormal_iff, isFused_expand_iff]

/-- Optimizing leaves nothing to fuse or to batch. -/
theorem isNormal_optimize (ops : List Operator) : IsNormal (optimize ops) := by
  rw [isNormal_iff_expand, expand_optimize]
  exact ⟨isFused_fuseClearLoops ops, isChain_batch _⟩

/-- Optimizing finds a normal form again. -/
theorem Instruction.IsNormal.optimize_expand (h : IsNormal code) :
    optimize (expand code) = code := by
  obtain ⟨hfused, hapart⟩ := isNormal_iff_expand.mp h
  rw [optimize, hfused.fuseClearLoops_eq, batch_expand hapart]

/-- The text of a list is optimized as the list is. -/
theorem optimize_operators_render (code : List Instruction) :
    optimize (Source.operators (render code)) = optimize (expand code) := by
  rw [operators_render, optimize, fuseClearLoops_flatMap_unfused, optimize]

/-- **Optimizing produces the normal forms**, and these are what it leaves alone, whether a list is
written out as operators or as a text. Any list is optimized alike from either. -/
theorem optimize_normal_forms (code : List Instruction) :
    [∃ ops, optimize ops = code,
      optimize (expand code) = code,
      optimize (Source.operators (render code)) = code,
      IsNormal code].TFAE ∧
    optimize (Source.operators (render code)) = optimize (expand code) := by
  refine ⟨?_, optimize_operators_render code⟩
  rw [optimize_operators_render]
  tfae_have 1 → 4
  | ⟨ops, hops⟩ => hops ▸ isNormal_optimize ops
  tfae_have 4 → 2 := IsNormal.optimize_expand
  tfae_have 2 ↔ 3 := Iff.rfl
  tfae_have 2 → 1 := fun h => ⟨_, h⟩
  tfae_finish

/-- A full count keeps its neighbour apart, and a loop that steps twice is no clear loop. -/
example : IsNormal [⟨.right, maxCount, by decide⟩, .single .right, .single .loopStart,
    ⟨.inc, 2, by decide⟩, .single .loopEnd] := by
  decide

end Brainfuck
