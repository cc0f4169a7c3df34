import Brainfuck.Proofs.Counts
import Brainfuck.Proofs.NormalForm

/-!
# What optimizing loses

An instruction list can be written out as a text again. What is lost on the way from a text to its
instructions and back, besides the comments, is whether a loop that only steps its cell to zero
steps it up or down: both are written out as the loop that steps down. For fusing takes an operator
list apart into such loops, each of which becomes one operator, and single operators that it keeps.

## Main definitions

* `countDown`: an operator list with every loop that steps up turned into one that steps down
* `Segment`: a clear loop or a single operator

## Main results

* `operators_render_optimize`: the operators of the text that optimized operators are written as
* `exists_segments`, `Segment.eq_of_flatMap_of_map`: the segments that fusing takes a list apart into
* `optimize_loses_signs`: optimizing and writing out loses the direction of clear loops alone
-/

namespace Brainfuck

open Instruction

variable {op : Operator} {ops rest : List Operator}

/-! ## Counting down -/

/-- The operator at `i` is the body of a loop that steps its cell up. -/
def StepsUpAt (ops : List Operator) (i : Nat) : Prop :=
  0 < i ∧ [.loopStart, .inc, .loopEnd] <+: ops.drop (i - 1)

instance (ops : List Operator) (i : Nat) : Decidable (StepsUpAt ops i) :=
  inferInstanceAs (Decidable (_ ∧ _))

/-- Every loop that steps its cell up as one that steps it down. -/
def countDown (ops : List Operator) : List Operator :=
  ops.mapIdx fun i op => if StepsUpAt ops i then .dec else op

theorem not_stepsUpAt_zero (ops : List Operator) : ¬ StepsUpAt ops 0 :=
  fun h => Nat.lt_irrefl 0 h.1

/-- A loop begins with the first operator, or it is found in the rest. -/
theorem stepsUpAt_succ_iff {i : Nat} :
    StepsUpAt (op :: rest) (i + 1) ↔
      i = 0 ∧ [.loopStart, .inc, .loopEnd] <+: op :: rest ∨ StepsUpAt rest i := by
  cases i with
  | zero => simp [StepsUpAt]
  | succ i => simp [StepsUpAt]

theorem countDown_cons (h : ¬ [.loopStart, .inc, .loopEnd] <+: op :: rest) :
    countDown (op :: rest) = op :: countDown rest := by
  simp only [countDown, List.mapIdx_cons, not_stepsUpAt_zero, stepsUpAt_succ_iff, h, and_false,
    false_or, if_false]

theorem countDown_stepsUp (rest : List Operator) :
    countDown (.loopStart :: .inc :: .loopEnd :: rest) =
      .loopStart :: .dec :: .loopEnd :: countDown rest := by
  simp [countDown, not_stepsUpAt_zero, stepsUpAt_succ_iff]

/-- **The operators of the text** that optimized operators are written as. -/
theorem operators_render_optimize (h : .clear ∉ ops) :
    Source.operators (render (optimize ops)) = countDown ops := by
  rw [operators_render, expand_optimize]
  fun_induction fuseClearLoops ops with
  | case1 rest ih =>
    rw [countDown_stepsUp, ← ih (by simp_all)]
    rfl
  | case2 rest ih =>
    rw [countDown_cons (by simp), countDown_cons (by simp), countDown_cons (by simp),
      ← ih (by simp_all)]
    rfl
  | case3 op rest hinc hdec ih =>
    have hop : op ≠ .clear := fun he => h (he ▸ List.mem_cons_self)
    have hwindow : ¬ [.loopStart, .inc, .loopEnd] <+: op :: rest := by
      rintro ⟨tail, htail⟩
      obtain ⟨rfl, rfl⟩ := List.cons.inj htail
      exact hinc tail rfl rfl
    rw [countDown_cons hwindow, ← ih fun hmem => h (List.mem_cons_of_mem op hmem),
      List.flatMap_cons]
    cases op with
    | clear => exact absurd rfl hop
    | _ => rfl
  | case4 => rfl

/-- A loop that steps twice is none of those that are turned. -/
example : render (optimize (Source.operators "[[+]x[-]][++]")) = "[[-][-]][++]" := by decide

/-! ## Segments -/

/-- What fusing takes an operator list apart into. -/
inductive Segment
  /-- The loop that steps its cell up to zero. -/
  | stepsUp
  /-- The loop that steps its cell down to zero. -/
  | stepsDown
  /-- An operator that is kept. -/
  | kept (op : Operator)
  deriving DecidableEq, Repr

namespace Segment

/-- The operators of a segment. -/
def operators : Segment → List Operator
  | stepsUp => [.loopStart, .inc, .loopEnd]
  | stepsDown => [.loopStart, .dec, .loopEnd]
  | kept op => [op]

/-- The operator that a segment becomes. -/
def fused : Segment → Operator
  | stepsUp => .clear
  | stepsDown => .clear
  | kept op => op

/-- A clear loop and a `clear` that is kept begin with different operators. -/
theorem eq_of_fused_of_append {s s' : Segment} (hfused : s.fused = s'.fused)
    (h : s.operators ++ ops = s'.operators ++ rest) : s = s' := by
  cases s <;> cases s' <;> grind [operators, fused]

/-- The operators of segments, and what they become, tell the segments. -/
theorem eq_of_flatMap_of_map {segments segments' : List Segment}
    (hoperators : segments.flatMap operators = segments'.flatMap operators)
    (hfused : segments.map fused = segments'.map fused) : segments = segments' := by
  induction segments generalizing segments' with
  | nil => exact (List.map_eq_nil_iff.mp hfused.symm).symm
  | cons s segments ih =>
    cases segments' with
    | nil => cases hfused
    | cons s' segments' =>
      obtain ⟨hhead, htail⟩ := List.cons.inj hfused
      rw [List.flatMap_cons, List.flatMap_cons] at hoperators
      obtain rfl := eq_of_fused_of_append hhead hoperators
      rw [ih (List.append_cancel_left hoperators) htail]

/-- Another segment in front of a list that is taken apart. -/
theorem exists_cons (s : Segment) {fusedOps : List Operator}
    (h : ∃ segments : List Segment, segments.flatMap operators = ops ∧
      segments.map fused = fusedOps) :
    ∃ segments : List Segment, segments.flatMap operators = s.operators ++ ops ∧
      segments.map fused = s.fused :: fusedOps := by
  obtain ⟨segments, rfl, rfl⟩ := h
  exact ⟨s :: segments, rfl, rfl⟩

end Segment

/-- **Fusing takes a list apart** into segments, each of which becomes one operator. -/
theorem exists_segments (ops : List Operator) :
    ∃ segments : List Segment, segments.flatMap Segment.operators = ops ∧
      segments.map Segment.fused = fuseClearLoops ops := by
  fun_induction fuseClearLoops ops with
  | case1 rest ih => exact Segment.exists_cons .stepsUp ih
  | case2 rest ih => exact Segment.exists_cons .stepsDown ih
  | case3 op rest _ _ ih => exact Segment.exists_cons (.kept op) ih
  | case4 => exact ⟨[], rfl, rfl⟩

/-- **Optimizing and writing out loses the direction of clear loops alone.** A text that is optimized
and written out has the operators it had, but for the loops that step up, which step down. Of any
operator list, the instructions stand for what fusing makes of it. There is one way to take the list
apart in which every segment becomes one operator of these, so that each `clear` that was not there
before stands for one clear loop, and all other operators are kept in order. -/
theorem optimize_loses_signs :
    (∀ text, Source.operators (render (optimize (Source.operators text))) =
      countDown (Source.operators text)) ∧
    ∀ ops, expand (optimize ops) = fuseClearLoops ops ∧
      ∃! segments : List Segment, segments.flatMap Segment.operators = ops ∧
        segments.map Segment.fused = fuseClearLoops ops := by
  refine ⟨fun text => ?_, fun ops => ⟨expand_optimize ops, ?_⟩⟩
  · exact operators_render_optimize (List.count_eq_zero.mp (Source.count_clear_operators text))
  · obtain ⟨segments, hoperators, hfused⟩ := exists_segments ops
    refine ⟨segments, ⟨hoperators, hfused⟩, ?_⟩
    rintro segments' ⟨hoperators', hfused'⟩
    exact Segment.eq_of_flatMap_of_map (hoperators'.trans hoperators.symm)
      (hfused'.trans hfused.symm)

end Brainfuck
