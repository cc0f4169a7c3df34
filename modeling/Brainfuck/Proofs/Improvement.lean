import Brainfuck.Proofs.Flattening

/-!
# Improvements

One piece of a program improves on another if it comes to the same result whenever one of the two
comes to a result at all, after executing no more instructions. Where evaluations are cut short the
results may differ in a given way; where they go on they may not, so that what follows is not
affected. Improving a part of a block improves the block, and the runs of a program improve as its
block does.

## Main definitions

* `Result.Rel`: results that are the same, or cut short in related ways
* `Meaning.Matched`, `Improvement`: one meaning improves on another
* `Program.ImprovedBy`: the runs of one program improve on those of another
* `Run.SameEnd`: two runs come to the same end

## Main results

* `Meaning.Matched.iterated`: a loop is matched by a loop if its body is
* `Improvement.seq`, `Improvement.iterated`: improvement of parts
* `Improvement.improvedBy`: blocks that improve make programs that improve
-/

namespace Brainfuck

variable {w : Width} {rules : Rules} {Q : Halt × Machine w → Halt × Machine w → Prop}

/-- Two results are the same, or are both cut short, in ways that are related by `Q`. -/
inductive Result.Rel (Q : Halt × Machine w → Halt × Machine w → Prop) : Result w → Result w → Prop
  | passed (m : Machine w) : Rel Q (.passed m) (.passed m)
  | halted {why why' : Halt} {m m' : Machine w} (h : Q (why, m) (why', m')) :
      Rel Q (.halted why m) (.halted why' m')

namespace Result.Rel

variable {x y z : Result w}

theorem refl (hQ : ∀ s, Q s s) (x : Result w) : Rel Q x x := by
  cases x with
  | passed m => exact .passed m
  | halted why m => exact .halted (hQ _)

theorem trans (hQ : ∀ {s t u}, Q s t → Q t u → Q s u) (h : Rel Q x y) (h' : Rel Q y z) :
    Rel Q x z := by
  cases h with
  | passed m => exact h'
  | halted h =>
    cases h' with
    | halted h' => exact .halted (hQ h h')

theorem flip (h : Rel Q x y) : Rel (flip Q) y x := by
  cases h with
  | passed m => exact .passed m
  | halted hs => exact .halted hs

theorem mono {Q' : Halt × Machine w → Halt × Machine w → Prop} (hQ : ∀ {s t}, Q s t → Q' s t)
    (h : Rel Q x y) : Rel Q' x y := by
  cases h with
  | passed m => exact .passed m
  | halted hs => exact .halted (hQ hs)

theorem eq (h : Rel Eq x y) : x = y := by
  cases h with
  | passed m => rfl
  | halted h =>
    obtain ⟨rfl, rfl⟩ := Prod.mk.inj h
    rfl

end Result.Rel

/-- Whenever `a` comes to a result, so does `b` from the same machine; the results are related, and
`L` compares how many instructions were executed. -/
def Meaning.Matched (L : Nat → Nat → Prop) (Q : Halt × Machine w → Halt × Machine w → Prop)
    (a b : Meaning w) : Prop :=
  ∀ ⦃m k x⦄, a m k x → ∃ j y, b m j y ∧ L k j ∧ Result.Rel Q x y

/-- **`fast` improves on `slow`**: from every machine the one comes to a result if and only if the
other does, the results are related, and `fast` executes no more instructions. -/
structure Improvement (Q : Halt × Machine w → Halt × Machine w → Prop) (slow fast : Meaning w) :
    Prop where
  forth : slow.Matched (· ≥ ·) Q fast
  back : fast.Matched (· ≤ ·) (flip Q) slow

/-! ## Matching parts -/

namespace Meaning.Matched

variable {L : Nat → Nat → Prop} {a b c a' b' : Meaning w}

theorem refl (hQ : ∀ s, Q s s) (hL : ∀ k, L k k) (a : Meaning w) : a.Matched L Q a :=
  fun _ k x h => ⟨k, x, h, hL k, .refl hQ x⟩

theorem trans (h : a.Matched L Q b) (h' : b.Matched L Q c)
    (hQ : ∀ {s t u}, Q s t → Q t u → Q s u) (hL : ∀ {k j i}, L k j → L j i → L k i) :
    a.Matched L Q c := by
  intro m k x hx
  obtain ⟨j, y, hy, hj, hxy⟩ := h hx
  obtain ⟨i, z, hz, hi, hyz⟩ := h' hy
  exact ⟨i, z, hz, hL hj hi, hxy.trans hQ hyz⟩

theorem mono {Q' : Halt × Machine w → Halt × Machine w → Prop} (h : a.Matched L Q b)
    (hQ : ∀ {s t}, Q s t → Q' s t) : a.Matched L Q' b := by
  intro m k x hx
  obtain ⟨j, y, hy, hj, hxy⟩ := h hx
  exact ⟨j, y, hy, hj, hxy.mono hQ⟩

/-- **Two pieces in a row** are matched by two in a row. -/
theorem seq (ha : a.Matched L Q a') (hb : b.Matched L Q b')
    (hL : ∀ {k j k' j'}, L k j → L k' j' → L (k + k') (j + j')) :
    Matched L Q (Seq a b) (Seq a' b') := by
  intro m k x h
  cases h with
  | passed first second =>
    -- The first result is the same on both sides, so that the second pieces start alike.
    obtain ⟨j, y, first', hj, hy⟩ := ha first
    cases hy
    obtain ⟨j', z, second', hj', hz⟩ := hb second
    exact ⟨j + j', z, .passed first' second', hL hj hj', hz⟩
  | halted first =>
    obtain ⟨j, y, first', hj, hy⟩ := ha first
    cases hy with
    | halted hs => exact ⟨j, _, .halted first', hj, .halted hs⟩

/-- **A loop** is matched by a loop if its body is. -/
theorem iterated (rules : Rules) (h : a.Matched L Q a') (hQ : ∀ s, Q s s) (hL : ∀ k, L k k)
    (hadd : ∀ {k j k' j'}, L k j → L k' j' → L (k + k') (j + j')) :
    Matched L Q (While rules a) (While rules a') := by
  have hround : Matched L Q (Seq a (One rules (.single .loopEnd)))
      (Seq a' (One rules (.single .loopEnd))) := h.seq (.refl hQ hL _) hadd
  intro m k x hx
  -- Induction on the evaluation: each round has its match, after which both test the same cell.
  induction hx with
  | exit zero => exact ⟨0, _, .exit zero, hL 0, .passed _⟩
  | again nonzero round rest ih =>
    obtain ⟨j, y, round', hj, hy⟩ := hround round
    cases hy
    obtain ⟨j', z, rest', hj', hz⟩ := ih
    exact ⟨j + j', z, .again nonzero round' rest', hadd hj hj', hz⟩
  | halted nonzero round =>
    obtain ⟨j, y, round', hj, hy⟩ := hround round
    cases hy with
    | halted hs => exact ⟨j, _, .halted nonzero round', hj, .halted hs⟩

end Meaning.Matched

/-! ## Improving parts -/

namespace Improvement

variable {a b c a' b' : Meaning w}

theorem refl (hQ : ∀ s, Q s s) (a : Meaning w) : Improvement Q a a where
  forth := .refl (L := (· ≥ ·)) hQ Nat.le_refl a
  back := .refl (L := (· ≤ ·)) (Q := flip Q) hQ Nat.le_refl a

theorem trans (hQ : ∀ {s t u}, Q s t → Q t u → Q s u) (h : Improvement Q a b)
    (h' : Improvement Q b c) : Improvement Q a c where
  forth := h.forth.trans h'.forth hQ fun hj hi => Nat.le_trans hi hj
  back := h'.back.trans h.back (fun hst htu => hQ htu hst) fun hi hj => Nat.le_trans hi hj

/-- The results of an improvement may be related more loosely. -/
theorem mono {Q' : Halt × Machine w → Halt × Machine w → Prop} (hQ : ∀ {s t}, Q s t → Q' s t)
    (h : Improvement Q a b) : Improvement Q' a b where
  forth := h.forth.mono hQ
  back := h.back.mono hQ

/-- Between meanings that come to one thing only it is enough to find what they come to. -/
theorem of_functional (ha : a.Functional) (hb : b.Functional)
    (h : ∀ m, ∃ k x j y, a m k x ∧ b m j y ∧ j ≤ k ∧ Result.Rel Q x y) : Improvement Q a b where
  forth := by
    intro m k x hx
    obtain ⟨k', x', j, y, hx', hy, hj, hxy⟩ := h m
    obtain ⟨rfl, rfl⟩ := ha hx hx'
    exact ⟨j, y, hy, hj, hxy⟩
  back := by
    intro m j y hy
    obtain ⟨k, x, j', y', hx, hy', hj, hxy⟩ := h m
    obtain ⟨rfl, rfl⟩ := hb hy hy'
    exact ⟨k, x, hx, hj, hxy.flip⟩

/-- Between an instruction and a piece that begins with another one, both are cut short at once if
they are to stop, so that it is enough to look at machines on which they are not. -/
theorem of_one (hQ : ∀ s, Q s s) {i i' : Instruction} (ha : a.Functional)
    (h : ∀ m, rules.stops m = false → ∃ k x j y, Meaning.Seq (Meaning.One rules i) a m k x ∧
      Meaning.One rules i' m j y ∧ j ≤ k ∧ Result.Rel Q x y) :
    Improvement Q (Meaning.Seq (Meaning.One rules i) a) (Meaning.One rules i') := by
  refine .of_functional ((Meaning.functional_one _ _).seq ha) (Meaning.functional_one _ _) ?_
  intro m
  cases hs : rules.stops m with
  | true =>
    exact ⟨0, _, 0, _, .halted (.cancelled hs), .cancelled hs, Nat.le_refl 0, .halted (hQ _)⟩
  | false => exact h m hs

/-- **Improving two pieces in a row.** -/
theorem seq (ha : Improvement Q a a') (hb : Improvement Q b b') :
    Improvement Q (Meaning.Seq a b) (Meaning.Seq a' b') where
  forth := ha.forth.seq hb.forth fun h h' => Nat.add_le_add h h'
  back := ha.back.seq hb.back fun h h' => Nat.add_le_add h h'

/-- **Improving the body of a loop.** -/
theorem iterated (hQ : ∀ s, Q s s) (h : Improvement Q a a') :
    Improvement Q (Meaning.While rules a) (Meaning.While rules a') where
  forth := h.forth.iterated rules hQ (fun _ => Nat.le_refl _) fun h h' => Nat.add_le_add h h'
  back := h.back.iterated rules hQ (fun _ => Nat.le_refl _) fun h h' => Nat.add_le_add h h'

end Improvement

/-! ## Improving programs -/

/-- **The runs of `fast` improve on those of `slow`** from this machine: a run of the one ends if
and only if a run of the other does, and within as many rounds, which are one for each executed
instruction; then their endings and last states are related by `R`. -/
structure Program.ImprovedBy (R : Ending × Run w → Ending × Run w → Prop) (slow fast : Program)
    (rules : Rules) (m : Machine w) : Prop where
  forth : ∀ {rounds x}, (Run.start m).toEnd slow rules rounds = some x →
    ∃ y, (Run.start m).toEnd fast rules rounds = some y ∧ R x y
  back : ∀ {rounds y}, (Run.start m).toEnd fast rules rounds = some y →
    ∃ more x, (Run.start m).toEnd slow rules more = some x ∧ R x y

/-- Endings that are related as the results are that belong to them, the second after no more
executed instructions. -/
def Run.ImprovedEnd (Q : Halt × Machine w → Halt × Machine w → Prop) (x y : Ending × Run w) :
    Prop :=
  Result.Rel Q (x.1.result x.2.machine) (y.1.result y.2.machine) ∧ y.2.executed ≤ x.2.executed

/-- **Programs improve as their blocks do.** -/
theorem Improvement.improvedBy {slow fast : Program} {b c : Block} {m : Machine w}
    (hb : slow.instructions.toList = b.code) (hc : fast.instructions.toList = c.code)
    (h : Improvement Q (b.Evaluates rules) (c.Evaluates rules)) :
    slow.ImprovedBy (Run.ImprovedEnd Q) fast rules m where
  forth := by
    rintro rounds ⟨ending, last⟩ hx
    obtain ⟨k, hk, hends⟩ := Run.toEnd_eq_some_iff.mp hx
    -- The run is an evaluation of its block, which has its match, which is a run again.
    obtain ⟨j, y, hy, hj, hrel⟩ :=
      h.forth ((Block.evaluates_iff_endsAfter hb).mpr ⟨ending, last, hends, rfl⟩)
    obtain ⟨ending', last', hends', rfl⟩ := (Block.evaluates_iff_endsAfter hc).mp hy
    refine ⟨(ending', last'),
      Run.toEnd_eq_some_iff.mpr ⟨j, Nat.lt_of_le_of_lt hj hk, hends'⟩, hrel, ?_⟩
    rw [hends.executed, hends'.executed]
    exact Nat.add_le_add_left hj _
  back := by
    rintro rounds ⟨ending, last⟩ hy
    obtain ⟨j, hj, hends⟩ := Run.toEnd_eq_some_iff.mp hy
    obtain ⟨k, x, hx, hk, hrel⟩ :=
      h.back ((Block.evaluates_iff_endsAfter hc).mpr ⟨ending, last, hends, rfl⟩)
    obtain ⟨ending', last', hends', rfl⟩ := (Block.evaluates_iff_endsAfter hb).mp hx
    refine ⟨k + 1, (ending', last'),
      Run.toEnd_eq_some_iff.mpr ⟨k, Nat.lt_succ_self k, hends'⟩, hrel.flip, ?_⟩
    rw [hends.executed, hends'.executed]
    exact Nat.add_le_add_left hk _

theorem Program.ImprovedBy.mono {R R' : Ending × Run w → Ending × Run w → Prop}
    {slow fast : Program} {m : Machine w} (h : slow.ImprovedBy R fast rules m)
    (hR : ∀ {x y}, (∃ rounds, (Run.start m).toEnd slow rules rounds = some x) →
      (∃ rounds, (Run.start m).toEnd fast rules rounds = some y) → R x y → R' x y) :
    slow.ImprovedBy R' fast rules m where
  forth := by
    intro rounds x hx
    obtain ⟨y, hy, hxy⟩ := h.forth hx
    exact ⟨y, hy, hR ⟨_, hx⟩ ⟨_, hy⟩ hxy⟩
  back := by
    intro rounds y hy
    obtain ⟨more, x, hx, hxy⟩ := h.back hy
    exact ⟨more, x, hx, hR ⟨_, hx⟩ ⟨_, hy⟩ hxy⟩

/-! ## The same end -/

/-- Two reports are the same, up to where a cancelled run stood and to how many instructions were
executed, of which the second counts no more. -/
inductive Execution.SameReport : Except RunError Outcome → Except RunError Outcome → Prop
  | finished {k j : Nat} (le : j ≤ k) : SameReport (.ok ⟨.finished, k⟩) (.ok ⟨.finished, j⟩)
  | cancelled {pc pc' k j : Nat} (le : j ≤ k) :
      SameReport (.ok ⟨.cancelled pc, k⟩) (.ok ⟨.cancelled pc', j⟩)
  | error (e : RunError) : SameReport (.error e) (.error e)

/-- **Two runs come to the same end**, the second after no more executed instructions: they are
reported in the same way, and leave the same machine behind once the output is flushed. -/
structure Run.SameEnd (x y : Ending × Run w) : Prop where
  report : Execution.SameReport (Execution.close x.1 x.2).result (Execution.close y.1 y.2).result
  machine_eq : (Execution.close y.1 y.2).machine = (Execution.close x.1 x.2).machine
  executed_le : y.2.executed ≤ x.2.executed

theorem Result.sameReport (x : Result w) (pc pc' : Nat) {j k : Nat} (hk : j ≤ k)
    (refusal : Option String) :
    Execution.SameReport (Execution.report (x.ending pc) k refusal)
      (Execution.report (x.ending pc') j refusal) := by
  rcases x with m | ⟨_ | e, m⟩ <;> cases refusal
  · exact .finished hk
  · exact .error _
  · exact .cancelled hk
  · exact .error _
  · exact .error _
  · exact .error _

theorem Run.sameEnd_of_result_eq {x y : Ending × Run w}
    (h : x.1.result x.2.machine = y.1.result y.2.machine) (hk : y.2.executed ≤ x.2.executed) :
    SameEnd x y := by
  generalize hz : y.1.result y.2.machine = z at h
  obtain ⟨hm, pc, hpc⟩ := Ending.result_eq_iff.mp h
  obtain ⟨hm', pc', hpc'⟩ := Ending.result_eq_iff.mp hz
  have hmachine : y.2.machine = x.2.machine := by rw [hm, hm']
  refine ⟨?_, ?_, hk⟩
  · show Execution.SameReport (Execution.report x.1 x.2.executed x.2.machine.output.flush.failure)
      (Execution.report y.1 y.2.executed y.2.machine.output.flush.failure)
    rw [hmachine, hpc, hpc']
    exact z.sameReport pc pc' hk _
  · exact congrArg Machine.flush hmachine

theorem Run.ImprovedEnd.sameEnd {x y : Ending × Run w} (h : ImprovedEnd Eq x y) : SameEnd x y :=
  sameEnd_of_result_eq h.1.eq h.2

end Brainfuck
