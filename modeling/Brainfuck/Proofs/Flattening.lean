import Brainfuck.Proofs.Evaluation

/-!
# Flat runs evaluate blocks

A run knows nothing of the tree of its program: it follows indices and jumps. It nevertheless comes
to what the tree means. The proof goes along the tree. A part of the program is described by a
meaning if a run that enters the part leaves it as the meaning says, and if the meaning comes to
something whenever the run ends. After a loop bracket the run is where the test of the current cell
takes it, at the body or past the loop; this is the same for both brackets, and it is what makes the
loop an iteration.

## Main definitions

* `Ending.result`, `Result.ending`: the result that belongs to the ending of a run, and back
* `Block.LiesAt`: a block lies in a program at an index
* `ListAt`: a list lies in an array from an index on
* `Meaning.Describes`: a meaning describes a part of a program
* `Execution.Settles`: an execution reports a result

## Main results

* `Meaning.Describes.seq`, `Meaning.Describes.iterated`: parts in a row, and iterated parts
* `Block.LiesAt.describes`: a block describes the part of the program where it lies
* `Block.evaluates_iff_endsAfter`: a run ends exactly as the evaluation does
* `Program.execute_refines_evaluation`: a program is executed as its tree is evaluated
-/

namespace Brainfuck

variable {w : Width} {p : Program} {rules : Rules}

/-- The result that belongs to a run that ends on this machine. -/
def Ending.result (m : Machine w) : Ending → Result w
  | .completed .finished => .passed m
  | .completed (.cancelled _) => .halted .cancelled m
  | .failed e => .halted (.failed e) m

namespace Result

/-- The machine at the end. -/
def machine : Result w → Machine w
  | passed m => m
  | halted _ m => m

/-- The ending of a run with this result, which stood at `pc` if it was cancelled. -/
def ending (pc : Nat) : Result w → Ending
  | passed _ => .completed .finished
  | halted .cancelled _ => .completed (.cancelled pc)
  | halted (.failed e) _ => .failed e

end Result

theorem Ending.result_eq_iff {ending : Ending} {m : Machine w} {x : Result w} :
    ending.result m = x ↔ m = x.machine ∧ ∃ pc, ending = x.ending pc := by
  constructor
  · rintro rfl
    rcases ending with ⟨_ | pc⟩ | e
    · exact ⟨rfl, 0, rfl⟩
    · exact ⟨rfl, pc, rfl⟩
    · exact ⟨rfl, 0, rfl⟩
  · rintro ⟨rfl, pc, rfl⟩
    rcases x with m | ⟨_ | e, m⟩ <;> rfl

@[simp]
theorem Ending.machine_result (ending : Ending) (m : Machine w) :
    (ending.result m).machine = m := by
  rcases ending with ⟨_ | pc⟩ | e <;> rfl

/-- Results that are the same belong to runs that fail in the same way. -/
theorem Ending.eq_failed_iff_of_result_eq {ending ending' : Ending} {m m' : Machine w}
    (h : ending.result m = ending'.result m') (e : RunError) :
    ending = .failed e ↔ ending' = .failed e := by
  obtain ⟨-, pc, rfl⟩ := Ending.result_eq_iff.mp h
  rcases ending' with ⟨_ | pc'⟩ | e' <;> simp [result, Result.ending]

/-! ## Where a block lies -/

/-- A block lies in a program at an index: its instructions, and the jumps of its brackets. -/
def Block.LiesAt (p : Program) : Nat → Block → Prop
  | _, .nil => True
  | base, .step i _ rest => p.instructions[base]? = some i ∧ rest.LiesAt p (base + 1)
  | base, .loop body rest =>
    (p.instructions[base]? = some (.single .loopStart) ∧
      p.jumps.target? base = some (base + 1 + body.size)) ∧
    body.LiesAt p (base + 1) ∧
    (p.instructions[base + 1 + body.size]? = some (.single .loopEnd) ∧
      p.jumps.target? (base + 1 + body.size) = some base) ∧
    rest.LiesAt p (base + 1 + body.size + 1)

/-- A list lies in an array from an index on. -/
def ListAt {α : Type} (array : Array α) (base : Nat) (xs : List α) : Prop :=
  ∀ k < xs.length, array[base + k]? = xs[k]?

namespace ListAt

variable {α : Type} {array : Array α} {base : Nat} {x : α} {xs ys : List α}

theorem of_toList_eq (h : array.toList = xs) : ListAt array 0 xs := by
  intro k _
  rw [Nat.zero_add, ← h, Array.getElem?_toList]

theorem head (h : ListAt array base (x :: xs)) : array[base]? = some x :=
  h 0 (Nat.succ_pos _)

theorem tail (h : ListAt array base (x :: xs)) : ListAt array (base + 1) xs := by
  intro k hk
  rw [Nat.add_assoc, Nat.add_comm 1, h (k + 1) (Nat.succ_lt_succ hk), List.getElem?_cons_succ]

theorem left (h : ListAt array base (xs ++ ys)) : ListAt array base xs := by
  intro k hk
  have hlt : k < (xs ++ ys).length := List.length_append ▸ Nat.lt_add_right _ hk
  rw [h k hlt, List.getElem?_append_left hk]

theorem right (h : ListAt array base (xs ++ ys)) : ListAt array (base + xs.length) ys := by
  intro k hk
  have hlt : xs.length + k < (xs ++ ys).length :=
    List.length_append ▸ Nat.add_lt_add_left hk _
  rw [Nat.add_assoc, h _ hlt, List.getElem?_append_right (Nat.le_add_right _ _),
    Nat.add_sub_cancel_left]

end ListAt

/-- A block lies where its code and its jumps are listed. -/
theorem Block.liesAt_of_listAt (b : Block) {base : Nat} (hc : ListAt p.instructions base b.code)
    (ht : ListAt p.jumps.targets base (b.targets base)) : b.LiesAt p base := by
  induction b generalizing base with
  | nil => trivial
  | step i plain rest ih => exact ⟨hc.head, ih hc.tail ht.tail⟩
  | loop body rest ihb ihr =>
    -- The body lies behind the loop start, and the loop end and the rest behind the body.
    have hc' := hc.tail.right
    have ht' := ht.tail.right
    rw [length_targets] at ht'
    exact ⟨⟨hc.head, ht.head⟩, ihb hc.tail.left ht.tail.left, ⟨hc'.head, ht'.head⟩,
      ihr hc'.tail ht'.tail⟩

/-- **A program that is the text of a block** holds the block at its start. -/
theorem Block.liesAt_of_code {b : Block} (h : p.instructions.toList = b.code) :
    b.LiesAt p 0 := by
  have hr := p.resolved
  rw [h, Block.resolve_code] at hr
  have ht : p.jumps.targets.toList = b.targets 0 := by rw [← Except.ok.inj hr]
  exact b.liesAt_of_listAt (.of_toList_eq h) (.of_toList_eq ht)

/-! ## Runs that come to a result -/

namespace Run

/-- A run comes to a result after `k` executed instructions. If that result lets it go on, then at
the index `exit` of the machine. -/
inductive ComesTo (p : Program) (rules : Rules) (exit : Machine w → Nat) (r : Run w) :
    Nat → Result w → Prop
  | passed {k : Nat} {r' : Run w} (steps : Steps p rules k r r')
      (hpc : r'.pc = exit r'.machine) : ComesTo p rules exit r k (.passed r'.machine)
  | halted {k : Nat} {ending : Ending} {last : Run w} {why : Halt} {m : Machine w}
      (ends : r.EndsAfter p rules k ending last) (hx : ending.result last.machine = .halted why m) :
      ComesTo p rules exit r k (.halted why m)

variable {r r' : Run w} {exit : Machine w → Nat} {j k : Nat} {x : Result w}

theorem Steps.comesTo (h : Steps p rules j r r') (h' : r'.ComesTo p rules exit k x) :
    r.ComesTo p rules exit (j + k) x := by
  cases h' with
  | passed steps hpc => exact .passed (h.trans steps) hpc
  | halted ends hx => exact .halted (h.endsAfter ends) hx

/-- A run that still ends within some rounds after `k` of them has that many left. -/
theorem Steps.isSome_toEnd {rounds : Nat} (h : Steps p rules k r r')
    (he : (r.toEnd p rules rounds).isSome) : ∃ more, rounds = more + k ∧
      (r'.toEnd p rules more).isSome := by
  -- If there are at least `k` rounds, the others are left.
  by_cases hk : k ≤ rounds
  · refine ⟨rounds - k, by omega, ?_⟩
    rwa [← h.toEnd_add, Nat.sub_add_cancel hk]
  · -- Otherwise `k` rounds would end the run, and they do not.
    obtain ⟨x, hx⟩ := Option.isSome_iff_exists.mp he
    have hn : r.toEnd p rules (0 + k) = none := h.toEnd_add 0
    have hs := Run.toEnd_add hx (k - rounds)
    rw [show rounds + (k - rounds) = 0 + k by omega, hn] at hs
    cases hs

theorem comesTo_of_one {i : Instruction} (h : p.instructions[r.pc]? = some i)
    (hn : ∀ m, rules.stops r.machine = false → Meaning.One rules i r.machine 1 (.passed m) →
      r.next? p i = some (exit m))
    (hx : Meaning.One rules i r.machine k x) : r.ComesTo p rules exit k x := by
  cases hx with
  | cancelled asked => exact .halted ⟨r, .refl r, advance_of_stops h asked⟩ rfl
  | @done m event goes he =>
    have ha := advance_of_done h goes he (hn m goes (.done goes he))
    exact .passed (Steps.single ha) rfl
  | failed goes he => exact .halted ⟨r, .refl r, advance_of_failed h goes he⟩ rfl

end Run

/-! ## Meanings that describe a part of a program -/

namespace Meaning

/-- A meaning describes the part of a program between the indices `entry` and `exit`: a run that
enters the part comes to what the meaning says, and the meaning says something if the run ends. -/
structure Describes (p : Program) (rules : Rules) (entry exit : Machine w → Nat) (a : Meaning w) :
    Prop where
  comesTo : ∀ {r : Run w} {k : Nat} {x : Result w}, r.pc = entry r.machine → a r.machine k x →
    r.ComesTo p rules exit k x
  total : ∀ {r : Run w} {rounds : Nat}, r.pc = entry r.machine →
    (r.toEnd p rules rounds).isSome → ∃ k x, a r.machine k x

namespace Describes

variable {entry middle exit : Machine w → Nat} {a b : Meaning w}

theorem skip : Describes p rules entry entry (skip : Meaning w) where
  comesTo := by
    rintro r k x hr ⟨rfl, rfl⟩
    exact .passed (.refl r) hr
  total := fun _ _ => ⟨_, _, rfl, rfl⟩

/-- **Parts in a row** are described by meanings in a row. -/
theorem seq (ha : Describes p rules entry middle a) (hb : Describes p rules middle exit b) :
    Describes p rules entry exit (Seq a b) where
  comesTo := by
    intro r k x hr h
    -- Where the first part lets the run go on, the second part is entered.
    cases h with
    | passed first second =>
      cases ha.comesTo hr first with
      | passed steps hpc => exact steps.comesTo (hb.comesTo hpc second)
    | halted first =>
      cases ha.comesTo hr first with
      | halted ends hx => exact .halted ends hx
  total := by
    intro r rounds hr he
    -- The run ends, so that the first part comes to something, and from there it still ends.
    obtain ⟨j, y, first⟩ := ha.total hr he
    cases y with
    | halted why m => exact ⟨j, _, .halted first⟩
    | passed m =>
      cases ha.comesTo hr first with
      | passed steps hpc =>
        obtain ⟨more, -, he'⟩ := steps.isSome_toEnd he
        obtain ⟨k, x, second⟩ := hb.total hpc he'
        exact ⟨j + k, x, .passed first second⟩

/-- The part that is one instruction. -/
theorem one {i : Instruction} (h : ∀ m, p.instructions[entry m]? = some i)
    (hn : ∀ (r : Run w) m, r.pc = entry r.machine → rules.stops r.machine = false →
      One rules i r.machine 1 (.passed m) → r.next? p i = some (exit m)) :
    Describes p rules entry exit (One rules i) where
  comesTo := by
    intro r k x hr hx
    have hi : p.instructions[r.pc]? = some i := by
      rw [hr]
      exact h _
    exact Run.comesTo_of_one hi (fun m => hn r m hr) hx
  total := fun _ _ => One.total _ _ _

/-- **An iterated part.** If the body with its loop end leads from the body's start to where the
test of the cell takes the run, then so does any number of rounds, and past the loop in the end. -/
theorem iterated {start after : Nat}
    (hbody : Describes p rules (fun _ => start) (fun m => if m.tape.isZero then after else start)
      (Seq a (One rules (.single .loopEnd)))) :
    Describes p rules (fun m : Machine w => if m.tape.isZero then after else start)
      (fun _ => after) (While rules a) where
  comesTo := by
    intro r k x hr h
    generalize hm : r.machine = m at h
    -- Induction on the evaluation: every round leaves the run where the next test takes it.
    induction h generalizing r with
    | exit zero =>
      subst hm
      rw [if_pos zero] at hr
      exact .passed (.refl r) hr
    | again nonzero round rest ih =>
      subst hm
      rw [if_neg (by simp [nonzero])] at hr
      cases hbody.comesTo hr round with
      | passed steps hpc => exact steps.comesTo (ih hpc rfl)
    | halted nonzero round =>
      subst hm
      rw [if_neg (by simp [nonzero])] at hr
      cases hbody.comesTo hr round with
      | halted ends hx => exact .halted ends hx
  total := by
    intro r rounds hr he
    -- Every round of the body uses up a round of the run, for its loop end at least.
    induction rounds using Nat.strongRecOn generalizing r with
    | ind rounds ih =>
      cases hz : r.machine.tape.isZero with
      | true => exact ⟨_, _, .exit hz⟩
      | false =>
        rw [if_neg (by simp [hz])] at hr
        obtain ⟨j, y, round⟩ := hbody.total hr he
        cases y with
        | halted why m => exact ⟨_, _, .halted hz round⟩
        | passed m =>
          have hj : 0 < j := by
            cases round with
            | passed first last =>
              obtain ⟨rfl, -⟩ := last.eq_of_isBracket (Or.inr rfl)
              exact Nat.succ_pos _
          cases hbody.comesTo hr round with
          | passed steps hpc =>
            obtain ⟨more, hmore, he'⟩ := steps.isSome_toEnd he
            obtain ⟨k, x, rest⟩ := ih more (by omega) hpc he'
            exact ⟨_, _, .again hz round rest⟩

/-- The part that is a loop bracket, which leads to where the test of the cell takes the run. -/
theorem bracket {i : Instruction} {at_ start after : Nat} (hop : i.op.IsBracket)
    (h : p.instructions[at_]? = some i)
    (hn : ∀ r : Run w, r.pc = at_ →
      r.next? p i = some (if r.machine.tape.isZero then after else start)) :
    Describes p rules (fun _ => at_) (fun m : Machine w => if m.tape.isZero then after else start)
      (One rules i) := by
  refine one (fun _ => h) ?_
  intro r m hr _ hx
  obtain ⟨-, rfl⟩ := hx.eq_of_isBracket hop
  exact hn r hr

end Describes

end Meaning

/-! ## Blocks -/

namespace Block

/-- **A block describes the part of the program where it lies.** -/
theorem LiesAt.describes {b : Block} {base : Nat} (h : b.LiesAt p base) :
    Meaning.Describes p rules (fun _ : Machine w => base) (fun _ => base + b.size)
      (b.Evaluates rules) := by
  induction b generalizing base with
  | nil => exact .skip
  | step i plain rest ih =>
    obtain ⟨hi, hrest⟩ := h
    have hone : Meaning.Describes p rules (fun _ : Machine w => base) (fun _ => base + 1)
        (Meaning.One rules i) := by
      refine .one (fun _ => hi) ?_
      intro r m hr _ _
      rw [Run.next?_of_not_isBracket plain, hr]
    have hafter := ih hrest
    rw [Nat.add_right_comm] at hafter
    exact hone.seq hafter
  | loop body rest ihb ihr =>
    obtain ⟨⟨hs, hts⟩, hbody, ⟨he, hte⟩, hrest⟩ := h
    -- Both brackets lead to the body if the cell is not zero, and past the loop if it is.
    have hstart : Meaning.Describes p rules (fun _ : Machine w => base)
        (fun m => if m.tape.isZero then base + 1 + body.size + 1 else base + 1)
        (Meaning.One rules (.single .loopStart)) := by
      refine .bracket (Or.inl rfl) hs ?_
      intro r hr
      simp only [Run.next?, Run.jumps, Instruction.single, hr, hts]
      cases r.machine.tape.isZero <;> rfl
    have hend : Meaning.Describes p rules (fun _ : Machine w => base + 1 + body.size)
        (fun m => if m.tape.isZero then base + 1 + body.size + 1 else base + 1)
        (Meaning.One rules (.single .loopEnd)) := by
      refine .bracket (Or.inr rfl) he ?_
      intro r hr
      simp only [Run.next?, Run.jumps, Instruction.single, hr, hte]
      cases r.machine.tape.isZero <;> rfl
    -- The loop start, the iterated rounds and what follows lie in a row.
    have hround := (ihb hbody).seq hend
    have hafter := ihr hrest
    rw [show base + 1 + body.size + 1 + rest.size = base + (loop body rest).size by
      rw [size_loop]; omega] at hafter
    exact hstart.seq (hround.iterated.seq hafter)

/-- **A run ends exactly as the evaluation of its block does**, on the same machine and after as
many executed instructions. -/
theorem evaluates_iff_endsAfter {b : Block} (h : p.instructions.toList = b.code) {m : Machine w}
    {k : Nat} {x : Result w} :
    b.Evaluates rules m k x ↔
      ∃ ending last, (Run.start m).EndsAfter p rules k ending last ∧
        ending.result last.machine = x := by
  have hb : Meaning.Describes p rules (fun _ : Machine w => 0) (fun _ => 0 + b.size)
      (b.Evaluates rules) := (liesAt_of_code h).describes
  have hend : p.instructions[0 + b.size]? = none := by
    rw [Nat.zero_add, size, ← h, ← Array.getElem?_toList]
    exact List.getElem?_eq_none (Nat.le_refl _)
  have forward : ∀ {j y}, b.Evaluates rules m j y → ∃ ending last,
      (Run.start m).EndsAfter p rules j ending last ∧ ending.result last.machine = y := by
    intro j y hy
    -- A run that comes through the block stands behind the last instruction, and ends there.
    cases hb.comesTo (r := Run.start m) rfl hy with
    | @passed r' steps hpc =>
      exact ⟨_, r', ⟨r', steps, Run.advance_of_none (by rw [hpc, hend])⟩, rfl⟩
    | halted ends hx => exact ⟨_, _, ends, hx⟩
  constructor
  · exact forward
  · rintro ⟨ending, last, hends, rfl⟩
    -- The evaluation comes to something, since the run ends, and to what the run ends in.
    have he : ((Run.start m).toEnd p rules (k + 1)).isSome := by
      rw [Run.toEnd_eq_some_iff.mpr ⟨k, Nat.lt_succ_self k, hends⟩]
      rfl
    obtain ⟨j, y, hy⟩ := hb.total (r := Run.start m) rfl he
    obtain ⟨ending', last', hends', rfl⟩ := forward hy
    obtain ⟨rfl, rfl, rfl⟩ := hends.unique hends'
    exact hy

end Block

/-! ## Executing a program -/

/-- An execution settles on the result of an evaluation that executed `k` instructions: its report
is that of the result, and its machine that of the result with the output flushed. -/
def Execution.Settles (x : Execution w) (k : Nat) (y : Result w) : Prop :=
  (∃ pc, x.result = report (y.ending pc) k y.machine.output.flush.failure) ∧
    x.machine = y.machine.flush

theorem Run.EndsAfter.settles {m : Machine w} {k : Nat} {ending : Ending} {last : Run w}
    (h : (Run.start m).EndsAfter p rules k ending last) :
    (Execution.close ending last).Settles k (ending.result last.machine) := by
  generalize hx : ending.result last.machine = x
  obtain ⟨hm, pc, hpc⟩ := Ending.result_eq_iff.mp hx
  have hk : last.executed = k := h.executed.trans (Nat.zero_add k)
  refine ⟨⟨pc, ?_⟩, ?_⟩
  · rw [← hm, ← hpc, ← hk]
    rfl
  · rw [← hm]
    rfl

/-- **A program is executed as its tree is evaluated.** Its instructions have a tree; every
execution settles on what the tree evaluates to, and to everything that the tree evaluates to there
is an execution that settles on it. -/
theorem Program.execute_refines_evaluation (p : Program) (rules : Rules) (m : Machine w) :
    ∃ b, Block.parse? p.instructions.toList = some b ∧
      (∀ rounds x, p.execute rules rounds m = some x →
        ∃ k y, b.Evaluates rules m k y ∧ x.Settles k y) ∧
      ∀ k y, b.Evaluates rules m k y →
        ∃ rounds x, p.execute rules rounds m = some x ∧ x.Settles k y := by
  obtain ⟨b, hb⟩ := Block.exists_parse?_of_resolve p.resolved
  have hcode : p.instructions.toList = b.code := (Block.parse?_eq_some_iff.mp hb).symm
  refine ⟨b, hb, ?_, ?_⟩
  -- An execution is a run that ends, with its output flushed.
  · intro rounds x hx
    obtain ⟨⟨ending, last⟩, hend, rfl⟩ := Option.map_eq_some_iff.mp hx
    obtain ⟨k, -, hends⟩ := Run.toEnd_eq_some_iff.mp hend
    exact ⟨k, _, (Block.evaluates_iff_endsAfter hcode).mpr ⟨ending, last, hends, rfl⟩,
      hends.settles⟩
  · intro k y hy
    obtain ⟨ending, last, hends, rfl⟩ := (Block.evaluates_iff_endsAfter hcode).mp hy
    have hend := Run.toEnd_eq_some_iff.mpr ⟨k, Nat.lt_succ_self k, hends⟩
    refine ⟨k + 1, Execution.close ending last, ?_, hends.settles⟩
    rw [execute, hend]
    rfl

end Brainfuck
