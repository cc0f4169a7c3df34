import Brainfuck.Proofs.Block
import Brainfuck.Proofs.Steps

/-!
# The meaning of a block

A block is evaluated along its tree, without indices or jumps: a loop evaluates its body as long as
the current cell is not zero. Instructions are counted as a run counts them, a loop start once and
a loop end once for every round of the body. Before each instruction, the brackets included, an
evaluation can be asked to stop. An evaluation need not end: then it comes to nothing.

## Main definitions

* `Result`: what an evaluation comes to
* `Meaning`: what a piece of a program comes to, from any machine
* `Meaning.One`, `Meaning.Seq`, `Meaning.While`: an instruction, two pieces in a row, and a loop
  after its start
* `Block.Evaluates`: the meaning of a block

## Main results

* `Meaning.One.total`: an instruction always comes to something
* `Block.functional_evaluates`: a block comes to one thing only
* `Meaning.seq_assoc`, `Meaning.seq_skip`: pieces in a row need no parentheses
-/

namespace Brainfuck

/-- Why an evaluation is cut short. -/
inductive Halt
  /-- It was asked to stop. -/
  | cancelled
  /-- An instruction failed. -/
  | failed (e : RunError)
  deriving DecidableEq, Repr

/-- What an evaluation comes to. -/
inductive Result (w : Width)
  /-- It comes to its end, with this machine. -/
  | passed (m : Machine w)
  /-- It is cut short at this machine. -/
  | halted (why : Halt) (m : Machine w)

/-- What a piece of a program comes to from a machine, and how many instructions are executed. -/
abbrev Meaning (w : Width) :=
  Machine w → Nat → Result w → Prop

variable {w : Width}

namespace Meaning

/-- Nothing is done. -/
def skip : Meaning w :=
  fun m k x => k = 0 ∧ x = .passed m

/-- One instruction, unless the evaluation is to stop before it. -/
inductive One (rules : Rules) (i : Instruction) : Machine w → Nat → Result w → Prop
  | cancelled {m : Machine w} (asked : rules.stops m = true) : One rules i m 0 (.halted .cancelled m)
  | done {m m' : Machine w} {event : Option Event} (goes : rules.stops m = false)
      (h : m.exec rules.policy i = .done m' event) : One rules i m 1 (.passed m')
  | failed {m m' : Machine w} {e : RunError} (goes : rules.stops m = false)
      (h : m.exec rules.policy i = .failed m' e) : One rules i m 0 (.halted (.failed e) m')

/-- One piece after the other. -/
inductive Seq (a b : Meaning w) : Machine w → Nat → Result w → Prop
  | passed {m m' : Machine w} {j k : Nat} {x : Result w} (first : a m j (.passed m'))
      (second : b m' k x) : Seq a b m (j + k) x
  | halted {m m' : Machine w} {k : Nat} {why : Halt} (first : a m k (.halted why m')) :
      Seq a b m k (.halted why m')

/-- The body of a loop and the loop end after it, as long as the current cell is not zero. -/
inductive While (rules : Rules) (body : Meaning w) : Machine w → Nat → Result w → Prop
  | exit {m : Machine w} (zero : m.tape.isZero = true) : While rules body m 0 (.passed m)
  | again {m m' : Machine w} {j k : Nat} {x : Result w} (nonzero : m.tape.isZero = false)
      (round : Seq body (One rules (.single .loopEnd)) m j (.passed m'))
      (rest : While rules body m' k x) : While rules body m (j + k) x
  | halted {m m' : Machine w} {k : Nat} {why : Halt} (nonzero : m.tape.isZero = false)
      (round : Seq body (One rules (.single .loopEnd)) m k (.halted why m')) :
      While rules body m k (.halted why m')

end Meaning

/-- **The meaning of a block.** A loop is its loop start, then its body for as long as the current
cell is not zero, and then what follows it. -/
def Block.Evaluates (rules : Rules) : Block → Meaning w
  | .nil => Meaning.skip
  | .step i _ rest => Meaning.Seq (Meaning.One rules i) (rest.Evaluates rules)
  | .loop body rest =>
    Meaning.Seq (Meaning.One rules (.single .loopStart))
      (Meaning.Seq (Meaning.While rules (body.Evaluates rules)) (rest.Evaluates rules))

/-! ## Instructions that change the current cell -/

namespace Instruction

/-- The instruction `i` changes the current cell by `f` and does nothing else. -/
def Modifies (policy : BoundsPolicy) (i : Instruction) (f : Cell w → Cell w) : Prop :=
  ∀ m : Machine w, m.exec policy i = .done { m with tape := m.tape.modify f } none

variable {i : Instruction}

theorem modifies_of_inc (policy : BoundsPolicy) (h : i.op = .inc) :
    i.Modifies (w := w) policy (Cell.increase · i.count) := by
  intro m
  rw [Machine.exec, h]
  rfl

theorem modifies_of_dec (policy : BoundsPolicy) (h : i.op = .dec) :
    i.Modifies (w := w) policy (Cell.decrease · i.count) := by
  intro m
  rw [Machine.exec, h]
  rfl

theorem modifies_of_clear (policy : BoundsPolicy) (h : i.op = .clear) :
    i.Modifies (w := w) policy fun _ => 0 := by
  intro m
  rw [Machine.exec, h]
  rfl

end Instruction

namespace Meaning

/-! ## One instruction -/

variable {rules : Rules} {i : Instruction} {a b c : Meaning w} {m m' : Machine w} {k : Nat}
  {x : Result w}

/-- An instruction always comes to something. -/
theorem One.total (rules : Rules) (i : Instruction) (m : Machine w) :
    ∃ k x, One rules i m k x := by
  cases hs : rules.stops m with
  | true => exact ⟨_, _, .cancelled hs⟩
  | false =>
    cases he : m.exec rules.policy i with
    | done m' event => exact ⟨_, _, .done hs he⟩
    | failed m' e => exact ⟨_, _, .failed hs he⟩

theorem One.eq_of_stops (hs : rules.stops m = true) (h : One rules i m k x) :
    k = 0 ∧ x = .halted .cancelled m := by
  cases h with
  | cancelled asked => exact ⟨rfl, rfl⟩
  | done goes he => simp [hs] at goes
  | failed goes he => simp [hs] at goes

theorem One.eq_of_done {event : Option Event} (hs : rules.stops m = false)
    (he : m.exec rules.policy i = .done m' event) (h : One rules i m k x) :
    k = 1 ∧ x = .passed m' := by
  cases h with
  | cancelled asked => simp [hs] at asked
  | done goes he' =>
    obtain ⟨rfl, -⟩ := Machine.Effect.done.inj (he.symm.trans he')
    exact ⟨rfl, rfl⟩
  | failed goes he' => cases he.symm.trans he'

theorem One.eq_of_failed {e : RunError} (hs : rules.stops m = false)
    (he : m.exec rules.policy i = .failed m' e) (h : One rules i m k x) :
    k = 0 ∧ x = .halted (.failed e) m' := by
  cases h with
  | cancelled asked => simp [hs] at asked
  | done goes he' => cases he.symm.trans he'
  | failed goes he' =>
    obtain ⟨rfl, rfl⟩ := Machine.Effect.failed.inj (he.symm.trans he')
    exact ⟨rfl, rfl⟩

/-- A bracket has no effect of its own. -/
theorem One.of_isBracket (hop : i.op.IsBracket) (hs : rules.stops m = false) :
    One rules i m 1 (.passed m) :=
  .done hs (Machine.exec_of_isBracket hop)

theorem One.eq_of_isBracket (hop : i.op.IsBracket) (h : One rules i m k (.passed m')) :
    k = 1 ∧ m' = m := by
  cases h with
  | done goes he =>
    rw [Machine.exec_of_isBracket hop] at he
    obtain ⟨rfl, -⟩ := Machine.Effect.done.inj he
    exact ⟨rfl, rfl⟩

/-! ## Evaluations come to one thing only -/

/-- From every machine a meaning comes to one thing at most. -/
def Functional (a : Meaning w) : Prop :=
  ∀ ⦃m j k x y⦄, a m j x → a m k y → j = k ∧ x = y

theorem functional_skip : Functional (skip : Meaning w) := by
  rintro m j k x y ⟨rfl, rfl⟩ ⟨rfl, rfl⟩
  exact ⟨rfl, rfl⟩

theorem functional_one (rules : Rules) (i : Instruction) :
    Functional (One (w := w) rules i) := by
  intro m j k x y hx hy
  cases hx with
  | cancelled asked =>
    obtain ⟨rfl, rfl⟩ := hy.eq_of_stops asked
    exact ⟨rfl, rfl⟩
  | done goes he =>
    obtain ⟨rfl, rfl⟩ := hy.eq_of_done goes he
    exact ⟨rfl, rfl⟩
  | failed goes he =>
    obtain ⟨rfl, rfl⟩ := hy.eq_of_failed goes he
    exact ⟨rfl, rfl⟩

theorem Functional.seq (ha : Functional a) (hb : Functional b) : Functional (Seq a b) := by
  intro m j k x y hx hy
  cases hx with
  | passed first second =>
    cases hy with
    | passed first' second' =>
      obtain ⟨rfl, hm⟩ := ha first first'
      obtain rfl := Result.passed.inj hm
      obtain ⟨rfl, rfl⟩ := hb second second'
      exact ⟨rfl, rfl⟩
    | halted first' => cases (ha first first').2
  | halted first =>
    cases hy with
    | passed first' second' => cases (ha first first').2
    | halted first' => exact ha first first'

theorem Functional.iterated (ha : Functional a) : Functional (While rules a) := by
  have hround : Functional (Seq a (One rules (.single .loopEnd))) := ha.seq (functional_one _ _)
  intro m j k x y hx hy
  -- Induction on the one evaluation; the other ends by the same rule, as the cell is the same.
  induction hx generalizing k with
  | exit zero =>
    cases hy with
    | exit => exact ⟨rfl, rfl⟩
    | again nonzero => simp [zero] at nonzero
    | halted nonzero => simp [zero] at nonzero
  | again nonzero round rest ih =>
    cases hy with
    | exit zero => simp [zero] at nonzero
    | again _ round' rest' =>
      obtain ⟨rfl, hm⟩ := hround round round'
      obtain rfl := Result.passed.inj hm
      obtain ⟨rfl, rfl⟩ := ih rest'
      exact ⟨rfl, rfl⟩
    | halted _ round' => cases (hround round round').2
  | halted nonzero round =>
    cases hy with
    | exit zero => simp [zero] at nonzero
    | again _ round' => cases (hround round round').2
    | halted _ round' => exact hround round round'

/-! ## Pieces in a row -/

theorem seq_skip (a : Meaning w) : Seq a skip = a := by
  funext m k x
  apply propext
  constructor
  · intro h
    cases h with
    | passed first second =>
      obtain ⟨rfl, rfl⟩ := second
      exact first
    | halted first => exact first
  · intro h
    cases x with
    | passed m' =>
      have hs : Seq a skip m (k + 0) (.passed m') := .passed h ⟨rfl, rfl⟩
      exact hs
    | halted why m' => exact .halted h

/-- Three pieces in a row need no parentheses. -/
theorem seq_assoc (a b c : Meaning w) : Seq (Seq a b) c = Seq a (Seq b c) := by
  funext m k x
  apply propext
  constructor
  · intro h
    cases h with
    | passed first third =>
      cases first with
      | passed first second =>
        rw [Nat.add_assoc]
        exact .passed first (.passed second third)
    | halted first =>
      cases first with
      | passed first second => exact .passed first (.halted second)
      | halted first => exact .halted first
  · intro h
    cases h with
    | passed first rest =>
      cases rest with
      | passed second third =>
        rw [← Nat.add_assoc]
        exact .passed (.passed first second) third
      | halted second => exact .halted (.passed first second)
    | halted first => exact .halted (.halted first)

end Meaning

/-- **A block comes to one thing only.** -/
theorem Block.functional_evaluates (rules : Rules) (b : Block) :
    Meaning.Functional (b.Evaluates (w := w) rules) := by
  induction b with
  | nil => exact Meaning.functional_skip
  | step i plain rest ih => exact (Meaning.functional_one rules i).seq ih
  | loop body rest ihb ihr =>
    exact (Meaning.functional_one rules _).seq (ihb.iterated.seq ihr)

end Brainfuck
