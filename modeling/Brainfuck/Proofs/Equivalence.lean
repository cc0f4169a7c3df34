import Brainfuck.Proofs.Translation
import Brainfuck.Runner

/-!
# Equivalent texts run alike

A run depends on its text through the operators alone: comments and the dialect of a text show only
in what is logged. A text in a faithful dialect that another is converted to has the same operators
as the other, and so the two run alike.

## Main definitions

* `Transcript.withoutEvents`: what comes of a run, apart from what is logged

## Main results

* `Runner.operators_inCharacters`: a text is compiled to the operators it reads as
* `Runner.prepare_congr`, `Runner.run_congr`: texts with the same operators run alike
* `Runner.runDialect_congr`: so do texts of two dialects that read as the same operators
* `Runner.runDialect_of_equivalent`: equivalent texts run alike
-/

namespace Brainfuck

/-- What comes of a run, apart from what is logged. -/
def Transcript.withoutEvents (t : Transcript) : Transcript :=
  { t with events := [] }

namespace Runner

variable {a b : String} {A B : Dialect} {ops : List Operator}

/-! ## Texts with the same operators -/

/-- Texts with the same operators are compiled to the same program, or fail alike. -/
theorem prepare_congr (r : Runner) (h : Source.operators a = Source.operators b) :
    (r.prepare a).1 = (r.prepare b).1 := by
  unfold prepare
  cases r.config.validate with
  | error e => rfl
  | ok => simp only [Compilation.ofSource, h]

theorem withoutEvents_conclude (program : Program) (events events' : List Event) {w : Width}
    (x : Execution w) :
    (conclude program events x).withoutEvents = (conclude program events' x).withoutEvents := by
  unfold conclude
  cases x.result <;> rfl

/-- **Texts with the same operators run alike.** -/
theorem run_congr (r : Runner) (h : Source.operators a = Source.operators b) (rounds : Nat)
    (input : Input) (output : Output) :
    (r.run rounds a input output).map Transcript.withoutEvents =
      (r.run rounds b input output).map Transcript.withoutEvents := by
  have hjob := r.prepare_congr h
  unfold run
  generalize r.prepare a = preparation at hjob ⊢
  generalize r.prepare b = preparation' at hjob ⊢
  obtain ⟨job, events⟩ := preparation
  obtain ⟨job', events'⟩ := preparation'
  obtain rfl : job = job' := hjob
  cases job with
  | error e => rfl
  | ok job =>
    simp only [Option.map_map]
    exact congrArg (Option.map · _) (funext (withoutEvents_conclude job.program events events'))

/-! ## Texts of two dialects -/

/-- **A text is compiled to the operators it reads as**, whether it is converted or not. -/
theorem operators_inCharacters (h : A.Reads a.toList ops) :
    Source.operators (inCharacters A a).1 = ops := by
  unfold inCharacters Source.operators
  split
  next hA =>
    subst hA
    exact h.filterMap_ofChar?
  next =>
    exact (h.convert Dialect.faithful_brainfuck).filterMap_ofChar?

theorem withoutEvents_runDialect (r : Runner) (rounds : Nat) (A : Dialect) (a : String)
    (input : Input) (output : Output) :
    (r.runDialect rounds A a input output).map Transcript.withoutEvents =
      (r.run rounds (inCharacters A a).1 input output).map Transcript.withoutEvents := by
  rw [runDialect, Option.map_map]
  rfl

/-- **Texts that read as the same operators run alike**: they are compiled to the same program, and
the same comes of its runs, however long they take. -/
theorem runDialect_congr (r : Runner) (ha : A.Reads a.toList ops) (hb : B.Reads b.toList ops) :
    (r.prepare (inCharacters A a).1).1 = (r.prepare (inCharacters B b).1).1 ∧
    ∀ rounds input output,
      (r.runDialect rounds A a input output).map Transcript.withoutEvents =
        (r.runDialect rounds B b input output).map Transcript.withoutEvents := by
  have hops := (operators_inCharacters ha).trans (operators_inCharacters hb).symm
  refine ⟨r.prepare_congr hops, fun rounds input output => ?_⟩
  rw [withoutEvents_runDialect, withoutEvents_runDialect, r.run_congr hops]

/-- **Equivalent texts run alike** if the first is written in a faithful dialect: they are compiled
to the same program, and the same comes of its runs. -/
theorem runDialect_of_equivalent (r : Runner) (hA : A.Faithful)
    (h : equivalent a A b B = true) :
    (r.prepare (inCharacters A a).1).1 = (r.prepare (inCharacters B b).1).1 ∧
    ∀ rounds input output,
      (r.runDialect rounds A a input output).map Transcript.withoutEvents =
        (r.runDialect rounds B b input output).map Transcript.withoutEvents := by
  obtain rfl : a = convert B A b := by simpa [equivalent] using h
  obtain ⟨ops, hops⟩ := B.exists_reads b.toList
  exact r.runDialect_congr (hops.convert hA) hops

/-- Zero and one are written by a text in a dialect with an empty token, a shared one, and one that
starts another, since they are written by the equivalent text of characters. -/
theorem runDialect_of_equivalent_overlapping :
    Dialect.brainfuck.Faithful ∧
    equivalent ".+." .brainfuck "Moo, Mo!Moo" { Dialect.cow with right := "", inc := "Mo" } =
      true ∧
    ((Runner.runDialect ⟨{ capacity := 1 }, false, true⟩ 4
        { Dialect.cow with right := "", inc := "Mo" } "Moo, Mo!Moo" []
        (.ofDevice .unlimited)).map Transcript.withoutEvents).map (·.output.written) =
      some #[0, 1] := by
  have hreads : Dialect.Reads { Dialect.cow with right := "", inc := "Mo" } "Moo, Mo!Moo".toList
      [.output, .inc, .output] :=
    .of_begins (by decide) <| .dropped (by decide) <| .dropped (by decide) <|
      .of_begins (by decide) <| .dropped (by decide) <| .of_begins (by decide) .nil
  have h : equivalent ".+." .brainfuck "Moo, Mo!Moo"
      { Dialect.cow with right := "", inc := "Mo" } = true := by
    rw [equivalent, convert_eq_of_reads hreads]
    decide
  refine ⟨Dialect.faithful_brainfuck, h, ?_⟩
  rw [← (runDialect_of_equivalent _ Dialect.faithful_brainfuck h).2]
  decide

end Runner

end Brainfuck
