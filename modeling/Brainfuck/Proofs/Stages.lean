import Brainfuck.Runner

/-!
# The stages of a run

A text goes through several stages on its way to being executed, and a run can end in each of them:
the configuration is checked, the text is read, optimized and resolved, and the tape is laid out.
Every stage but the last one leaves the streams and the flag alone.

## Main definitions

* `Source.instructions`: what a text is optimized to
* `Runner.Prepares`: what preparing a run comes to
* `Runner.EndsIn`: what a run ends in, with its transcript

## Main results

* `Runner.prepares`: a run is refused in one of the stages, or it can be executed
* `Runner.exists_run_iff`: a run comes to an end exactly if its execution does
-/

namespace Brainfuck

/-- The instructions that a text is optimized to. -/
def Source.instructions (source : String) : List Instruction :=
  optimize (operators source)

namespace Runner

/-- The events of compiling a text to a program. -/
def compiled (source : String) (p : Program) : List Event :=
  [.ofSource source, .ofOptimize (Source.operators source), .ofProgram p]

/-- **What preparing a run comes to**, with what is logged. -/
inductive Prepares (r : Runner) (source : String) : Except Error Job × List Event → Prop
  /-- There are no cells, and the text is not read. -/
  | rejected (h : r.config.capacity = 0) : Prepares r source (.error (.config .noCells), [])
  /-- The loops do not balance. -/
  | unresolved {e : LoopError} (pos : 0 < r.config.capacity)
      (h : JumpTable.resolve (Source.instructions source) = .error e) :
      Prepares r source
        (.error (.loops e), [.ofSource source, .ofOptimize (Source.operators source)])
  /-- The tape is too large to be laid out. -/
  | unfit {p : Program} (pos : 0 < r.config.capacity) (fits : ¬ r.config.Fits)
      (h : Program.ofInstructions (Source.instructions source) = .ok p) :
      Prepares r source (.error (.run (.fault .allocation)), compiled source p)
  /-- The program can be executed. -/
  | ready {p : Program} {tape : Tape r.config.width} (pos : 0 < r.config.capacity)
      (h : Program.ofInstructions (Source.instructions source) = .ok p)
      (ht : r.config.tape = .ok tape) :
      Prepares r source (.ok ⟨r.config.width, p, tape⟩, compiled source p)

theorem tape_of_not_fits {c : Config} (pos : 0 < c.capacity) (h : ¬ c.Fits) :
    c.tape = .error (.run (.fault .allocation)) := by
  rw [Config.tape, dif_neg (Nat.ne_of_gt pos), dif_neg h]

theorem exists_tape_of_fits {c : Config} (pos : 0 < c.capacity) (h : c.Fits) :
    ∃ tape, c.tape = .ok tape := by
  rw [Config.tape, dif_neg (Nat.ne_of_gt pos), dif_pos h]
  exact ⟨_, rfl⟩

theorem capacity_of_tape {c : Config} {tape : Tape c.width} (h : c.tape = .ok tape) :
    tape.capacity = c.capacity := by
  unfold Config.tape at h
  split at h
  · cases h
  split at h
  · obtain rfl := Except.ok.inj h
    exact Array.size_replicate
  · cases h

/-- **A run is prepared** in one of these ways. -/
theorem prepares (r : Runner) (source : String) : r.Prepares source (r.prepare source) := by
  rcases Nat.eq_zero_or_pos r.config.capacity with hzero | pos
  · have hprepare : r.prepare source = (.error (.config .noCells), []) := by
      simp [prepare, Config.validate, hzero]
    rw [hprepare]
    exact .rejected hzero
  unfold prepare
  rw [Config.validate_eq_ok_iff.mpr pos]
  simp only [Compilation.ofSource, Compilation.ofInstructions]
  rw [← Source.instructions]
  cases hp : Program.ofInstructions (Source.instructions source) with
  | error e => exact .unresolved pos (Program.ofInstructions_eq_error_iff.mp hp)
  | ok p =>
    by_cases fits : r.config.Fits
    · obtain ⟨tape, ht⟩ := exists_tape_of_fits pos fits
      rw [ht]
      exact .ready pos hp ht
    · rw [tape_of_not_fits pos fits]
      exact .unfit pos fits hp

variable {r : Runner} {source : String} {input : Input} {output : Output} {rounds : Nat}

/-- **What a run ends in**, with its transcript: it is refused as it is prepared, or executed. -/
inductive EndsIn (r : Runner) (source : String) (input : Input) (output : Output) :
    Transcript → Prop
  | refused {e : Error} {events : List Event} (h : r.Prepares source (.error e, events)) :
      EndsIn r source input output (r.refuse e events input output)
  | executed {job : Job} {events : List Event} {rounds : Nat} {x : Execution job.width}
      (h : r.Prepares source (.ok job, events))
      (hx : job.program.execute r.rules rounds ⟨job.tape, input, output, r.cancelled⟩ = some x) :
      EndsIn r source input output (conclude job.program events x)

theorem endsIn_of_run {t : Transcript} (h : r.run rounds source input output = some t) :
    r.EndsIn source input output t := by
  have hprepares := r.prepares source
  unfold run at h
  generalize r.prepare source = prepared at h hprepares
  rcases prepared with ⟨e | job, events⟩
  · obtain rfl := Option.some.inj h
    exact .refused hprepares
  · obtain ⟨x, hx, rfl⟩ := Option.map_eq_some_iff.mp h
    exact .executed hprepares hx

/-- A run that has a program and a tape is the execution of the one on the other. -/
theorem run_of_tape {p : Program} {tape : Tape r.config.width}
    (hp : p.instructions.toList = Source.instructions source) (ht : r.config.tape = .ok tape)
    (rounds : Nat) (input : Input) (output : Output) :
    r.run rounds source input output =
      (p.execute r.rules rounds ⟨tape, input, output, r.cancelled⟩).map
        (conclude p (compiled source p)) := by
  have hprogram : Program.ofInstructions (Source.instructions source) = .ok p :=
    hp ▸ p.ofInstructions_toList
  have hprepares := r.prepares source
  unfold run
  generalize r.prepare source = prepared at hprepares
  cases hprepares with
  | rejected hzero => exact absurd (capacity_of_tape ht ▸ tape.capacity_pos) (by omega)
  | unresolved _ hr => cases (Program.ofInstructions_eq_error_iff.mpr hr).symm.trans hprogram
  | unfit pos fits => cases (tape_of_not_fits pos fits).symm.trans ht
  | ready _ hp' ht' =>
    obtain rfl := Except.ok.inj (hp'.symm.trans hprogram)
    obtain rfl := Except.ok.inj (ht'.symm.trans ht)
    rfl

/-- **A run comes to an end** within some rounds exactly if its execution does, if it has one. -/
theorem exists_run_iff :
    (∃ t, r.run rounds source input output = some t) ↔
      ∀ (p : Program) (tape : Tape r.config.width),
        p.instructions.toList = Source.instructions source → r.config.tape = .ok tape →
        ∃ x, p.execute r.rules rounds ⟨tape, input, output, r.cancelled⟩ = some x := by
  constructor
  · rintro ⟨t, h⟩ p tape hp ht
    rw [run_of_tape hp ht] at h
    obtain ⟨x, hx, -⟩ := Option.map_eq_some_iff.mp h
    exact ⟨x, hx⟩
  · intro h
    have hprepares := r.prepares source
    unfold run
    generalize r.prepare source = prepared at hprepares
    cases hprepares with
    | ready _ hp ht =>
      obtain ⟨x, hx⟩ := h _ _ (Program.toList_of_ofInstructions hp) ht
      exact ⟨_, Option.map_eq_some_iff.mpr ⟨x, hx, rfl⟩⟩
    | _ => exact ⟨_, rfl⟩

end Runner

end Brainfuck
