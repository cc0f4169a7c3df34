import Brainfuck.Proofs.Related

/-!
# Plain inputs

A read that is interrupted is tried again, and a read that ends the input or fails counts as the
byte zero. So every input is as good as the one with its interruptions left out and zeros in place
of its ends and failures, with any number of zeros behind it. Only the log tells the two apart: it
holds the failures that a run has met.

## Main definitions

* `Input.plain`: an input without interruptions, ends and failures
* `Input.Simplifies`: some of these are replaced, and zeros are appended
* `Input.Accounts`: the failures taken from an input are those that were logged

## Main results

* `Input.simplifies_plain`: the plain input is one of the simpler ones
* `Input.respectsReads_simplifies`: reads do not tell a simpler input from the input
* `Run.Steps.accounts`: a run logs the failures that it meets, in order
* `Program.runsAlike_plain`: a program runs alike on the plain input
-/

namespace Brainfuck

variable {w : Width}

/-! ## Simpler inputs -/

namespace ReadEvent

/-- What stands for an event in a plain input. -/
def plain? : ReadEvent → Option ReadEvent
  | byte b => some (byte b)
  | endOfInput => some (byte 0)
  | failure _ => some (byte 0)
  | interrupted => none
  | cancel => some cancel

/-- Why a read fails for good. -/
def failure? : ReadEvent → Option String
  | failure cause => some cause
  | _ => none

end ReadEvent

namespace Input

/-- The input without its interruptions, and with zeros in place of its ends and failures. -/
def plain (input : Input) : Input :=
  input.filterMap ReadEvent.plain?

/-- So many zeros. -/
def zeros (n : Nat) : Input :=
  ofBytes (List.replicate n 0)

/-- The input `b` is `a` with some of its interruptions left out, zeros in place of some of its ends
and failures, and zeros behind it. -/
inductive Simplifies : Input → Input → Prop
  | zeros (n : Nat) : Simplifies [] (zeros n)
  | same (e : ReadEvent) {a b : Input} (rest : Simplifies a b) : Simplifies (e :: a) (e :: b)
  | interrupted {a b : Input} (rest : Simplifies a b) : Simplifies (.interrupted :: a) b
  | endOfInput {a b : Input} (rest : Simplifies a b) :
      Simplifies (.endOfInput :: a) (.byte 0 :: b)
  | failure (cause : String) {a b : Input} (rest : Simplifies a b) :
      Simplifies (.failure cause :: a) (.byte 0 :: b)

/-- **The plain input is simpler**, with zeros behind it. -/
theorem simplifies_plain (input : Input) (n : Nat) : Simplifies input (input.plain ++ zeros n) := by
  induction input with
  | nil => exact .zeros n
  | cons e rest ih =>
    cases e with
    | byte b => exact .same _ ih
    | endOfInput => exact .endOfInput ih
    | failure cause => exact .failure cause ih
    | interrupted => exact .interrupted ih
    | cancel => exact .same _ ih

/-- **Reads do not tell a simpler input from the input**, but for the failures. -/
theorem respectsReads_simplifies : RespectsReads Simplifies := by
  intro a b h
  induction h with
  | zeros n =>
    cases n with
    | zero => exact ⟨rfl, rfl, .zeros 0⟩
    | succ n => exact ⟨rfl, rfl, .zeros n⟩
  | same e rest ih =>
    cases e with
    | byte b => exact ⟨rfl, rfl, rest⟩
    | endOfInput => exact ⟨rfl, rfl, rest⟩
    | failure cause => exact ⟨rfl, rfl, rest⟩
    | interrupted => exact ih
    | cancel => exact ⟨ih.1, rfl, ih.2.2⟩
  | interrupted _ ih => exact ih
  | endOfInput rest _ => exact ⟨rfl, rfl, rest⟩
  | failure cause rest _ => exact ⟨rfl, rfl, rest⟩

end Input

/-! ## The failures in the log -/

/-- Why a read failed, if the event tells of one. -/
def Event.readFailure? : Event → Option String
  | readFailed cause => some cause
  | _ => none

namespace Input

/-- **An account of an input**: the events that are no longer left were taken from its front, and
the failures among them are those that were logged, in order. -/
def Accounts (input left : Input) (events : Array Event) : Prop :=
  ∃ taken, input = taken ++ left ∧
    events.toList.filterMap Event.readFailure? = taken.filterMap ReadEvent.failure?

/-- A read takes events up to the one that settles it, and only that one can be a failure. -/
theorem exists_taken_read (input : Input) :
    ∃ taken, input = taken ++ (read input).rest ∧
      taken.filterMap ReadEvent.failure? = (read input).failure.toList := by
  induction input with
  | nil => exact ⟨[], rfl, rfl⟩
  | cons e rest ih =>
    cases e with
    | byte b => exact ⟨[.byte b], rfl, rfl⟩
    | endOfInput => exact ⟨[.endOfInput], rfl, rfl⟩
    | failure cause => exact ⟨[.failure cause], rfl, rfl⟩
    | interrupted =>
      obtain ⟨taken, hrest, hfailures⟩ := ih
      exact ⟨.interrupted :: taken, congrArg _ hrest, hfailures⟩
    | cancel =>
      obtain ⟨taken, hrest, hfailures⟩ := ih
      exact ⟨.cancel :: taken, congrArg _ hrest, hfailures⟩

end Input

namespace Machine

variable {policy : BoundsPolicy} {m m' : Machine w} {event : Option Event}

theorem accounts_of_move_done {d : Direction} {n : Nat} (h : m.move policy d n = .done m' event) :
    m'.input = m.input ∧ event.bind Event.readFailure? = none := by
  unfold move at h
  split at h
  next tape report _ =>
    obtain ⟨rfl, rfl⟩ := Effect.done.inj h
    cases report <;> exact ⟨rfl, rfl⟩
  next => cases h

theorem accounts_of_print_done (h : m.print = .done m' event) :
    m'.input = m.input ∧ event.bind Event.readFailure? = none := by
  unfold print at h
  split at h
  · obtain ⟨rfl, rfl⟩ := Effect.done.inj h
    exact ⟨rfl, rfl⟩
  · cases h

/-- **An instruction logs the failures that it meets.** Only an input instruction meets any. -/
theorem exists_taken_of_exec_done {i : Instruction} (h : m.exec policy i = .done m' event) :
    ∃ taken, m.input = taken ++ m'.input ∧
      (event.bind Event.readFailure?).toList = taken.filterMap ReadEvent.failure? := by
  cases does_of_exec_done h with
  | move _ h =>
    obtain ⟨hinput, hevent⟩ := accounts_of_move_done h
    exact ⟨[], hinput.symm, congrArg _ hevent⟩
  | read _ h =>
    obtain ⟨taken, hinput, hfailures⟩ := Input.exists_taken_read m.input
    obtain ⟨rfl, rfl⟩ := Effect.done.inj h
    refine ⟨taken, hinput, ?_⟩
    rw [hfailures]
    cases m.input.read.failure <;> rfl
  | print _ h =>
    obtain ⟨hinput, hevent⟩ := accounts_of_print_done h
    exact ⟨[], hinput.symm, congrArg _ hevent⟩
  | change => exact ⟨[], rfl, rfl⟩

end Machine

namespace Run

variable {p : Program} {rules : Rules} {r r' : Run w} {input : Input}

theorem accounts_of_advance_running (h : r.advance p rules = .running r')
    (hr : input.Accounts r.machine.input r.events) : input.Accounts r'.machine.input r'.events := by
  cases round_of_advance h with
  | @done i m event pc _ _ he _ =>
    obtain ⟨taken, hinput, hlog⟩ := hr
    obtain ⟨more, hmore, hevent⟩ := Machine.exists_taken_of_exec_done he
    refine ⟨taken ++ more, ?_, ?_⟩
    · rw [hinput, hmore, List.append_assoc]
    · rw [List.filterMap_append, ← hlog, ← hevent]
      cases event with
      | none => exact (List.append_nil _).symm
      | some event =>
        rw [Option.elim_some, Array.toList_push, List.filterMap_append, Option.bind_some,
          List.filterMap_cons]
        cases event.readFailure? <;> rfl

/-- A run that ends meets no further failure. -/
theorem accounts_of_advance_ended {ending : Ending} (h : r.advance p rules = .ended ending r')
    (hr : input.Accounts r.machine.input r.events) : input.Accounts r'.machine.input r'.events := by
  cases round_of_advance h with
  | finished => exact hr
  | cancelled =>
    obtain ⟨taken, hinput, hlog⟩ := hr
    refine ⟨taken, hinput, ?_⟩
    rw [← hlog]
    simp [Event.readFailure?]
  | failed => rwa [Machine.input_failedBy]

/-- **A run logs the failures that it meets**, in order. -/
theorem Steps.accounts {k : Nat} (h : Steps p rules k r r')
    (hr : input.Accounts r.machine.input r.events) : input.Accounts r'.machine.input r'.events := by
  induction h with
  | refl => exact hr
  | head first _ ih => exact ih (accounts_of_advance_running first hr)

theorem accounts_start (m : Machine w) :
    m.input.Accounts (start m).machine.input (start m).events :=
  ⟨[], rfl, rfl⟩

/-- Runs on a simpler input go in lockstep. -/
theorem lockstep_simplifies (p : Program) (rules : Rules) :
    Lockstep p rules rules (fun _ => False)
      (Alike (Machine.Related (Eq : Tape w → Tape w → Prop) Input.Simplifies Eq)) := by
  intro r r' h
  refine Or.inr (h.advance_of_related Tape.respectsCells_eq Tape.respectsPlaces_eq
    Input.respectsReads_simplifies ?_ ?_)
  · intro i _ _ _
    rw [h.machine.tape]
  · intro i _ _ _ b
    rw [← h.machine.output]
    exact Output.Writing.alike_eq _

end Run

namespace Program

theorem runsAlike_of_simplifies (p : Program) (rules : Rules) (m : Machine w) {input : Input}
    (h : m.input.Simplifies input) :
    p.RunsAlike rules (Machine.Related Eq Input.Simplifies Eq) m { m with input } :=
  (Run.lockstep_simplifies p rules).runsAlike (fun _ _ hr => hr)
    Machine.respectsFlush_eq (Run.alike_start ⟨rfl, h, rfl, rfl⟩)

/-- **A program runs alike on the plain input**, with any number of zeros behind it. On its own
input it logs as many failures as it takes, at every time and at its end. -/
theorem runsAlike_plain (p : Program) (rules : Rules) (m : Machine w) :
    (∀ n, p.RunsAlike rules (Machine.Related Eq Input.Simplifies Eq) m
      { m with input := m.input.plain ++ Input.zeros n }) ∧
    (∀ k s, Run.Steps p rules k (.start m) s → m.input.Accounts s.machine.input s.events) ∧
    (∀ rounds x, p.execute rules rounds m = some x →
      m.input.Accounts x.machine.input x.events) := by
  refine ⟨fun n => runsAlike_of_simplifies p rules m (m.input.simplifies_plain n),
    fun k s hs => hs.accounts (Run.accounts_start m), ?_⟩
  intro rounds x hx
  obtain ⟨⟨ending, last⟩, hend, rfl⟩ := Option.map_eq_some_iff.mp hx
  obtain ⟨k, -, before, hs, ha⟩ := Run.toEnd_eq_some_iff.mp hend
  exact Run.accounts_of_advance_ended ha (hs.accounts (Run.accounts_start m))

/-- A byte that comes after an interruption, and a failure. -/
theorem runsAlike_plain_failing :
    ∃ (p : Program) (m : Machine .byte) (x : Execution .byte),
      p.instructions = #[.single .input, .single .output, .single .input] ∧
      m.input = [.interrupted, .byte 65, .failure "input gone"] ∧
      m.input.plain ++ Input.zeros 1 = [.byte 65, .byte 0, .byte 0] ∧
      p.RunsAlike ⟨.wrap, true⟩ (Machine.Related Eq Input.Simplifies Eq) m
        { m with input := m.input.plain ++ Input.zeros 1 } ∧
      p.execute ⟨.wrap, true⟩ 4 m = some x ∧ x.machine.input = [] ∧
      x.events = #[.readFailed "input gone"] ∧
      m.input.Accounts x.machine.input x.events := by
  let p : Program := ⟨#[.single .input, .single .output, .single .input], ⟨#[0, 1, 2]⟩, rfl⟩
  let m : Machine .byte := ⟨.blank .byte 1 (by decide) (by decide),
    [.interrupted, .byte 65, .failure "input gone"], .ofDevice .unlimited, false⟩
  have h := runsAlike_plain p ⟨.wrap, true⟩ m
  exact ⟨p, m, _, rfl, rfl, rfl, h.1 1, rfl, rfl, rfl, h.2.2 4 _ rfl⟩

end Program

end Brainfuck
