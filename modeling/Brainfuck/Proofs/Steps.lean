import Brainfuck.Execution

/-!
# The rounds of a run

A run goes on for a number of rounds, each of which executes one instruction, and then may end in
the round after them. How many rounds it is given does not matter as long as they are enough, so
that theorems on runs speak of the rounds it goes on for.

## Main definitions

* `Rules.stops`: when a run stops because it was asked to
* `Machine.endedBy`: what a round that ends a run leaves
* `Run.next?`: where an instruction leads
* `Run.Round`: what a round comes to
* `Run.Steps`: so many rounds lead from one state of a run to another
* `Run.Throughout`: a property holds in every state of a run
* `Run.holdsToEnd`: the same, computed for a run that ends
* `Run.EndsAfter`: a run ends after so many executed instructions

## Main results

* `Run.round_advance`: a round comes to one of four things
* `Run.exec_of_advance_running`, `Run.machine_of_advance_ended`: where a round comes from
* `Run.Steps.linear`: of two states of a run, one comes after the other
* `Run.EndsAfter.exec_of_failed`: a run that fails stands at the instruction that fails
* `Run.toEnd_eq_some_iff`: a run ends within some rounds exactly if it ends after fewer executed
  instructions
* `Run.toEnd_eq_none_iff`: it does not exactly if it goes on for all of them
* `Run.exists_steps_of_execute`: an execution is the end of a run
-/

namespace Brainfuck

/-- A run on this machine stops before the next instruction: it was asked to, and heeds it. -/
def Rules.stops {w : Width} (rules : Rules) (m : Machine w) : Bool :=
  rules.heedsCancel && m.cancelled

/-- An instruction that fails lowers no flag. -/
theorem Rules.stops_of_failedBy {w : Width} {rules : Rules} {m : Machine w} {e : RunError}
    (h : rules.stops (m.failedBy e) = false) : rules.stops m = false := by
  cases e with
  | bounds | fault => exact h
  | output cause =>
    rw [stops, Bool.and_eq_false_iff] at h ⊢
    exact h.imp_right fun hm => (Bool.or_eq_false_iff.mp hm).1

/-- The machine after a round that ended the run. -/
def Machine.endedBy {w : Width} (ending : Ending) (m : Machine w) : Machine w :=
  match ending with
  | .completed _ => m
  | .failed e => m.failedBy e

section EndedBy

variable {w : Width} (ending : Ending) (m : Machine w)

@[simp] theorem Machine.tape_endedBy : (m.endedBy ending).tape = m.tape := by
  cases ending <;> simp [endedBy]

@[simp] theorem Machine.input_endedBy : (m.endedBy ending).input = m.input := by
  cases ending <;> simp [endedBy]

@[simp] theorem Machine.device_endedBy : (m.endedBy ending).output.device = m.output.device := by
  cases ending <;> simp [endedBy]

@[simp] theorem Machine.written_endedBy :
    (m.endedBy ending).output.written = m.output.written := by
  cases ending <;> simp [endedBy]

@[simp] theorem Machine.flushes_endedBy :
    (m.endedBy ending).output.flushes = m.output.flushes := by
  cases ending <;> simp [endedBy]

end EndedBy

namespace Run

variable {w : Width} {p : Program} {rules : Rules} {r r' r'' : Run w}

/-! ## One round -/

/-- The bracket at the program counter jumps: a loop start on zero, a loop end on anything else. -/
def jumps (op : Operator) (r : Run w) : Bool :=
  match op with
  | .loopStart => r.machine.tape.isZero
  | .loopEnd => !r.machine.tape.isZero
  | _ => false

/-- The program counter after the instruction `i`: past the partner of a bracket that jumps, and
otherwise the next index. -/
def next? (p : Program) (i : Instruction) (r : Run w) : Option Nat :=
  if r.jumps i.op then (p.jumps.target? r.pc).map (· + 1) else some (r.pc + 1)

theorem next?_of_not_isBracket {i : Instruction} (hop : ¬ i.op.IsBracket) :
    r.next? p i = some (r.pc + 1) := by
  unfold next? jumps
  cases h : i.op <;> simp_all [Operator.IsBracket]

/-- An instruction leads past its partner if it jumps, and otherwise to the next index. -/
theorem cases_of_next? {i : Instruction} {pc : Nat} (h : r.next? p i = some pc) :
    (r.jumps i.op = true ∧ ∃ target, p.jumps.target? r.pc = some target ∧ pc = target + 1) ∨
      r.jumps i.op = false ∧ pc = r.pc + 1 := by
  unfold next? at h
  split at h
  next hj =>
    obtain ⟨target, ht, rfl⟩ := Option.map_eq_some_iff.mp h
    exact Or.inl ⟨hj, target, ht, rfl⟩
  next hj => exact Or.inr ⟨Bool.eq_false_iff.mpr hj, (Option.some.inj h).symm⟩

theorem advance_of_none (h : p.instructions[r.pc]? = none) :
    r.advance p rules = .ended (.completed .finished) r := by
  unfold advance
  rw [h]

theorem advance_of_stops {i : Instruction} (h : p.instructions[r.pc]? = some i)
    (hs : rules.stops r.machine = true) :
    r.advance p rules = .ended (.completed (.cancelled r.pc))
      { r with events := r.events.push (.cancelled r.pc r.executed) } := by
  unfold Rules.stops at hs
  unfold advance
  rw [h]
  simp only [hs, if_true]

theorem advance_of_not_stops {i : Instruction} (h : p.instructions[r.pc]? = some i)
    (hs : rules.stops r.machine = false) : r.advance p rules = r.step p rules.policy i := by
  unfold Rules.stops at hs
  unfold advance
  rw [h]
  simp only [hs, Bool.false_eq_true, if_false]

theorem branch_of_next? {i : Instruction} {pc : Nat} (hn : r.next? p i = some pc) :
    r.branch p (r.jumps i.op) = .running (r.goTo pc) := by
  unfold branch
  rcases cases_of_next? hn with ⟨hj, target, ht, rfl⟩ | ⟨hj, rfl⟩
  · simp only [hj, if_true, ht]
  · simp only [hj, Bool.false_eq_true, if_false]

theorem step_of_isBracket {i : Instruction} (hop : i.op.IsBracket) (policy : BoundsPolicy) :
    r.step p policy i = r.branch p (r.jumps i.op) := by
  unfold step jumps
  rcases hop with hop | hop <;> simp only [hop]

theorem step_of_not_isBracket {i : Instruction} (hop : ¬ i.op.IsBracket) (policy : BoundsPolicy) :
    r.step p policy i =
      match r.machine.exec policy i with
      | .done machine event =>
        .running ⟨r.pc + 1, r.executed + 1, machine, event.elim r.events r.events.push⟩
      | .failed machine e => .ended (.failed e) { r with machine } := by
  unfold step
  split
  next h => exact absurd (Or.inl h) hop
  next h => exact absurd (Or.inr h) hop
  next => rfl

/-- **An instruction that is done** leads on to the next program counter. -/
theorem advance_of_done {i : Instruction} {m : Machine w} {event : Option Event} {pc : Nat}
    (h : p.instructions[r.pc]? = some i) (hs : rules.stops r.machine = false)
    (he : r.machine.exec rules.policy i = .done m event) (hn : r.next? p i = some pc) :
    r.advance p rules =
      .running ⟨pc, r.executed + 1, m, event.elim r.events r.events.push⟩ := by
  rw [advance_of_not_stops h hs]
  by_cases hop : i.op.IsBracket
  -- A bracket leaves the machine as it is and leads to where it jumps.
  · rw [Machine.exec_of_isBracket hop] at he
    obtain ⟨rfl, rfl⟩ := Machine.Effect.done.inj he
    rw [step_of_isBracket hop, branch_of_next? hn]
    rfl
  -- Everything else has its effect and leads to the next index.
  · rw [next?_of_not_isBracket hop] at hn
    obtain rfl := Option.some.inj hn
    rw [step_of_not_isBracket hop, he]

/-- **An instruction that fails** ends the run, and is not counted. -/
theorem advance_of_failed {i : Instruction} {m : Machine w} {e : RunError}
    (h : p.instructions[r.pc]? = some i) (hs : rules.stops r.machine = false)
    (he : r.machine.exec rules.policy i = .failed m e) :
    r.advance p rules = .ended (.failed e) { r with machine := m } := by
  have hop : ¬ i.op.IsBracket := by
    intro hop
    rw [Machine.exec_of_isBracket hop] at he
    cases he
  rw [advance_of_not_stops h hs, step_of_not_isBracket hop, he]

/-- An instruction always leads somewhere. -/
theorem exists_next? {i : Instruction} (h : p.instructions[r.pc]? = some i) :
    ∃ pc, r.next? p i = some pc := by
  obtain ⟨hpc, -⟩ := Array.getElem?_eq_some_iff.mp h
  have ht : r.pc < p.jumps.targets.size := by rwa [p.size_targets]
  unfold next? JumpTable.target?
  rw [Array.getElem?_eq_getElem ht]
  split <;> exact ⟨_, rfl⟩

/-- **What a round comes to.** It finds the end of the program, or it is asked to stop, or its
instruction is done or fails. -/
inductive Round (p : Program) (rules : Rules) (r : Run w) : Next w → Prop
  | finished (h : p.instructions[r.pc]? = none) :
      Round p rules r (.ended (.completed .finished) r)
  | cancelled {i : Instruction} (h : p.instructions[r.pc]? = some i)
      (hs : rules.stops r.machine = true) :
      Round p rules r (.ended (.completed (.cancelled r.pc))
        { r with events := r.events.push (.cancelled r.pc r.executed) })
  | done {i : Instruction} {m : Machine w} {event : Option Event} {pc : Nat}
      (h : p.instructions[r.pc]? = some i) (hs : rules.stops r.machine = false)
      (he : r.machine.exec rules.policy i = .done m event) (hn : r.next? p i = some pc) :
      Round p rules r (.running ⟨pc, r.executed + 1, m, event.elim r.events r.events.push⟩)
  | failed {i : Instruction} {e : RunError} (h : p.instructions[r.pc]? = some i)
      (hs : rules.stops r.machine = false)
      (he : r.machine.exec rules.policy i = .failed (r.machine.failedBy e) e) :
      Round p rules r (.ended (.failed e) { r with machine := r.machine.failedBy e })

theorem round_advance (p : Program) (rules : Rules) (r : Run w) :
    Round p rules r (r.advance p rules) := by
  cases hi : p.instructions[r.pc]? with
  | none =>
    rw [advance_of_none hi]
    exact .finished hi
  | some i =>
    cases hs : rules.stops r.machine with
    | true =>
      rw [advance_of_stops hi hs]
      exact .cancelled hi hs
    | false =>
      cases he : r.machine.exec rules.policy i with
      | done m event =>
        obtain ⟨pc, hn⟩ := exists_next? hi
        rw [advance_of_done hi hs he hn]
        exact .done hi hs he hn
      | failed m e =>
        obtain rfl := Machine.eq_of_exec_failed he
        rw [advance_of_failed hi hs he]
        exact .failed hi hs he

theorem round_of_advance {next : Next w} (h : r.advance p rules = next) :
    Round p rules r next :=
  h ▸ round_advance p rules r

/-- **A round that goes on** is an instruction that is done. -/
theorem exec_of_advance_running (h : r.advance p rules = .running r') :
    ∃ i event, p.instructions[r.pc]? = some i ∧
      r.machine.exec rules.policy i = .done r'.machine event ∧ r.next? p i = some r'.pc := by
  cases round_of_advance h with
  | done hi _ he hn => exact ⟨_, _, hi, he, hn⟩

/-- **A round that ends the run** leaves the machine as it is, but for the trace of an instruction
that failed. -/
theorem machine_of_advance_ended {ending : Ending} (h : r.advance p rules = .ended ending r') :
    r'.machine = r.machine.endedBy ending := by
  cases round_of_advance h with
  | finished => rfl
  | cancelled => rfl
  | failed => rfl

/-- A round that ends the run stays at its program counter. -/
theorem pc_of_advance_ended {ending : Ending} (h : r.advance p rules = .ended ending r') :
    r'.pc = r.pc := by
  cases round_of_advance h with
  | finished => rfl
  | cancelled => rfl
  | failed => rfl

/-- A run that fails does so at an instruction that fails. -/
theorem exec_of_advance_failed {e : RunError} (h : r.advance p rules = .ended (.failed e) r') :
    ∃ i, p.instructions[r.pc]? = some i ∧
      r.machine.exec rules.policy i = .failed r'.machine e := by
  cases round_of_advance h with
  | failed hi _ he => exact ⟨_, hi, he⟩

/-- A round that goes on counts one more instruction. -/
theorem executed_of_running (h : r.advance p rules = .running r') :
    r'.executed = r.executed + 1 := by
  cases round_of_advance h with
  | done => rfl

/-- A round that ends the run counts none. -/
theorem executed_of_ended {ending : Ending} (h : r.advance p rules = .ended ending r') :
    r'.executed = r.executed := by
  cases round_of_advance h with
  | finished => rfl
  | cancelled => rfl
  | failed => rfl

/-! ## Several rounds -/

/-- So many rounds lead from one state of a run to another. -/
inductive Steps (p : Program) (rules : Rules) : Nat → Run w → Run w → Prop
  | refl (r : Run w) : Steps p rules 0 r r
  | head {k : Nat} {r r' r'' : Run w} (first : r.advance p rules = .running r')
      (rest : Steps p rules k r' r'') : Steps p rules (k + 1) r r''

namespace Steps

theorem single (h : r.advance p rules = .running r') : Steps p rules 1 r r' :=
  .head h (.refl r')

theorem trans {j k : Nat} (h : Steps p rules j r r') (h' : Steps p rules k r' r'') :
    Steps p rules (j + k) r r'' := by
  induction h with
  | refl => rwa [Nat.zero_add]
  | head first _ ih =>
    rw [Nat.add_right_comm]
    exact .head first (ih h')

theorem executed {k : Nat} (h : Steps p rules k r r') : r'.executed = r.executed + k := by
  induction h with
  | refl => rfl
  | head first _ ih =>
    rw [ih, executed_of_running first]
    omega

/-- Rounds that go on use up as many of those a run is given. -/
theorem toEnd_add {k : Nat} (h : Steps p rules k r r') (rounds : Nat) :
    toEnd p rules (rounds + k) r = toEnd p rules rounds r' := by
  induction h with
  | refl => rfl
  | head first _ ih =>
    rw [← Nat.add_assoc, toEnd, first]
    exact ih

/-- **Of two states of a run**, one comes after the other. -/
theorem linear {j k : Nat} (h : Steps p rules j r r') (h' : Steps p rules k r r'') :
    (∃ i, Steps p rules i r' r'') ∨ ∃ i, Steps p rules i r'' r' := by
  induction h generalizing k with
  | refl r => exact Or.inl ⟨k, h'⟩
  | @head j r next r' first rest ih =>
    cases h' with
    | refl => exact Or.inr ⟨j + 1, .head first rest⟩
    | head first' rest' =>
      obtain rfl := Next.running.inj (first.symm.trans first')
      exact ih rest'

end Steps

/-- A property of the program counter and the machine holds in every state of a run. -/
def Throughout (p : Program) (rules : Rules) (C : Nat → Machine w → Prop) (r : Run w) : Prop :=
  ∀ k s, Steps p rules k r s → C s.pc s.machine

namespace Throughout

variable {C : Nat → Machine w → Prop}

theorem here (h : Throughout p rules C r) : C r.pc r.machine :=
  h 0 r (.refl r)

theorem running (h : Throughout p rules C r) (ha : r.advance p rules = .running r') :
    Throughout p rules C r' :=
  fun k s hs => h (k + 1) s (.head ha hs)

theorem head (hr : C r.pc r.machine) (ha : r.advance p rules = .running r')
    (h : Throughout p rules C r') : Throughout p rules C r := by
  intro k s hs
  cases hs with
  | refl => exact hr
  | head first rest =>
    obtain rfl := Next.running.inj (ha.symm.trans first)
    exact h _ s rest

theorem last {ending : Ending} (hr : C r.pc r.machine)
    (ha : r.advance p rules = .ended ending r') : Throughout p rules C r := by
  intro k s hs
  cases hs with
  | refl => exact hr
  | head first _ => cases ha.symm.trans first

/-- A run that has ended stays where it is, if the property does not look at the trace of an
instruction that failed. -/
theorem ended {ending : Ending} (hC : ∀ pc m e, C pc m → C pc (m.failedBy e))
    (h : Throughout p rules C r) (ha : r.advance p rules = .ended ending r') :
    Throughout p rules C r' := by
  cases round_of_advance ha with
  | finished => exact h
  | cancelled hi hs => exact .last h.here (advance_of_stops hi hs)
  | @failed i e hi _ he =>
    -- The instruction fails again, unless the run is asked to stop before that.
    have hr : C r.pc (r.machine.failedBy e) := hC _ _ _ h.here
    cases hs : rules.stops (r.machine.failedBy e) with
    | true => exact .last hr (advance_of_stops hi hs)
    | false => exact .last hr (advance_of_failed hi hs (Machine.exec_failedBy he))

end Throughout

/-- A run ends within so many rounds, and a property holds in all its states. -/
def holdsToEnd (p : Program) (rules : Rules) (C : Nat → Machine w → Prop)
    [∀ pc m, Decidable (C pc m)] : (rounds : Nat) → Run w → Bool
  | 0, _ => false
  | rounds + 1, r =>
    decide (C r.pc r.machine) &&
      match r.advance p rules with
      | .running r => holdsToEnd p rules C rounds r
      | .ended .. => true

/-- Of a run that ends it can be computed what holds in all its states. -/
theorem throughout_of_holdsToEnd {C : Nat → Machine w → Prop} [∀ pc m, Decidable (C pc m)]
    (rounds : Nat) (h : holdsToEnd p rules C rounds r = true) : Throughout p rules C r := by
  induction rounds generalizing r with
  | zero => cases h
  | succ rounds ih =>
    obtain ⟨hr, hrest⟩ := Bool.and_eq_true_iff.mp h
    split at hrest
    next ha => exact .head (of_decide_eq_true hr) ha (ih hrest)
    next ha => exact .last (of_decide_eq_true hr) ha

/-- A run ends after `k` executed instructions: in the round after them. -/
def EndsAfter (p : Program) (rules : Rules) (k : Nat) (r : Run w) (ending : Ending)
    (last : Run w) : Prop :=
  ∃ r', Steps p rules k r r' ∧ r'.advance p rules = .ended ending last

/-- A run that ends in a failure stands at the instruction that fails. -/
theorem EndsAfter.exec_of_failed {k : Nat} {e : RunError} {last : Run w}
    (h : r.EndsAfter p rules k (.failed e) last) :
    ∃ i, ∃ m : Machine w, p.instructions[last.pc]? = some i ∧ last.machine = m.failedBy e ∧
      m.exec rules.policy i = .failed last.machine e := by
  obtain ⟨r', -, ha⟩ := h
  obtain ⟨i, hi, he⟩ := exec_of_advance_failed ha
  rw [← pc_of_advance_ended ha] at hi
  exact ⟨i, r'.machine, hi, Machine.eq_of_exec_failed he, he⟩

theorem Steps.endsAfter {j k : Nat} {ending : Ending} {last : Run w} (h : Steps p rules j r r')
    (h' : r'.EndsAfter p rules k ending last) : r.EndsAfter p rules (j + k) ending last := by
  obtain ⟨r₁, hs, ha⟩ := h'
  exact ⟨r₁, h.trans hs, ha⟩

theorem EndsAfter.executed {k : Nat} {ending : Ending} {last : Run w}
    (h : r.EndsAfter p rules k ending last) : last.executed = r.executed + k := by
  obtain ⟨r', hs, ha⟩ := h
  rw [executed_of_ended ha, hs.executed]

/-- **A run ends within some rounds** exactly if it ends after fewer executed instructions. -/
theorem toEnd_eq_some_iff {rounds : Nat} {ending : Ending} {last : Run w} :
    toEnd p rules rounds r = some (ending, last) ↔
      ∃ k < rounds, r.EndsAfter p rules k ending last := by
  constructor
  · intro h
    -- Induction on the rounds given: a round that goes on is one executed instruction.
    induction rounds generalizing r with
    | zero => cases h
    | succ rounds ih =>
      unfold toEnd at h
      split at h
      next r' ha =>
        obtain ⟨k, hk, he⟩ := ih h
        refine ⟨k + 1, Nat.succ_lt_succ hk, ?_⟩
        rw [Nat.add_comm]
        exact (Steps.single ha).endsAfter he
      next ending' r' ha =>
        obtain ⟨rfl, rfl⟩ := Prod.mk.inj (Option.some.inj h)
        exact ⟨0, Nat.succ_pos _, r, .refl r, ha⟩
  · rintro ⟨k, hk, r', hs, ha⟩
    -- The rounds that go on are used up, and the next one ends the run.
    obtain ⟨more, rfl⟩ : ∃ more, rounds = more + 1 + k := ⟨rounds - k - 1, by omega⟩
    rw [hs.toEnd_add, toEnd, ha]

/-- **A run does not end within some rounds** exactly if it goes on for all of them. -/
theorem toEnd_eq_none_iff {rounds : Nat} :
    toEnd p rules rounds r = none ↔ ∃ s, Steps p rules rounds r s := by
  induction rounds generalizing r with
  | zero => exact ⟨fun _ => ⟨r, .refl r⟩, fun _ => rfl⟩
  | succ rounds ih =>
    rw [toEnd]
    cases ha : r.advance p rules with
    | running r' =>
      rw [ih]
      constructor
      · rintro ⟨s, hs⟩
        exact ⟨s, .head ha hs⟩
      · rintro ⟨s, hs⟩
        cases hs with
        | head first rest =>
          obtain rfl := Next.running.inj (ha.symm.trans first)
          exact ⟨s, rest⟩
    | ended ending r' =>
      refine ⟨fun h => (by cases h), ?_⟩
      rintro ⟨s, hs⟩
      cases hs with
      | head first _ => cases ha.symm.trans first

/-- **An execution is the end of a run**: rounds that go on, the round that ends the run, and the
flush of the output. -/
theorem exists_steps_of_execute {rounds : Nat} {m : Machine w} {x : Execution w}
    (h : p.execute rules rounds m = some x) :
    ∃ k s ending last, Steps p rules k (.start m) s ∧ s.advance p rules = .ended ending last ∧
      x = .close ending last := by
  obtain ⟨⟨ending, last⟩, hend, rfl⟩ := Option.map_eq_some_iff.mp h
  obtain ⟨k, -, s, hs, ha⟩ := toEnd_eq_some_iff.mp hend
  exact ⟨k, s, ending, last, hs, ha, rfl⟩

/-- A run ends in one way only. -/
theorem EndsAfter.unique {j k : Nat} {ending ending' : Ending} {last last' : Run w}
    (h : r.EndsAfter p rules j ending last) (h' : r.EndsAfter p rules k ending' last') :
    j = k ∧ ending = ending' ∧ last = last' := by
  -- Both are the ending within a number of rounds that is enough for either.
  have e := toEnd_eq_some_iff.mpr ⟨j, (by omega : j < j + k + 1), h⟩
  have e' := toEnd_eq_some_iff.mpr ⟨k, (by omega : k < j + k + 1), h'⟩
  obtain ⟨rfl, rfl⟩ := Prod.mk.inj (Option.some.inj (e.symm.trans e'))
  have hj := h.executed
  have hk := h'.executed
  exact ⟨by omega, rfl, rfl⟩

end Run

end Brainfuck
