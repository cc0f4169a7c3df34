import Brainfuck.Proofs.Steps

/-!
# Two runs of one program

Two runs of a program, on machines that need not be of the same width, can be compared round by
round. If what one round does to related runs is known, then the one run ends where the other does
and in a related state, after as many rounds. The comparison may stop where the first run ends in a
way that is excused, of which nothing is said. If nothing is excused, it goes both ways, and the
program runs alike on the two machines.

## Main definitions

* `Run.Next.Alike`: two rounds come to the same, in related states
* `Run.Lockstep`: related runs come to the same in every round
* `Run.Alike`: two runs differ in their machines and their events alone
* `Machine.Effect.Alike`: two instructions come to the same, on related machines
* `Program.RunsAlike`: a program goes through related states on two machines and ends on both or on
  neither

## Main results

* `Run.Lockstep.toEnd`: related runs end in the same way within the same rounds
* `Run.Lockstep.exists_excused`: a run that leaves the relation does so behind an excused ending
* `Run.Lockstep.runsAlike`: if nothing is excused, the program runs alike
* `Run.Alike.advance`: rounds come to the same if their instructions do
-/

namespace Brainfuck

variable {w w' : Width}

/-- Two instructions come to the same: both are done, or both fail with one error, and the machines
afterwards are related. What they log may differ. -/
inductive Machine.Effect.Alike (M : Machine w → Machine w' → Prop) : Effect w → Effect w' → Prop
  | done {m : Machine w} {m' : Machine w'} {event event' : Option Event} (h : M m m') :
      Alike M (.done m event) (.done m' event')
  | failed {m : Machine w} {m' : Machine w'} (e : RunError) (h : M m m') :
      Alike M (.failed m e) (.failed m' e)

theorem Machine.Effect.Alike.mono {M N : Machine w → Machine w' → Prop}
    (hMN : ∀ m m', M m m' → N m m') {x : Effect w} {x' : Effect w'} (h : Alike M x x') :
    Alike N x x' := by
  cases h with
  | done h => exact .done (hMN _ _ h)
  | failed e h => exact .failed e (hMN _ _ h)

namespace Run

/-- Two rounds come to the same: both go on, or both end in one way, and the states afterwards are
related. -/
inductive Next.Alike (R : Run w → Run w' → Prop) : Next w → Next w' → Prop
  | running {r : Run w} {r' : Run w'} (h : R r r') : Alike R (.running r) (.running r')
  | ended {r : Run w} {r' : Run w'} (ending : Ending) (h : R r r') :
      Alike R (.ended ending r) (.ended ending r')

theorem Next.Alike.flip {R : Run w → Run w' → Prop} {next : Next w} {next' : Next w'}
    (h : Next.Alike R next next') : Next.Alike (flip R) next' next := by
  cases h with
  | running h => exact .running h
  | ended ending h => exact .ended ending h

/-- **Related runs come to the same in every round**, unless the first one ends in an excused way
there. -/
def Lockstep (p : Program) (rules rules' : Rules) (excused : Ending → Prop)
    (R : Run w → Run w' → Prop) : Prop :=
  ∀ ⦃r r'⦄, R r r' →
    (∃ ending last, r.advance p rules = .ended ending last ∧ excused ending) ∨
      Next.Alike R (r.advance p rules) (r'.advance p rules')

variable {p : Program} {rules rules' : Rules} {excused : Ending → Prop} {R : Run w → Run w' → Prop}
  {r last : Run w} {r' : Run w'}

namespace Lockstep

theorem running {next : Run w} (h : Lockstep p rules rules' excused R) (hr : R r r')
    (ha : r.advance p rules = .running next) :
    ∃ next', r'.advance p rules' = .running next' ∧ R next next' := by
  rcases h hr with ⟨ending, last, he, -⟩ | hn
  · cases ha.symm.trans he
  · rw [ha] at hn
    cases hn' : r'.advance p rules' with
    | running next' =>
      rw [hn'] at hn
      cases hn with
      | running hnext => exact ⟨next', rfl, hnext⟩
    | ended ending last =>
      rw [hn'] at hn
      cases hn

theorem ended {ending : Ending} (h : Lockstep p rules rules' excused R) (hr : R r r')
    (ha : r.advance p rules = .ended ending last) (hx : ¬ excused ending) :
    ∃ last', r'.advance p rules' = .ended ending last' ∧ R last last' := by
  rcases h hr with ⟨ending', last', he, hexcused⟩ | hn
  · obtain ⟨rfl, -⟩ := Next.ended.inj (ha.symm.trans he)
    exact absurd hexcused hx
  · rw [ha] at hn
    cases hn' : r'.advance p rules' with
    | running next =>
      rw [hn'] at hn
      cases hn
    | ended ending' last' =>
      rw [hn'] at hn
      cases hn with
      | ended _ hlast => exact ⟨last', rfl, hlast⟩

/-- Rounds that go on do so in both runs. -/
theorem steps {k : Nat} {next : Run w} (h : Lockstep p rules rules' excused R) (hr : R r r')
    (hs : Steps p rules k r next) : ∃ next', Steps p rules' k r' next' ∧ R next next' := by
  -- Induction on the rounds of the first run, each of which the second one follows.
  induction hs generalizing r' with
  | refl r => exact ⟨r', .refl r', hr⟩
  | head first _ ih =>
    obtain ⟨next', first', hnext⟩ := h.running hr first
    obtain ⟨last', rest', hlast⟩ := ih hnext
    exact ⟨last', .head first' rest', hlast⟩

theorem endsAfter {k : Nat} {ending : Ending} (h : Lockstep p rules rules' excused R) (hr : R r r')
    (he : r.EndsAfter p rules k ending last) (hx : ¬ excused ending) :
    ∃ last', r'.EndsAfter p rules' k ending last' ∧ R last last' := by
  obtain ⟨before, hs, ha⟩ := he
  obtain ⟨before', hs', hbefore⟩ := h.steps hr hs
  obtain ⟨last', ha', hlast⟩ := h.ended hbefore ha hx
  exact ⟨last', ⟨before', hs', ha'⟩, hlast⟩

/-- **Related runs end in the same way** within the same rounds, unless the way of the first one is
excused. -/
theorem toEnd {rounds : Nat} {ending : Ending} (h : Lockstep p rules rules' excused R)
    (hr : R r r') (he : r.toEnd p rules rounds = some (ending, last)) (hx : ¬ excused ending) :
    ∃ last', r'.toEnd p rules' rounds = some (ending, last') ∧ R last last' := by
  obtain ⟨k, hk, hends⟩ := toEnd_eq_some_iff.mp he
  obtain ⟨last', hends', hlast⟩ := h.endsAfter hr hends hx
  exact ⟨last', toEnd_eq_some_iff.mpr ⟨k, hk, hends'⟩, hlast⟩

/-- **A run that leaves the relation** does so behind an excused ending of the first run. -/
theorem exists_excused {k : Nat} {s' : Run w'} (h : Lockstep p rules rules' excused R)
    (hr : R r r') (hs : Steps p rules' k r' s') (hleft : ∀ s, ¬ R s s') :
    ∃ j before before' ending last, Steps p rules j r before ∧ Steps p rules' j r' before' ∧
      R before before' ∧ before.advance p rules = .ended ending last ∧ excused ending := by
  -- Induction on the rounds of the second run, which the first one goes along with until it ends.
  induction hs generalizing r with
  | refl r' => exact absurd hr (hleft r)
  | @head k r' next' s' first' _ ih =>
    rcases h hr with ⟨ending, last, ha, hx⟩ | hn
    · exact ⟨0, r, r', ending, last, .refl r, .refl r', hr, ha, hx⟩
    · rw [first'] at hn
      cases ha : r.advance p rules with
      | running next =>
        rw [ha] at hn
        cases hn with
        | running hnext =>
          obtain ⟨j, before, before', ending, last, hs, hs', hrest⟩ := ih hnext hleft
          exact ⟨j + 1, before, before', ending, last, .head ha hs, .head first' hs', hrest⟩
      | ended ending last =>
        rw [ha] at hn
        cases hn

/-- If nothing is excused, the comparison goes the other way as well. -/
theorem flip (h : Lockstep p rules rules' (fun _ => False) R) :
    Lockstep p rules' rules (fun _ => False) (flip R) := by
  intro r' r hr
  rcases h hr with ⟨_, _, _, hx⟩ | hn
  · exact hx.elim
  · exact Or.inr hn.flip

end Lockstep

/-- Rounds in which a property of the first run is kept as well. -/
theorem Next.Alike.and_throughout {C : Nat → Machine w → Prop} {next' : Next w'}
    (hC : ∀ pc m e, C pc m → C pc (Machine.failedBy e m))
    (h : Next.Alike R (r.advance p rules) next') (hr : Throughout p rules C r) :
    Next.Alike (fun r r' => R r r' ∧ Throughout p rules C r) (r.advance p rules) next' := by
  cases ha : r.advance p rules with
  | running next =>
    rw [ha] at h
    cases h with
    | running hnext => exact .running ⟨hnext, hr.running ha⟩
  | ended ending last =>
    rw [ha] at h
    cases h with
    | ended _ hlast => exact .ended ending ⟨hlast, hr.ended hC ha⟩

/-- Two runs are at one instruction, after as many executed ones, on related machines. -/
structure Alike (M : Machine w → Machine w' → Prop) (r : Run w) (r' : Run w') : Prop where
  pc : r'.pc = r.pc
  executed : r'.executed = r.executed
  machine : M r.machine r'.machine

theorem alike_start {M : Machine w → Machine w' → Prop} {m : Machine w} {m' : Machine w'}
    (h : M m m') : Alike M (.start m) (.start m') :=
  ⟨rfl, rfl, h⟩

/-- Runs whose current cells agree on being zero agree on where brackets jump. -/
theorem jumps_congr (h : r'.machine.tape.isZero = r.machine.tape.isZero) (op : Operator) :
    r'.jumps op = r.jumps op := by
  cases op with
  | loopStart => exact h
  | loopEnd => exact congrArg not h
  | _ => rfl

/-- **Rounds come to the same** if their instructions do: if the runs agree on whether to stop and,
unless they stop, brackets jump in both or in neither and what the instruction comes to is alike or
an excused failure. -/
theorem Alike.advance {M : Machine w → Machine w' → Prop} (h : Alike M r r')
    (hstops : rules'.stops r'.machine = rules.stops r.machine)
    (hjumps : ∀ i, p.instructions[r.pc]? = some i → rules.stops r.machine = false →
      r'.jumps i.op = r.jumps i.op)
    (hexec : ∀ i, p.instructions[r.pc]? = some i → rules.stops r.machine = false →
      (∃ m e, r.machine.exec rules.policy i = .failed m e ∧ excused (.failed e)) ∨
        Machine.Effect.Alike M (r.machine.exec rules.policy i)
          (r'.machine.exec rules'.policy i)) :
    (∃ ending last, r.advance p rules = .ended ending last ∧ excused ending) ∨
      Next.Alike (Alike M) (r.advance p rules) (r'.advance p rules') := by
  have hround := round_advance p rules r
  generalize r.advance p rules = next at hround ⊢
  cases hround with
  | finished hi =>
    rw [← h.pc] at hi
    rw [advance_of_none hi]
    exact Or.inr (.ended _ h)
  | cancelled hi hs =>
    rw [← h.pc] at hi
    rw [advance_of_stops hi (hstops.trans hs), h.pc]
    exact Or.inr (.ended _ ⟨rfl, h.executed, h.machine⟩)
  | @done i m event pc hi hs he hn =>
    rcases hexec i hi hs with ⟨m', e, hfailed, -⟩ | heffect
    · cases he.symm.trans hfailed
    rw [he] at heffect
    generalize he' : r'.machine.exec rules'.policy i = effect at heffect
    cases heffect with
    | done hm =>
      -- Both go on where the bracket jumps to, or at the next index.
      have hn' : r'.next? p i = some pc := by
        rw [← hn, next?, next?, hjumps i hi hs, h.pc]
      rw [← h.pc] at hi
      rw [advance_of_done hi (hstops.trans hs) he' hn', h.executed]
      exact Or.inr (.running ⟨rfl, rfl, hm⟩)
  | @failed i e hi hs he =>
    rcases hexec i hi hs with ⟨m, e', hfailed, hexcused⟩ | heffect
    · obtain ⟨-, rfl⟩ := Machine.Effect.failed.inj (he.symm.trans hfailed)
      exact Or.inl ⟨_, _, rfl, hexcused⟩
    rw [he] at heffect
    generalize he' : r'.machine.exec rules'.policy i = effect at heffect
    cases heffect with
    | failed _ hm =>
      rw [← h.pc] at hi
      rw [advance_of_failed hi (hstops.trans hs) he']
      exact Or.inr (.ended _ ⟨h.pc, h.executed, hm⟩)

end Run

/-! ## Executing a program on two machines -/

/-- The flush at the end of a run respects a relation of machines: it fails on both or on neither,
and leaves them related. -/
def Machine.RespectsFlush (M : Machine w → Machine w' → Prop) : Prop :=
  ∀ ⦃m m'⦄, M m m' → m'.output.flush.failure = m.output.flush.failure ∧ M m.flush m'.flush

/-- Two executions have the same result and leave related machines. What they log may differ. -/
structure Execution.Alike (M : Machine w → Machine w' → Prop) (x : Execution w)
    (x' : Execution w') : Prop where
  result : x'.result = x.result
  machine : M x.machine x'.machine

/-- **A program runs alike on two machines.** After as many rounds both runs are at one instruction
and on related machines, and both executions end with one result or neither ends. -/
structure Program.RunsAlike (p : Program) (rules : Rules) (M : Machine w → Machine w' → Prop)
    (m : Machine w) (m' : Machine w') : Prop where
  forth : ∀ k s, Run.Steps p rules k (.start m) s →
    ∃ s', Run.Steps p rules k (.start m') s' ∧ Run.Alike M s s'
  back : ∀ k s', Run.Steps p rules k (.start m') s' →
    ∃ s, Run.Steps p rules k (.start m) s ∧ Run.Alike M s s'
  execute : ∀ rounds,
    Option.Rel (Execution.Alike M) (p.execute rules rounds m) (p.execute rules rounds m')

theorem Execution.alike_close {M : Machine w → Machine w' → Prop} (hM : Machine.RespectsFlush M)
    {r : Run w} {r' : Run w'} (h : Run.Alike M r r') (ending : Ending) :
    Execution.Alike M (close ending r) (close ending r') := by
  obtain ⟨hrefusal, hmachine⟩ := hM h.machine
  refine ⟨?_, hmachine⟩
  show report ending r'.executed r'.machine.output.flush.failure =
    report ending r.executed r.machine.output.flush.failure
  rw [h.executed, hrefusal]

/-- **If nothing is excused**, the program runs alike. -/
theorem Run.Lockstep.runsAlike {p : Program} {rules : Rules} {R : Run w → Run w' → Prop}
    {M : Machine w → Machine w' → Prop} {m : Machine w} {m' : Machine w'}
    (h : Lockstep p rules rules (fun _ => False) R) (hR : ∀ ⦃r r'⦄, R r r' → Alike M r r')
    (hM : Machine.RespectsFlush M) (hstart : R (.start m) (.start m')) :
    p.RunsAlike rules M m m' where
  forth := by
    intro k s hs
    obtain ⟨s', hs', hr⟩ := h.steps hstart hs
    exact ⟨s', hs', hR hr⟩
  back := by
    intro k s' hs'
    obtain ⟨s, hs, hr⟩ := h.flip.steps hstart hs'
    exact ⟨s, hs, hR hr⟩
  execute := by
    intro rounds
    rw [Program.execute, Program.execute]
    cases hend : (start m).toEnd p rules rounds with
    | some x =>
      obtain ⟨last', hend', hlast⟩ := h.toEnd hstart hend not_false
      rw [hend']
      exact .some (Execution.alike_close hM (hR hlast) x.1)
    | none =>
      -- The second run goes on as long as the first one does.
      obtain ⟨s, hs⟩ := toEnd_eq_none_iff.mp hend
      obtain ⟨s', hs', -⟩ := h.steps hstart hs
      rw [toEnd_eq_none_iff.mpr ⟨s', hs'⟩]
      exact .none

end Brainfuck
