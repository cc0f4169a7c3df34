import Brainfuck.Proofs.Counts
import Brainfuck.Proofs.Endings

/-!
# The log of a run

A run logs one event for each stage on its way to being executed, with counts that balance. Then its
instructions log every move off the tape that the policy recovered from and every read that failed,
in the order of their execution. It ends with an event if it was asked to stop, and with another one
if it completes.

## Main definitions

* `Instruction.entry?`: what an instruction logs
* `Ending.entries`, `Transcript.closing`: what the end of a run logs
* `Runner.Logs`: what a run logs from its execution on
* `Runner.LogOf`: what is logged of a run, stage by stage

## Main results

* `Machine.event_of_exec_done`: an instruction logs what the machines before and after it tell
* `Run.Steps.events`: the log of a run is the trail of its entries
* `Runner.recovered_of_logs`: a move is recovered from under a policy that is not fatal
* `Runner.run_log`: the log of a run
-/

namespace Brainfuck

variable {w : Width}

/-! ## Entries of instructions -/

/-- The direction in which an operator moves the pointer. -/
def Operator.direction? : Operator → Option Direction
  | right => some .right
  | left => some .left
  | _ => none

/-- What an instruction logs that takes the machine `m` to `m'`: a move off the tape, with the
pointer that the policy placed, or a read that failed. -/
def Instruction.entry? (policy : BoundsPolicy) (i : Instruction) (m m' : Machine w) :
    Option Event :=
  match i.op.direction? with
  | some d =>
    if OnTape m.tape.capacity (m.tape.pointer + d.offset i.count) then none
    else some (.recovered policy ⟨m.tape.pointer, d⟩ m'.tape.pointer)
  | none => if i.op = .input then m.input.read.failure.map .readFailed else none

theorem Operator.direction?_operator (d : Direction) : d.operator.direction? = some d := by
  cases d <;> rfl

theorem Operator.direction?_eq_some_iff {op : Operator} {d : Direction} :
    op.direction? = some d ↔ op = d.operator := by
  constructor
  · intro h
    cases op <;> simp only [direction?, Option.some.injEq, reduceCtorEq] at h <;> subst h <;> rfl
  · rintro rfl
    exact direction?_operator d

namespace Machine

variable {policy : BoundsPolicy} {m m' : Machine w} {event : Option Event} {i : Instruction}

theorem event_of_move_done {d : Direction} {n : Nat} (h : m.move policy d n = .done m' event) :
    event =
      if OnTape m.tape.capacity (m.tape.pointer + d.offset n) then none
      else some (.recovered policy ⟨m.tape.pointer, d⟩ m'.tape.pointer) := by
  unfold move at h
  rw [BoundsPolicy.move_eq] at h
  cases hl : policy.land? m.tape.capacity m.tape.pointer (d.offset n) with
  | none =>
    rw [hl] at h
    cases h
  | some index =>
    rw [hl] at h
    obtain ⟨rfl, rfl⟩ := Effect.done.inj h
    split <;> rfl

theorem event_of_print_done (h : m.print = .done m' event) : event = none := by
  rw [print_of_accept (accept_of_print_done h)] at h
  exact (Effect.done.inj h).2.symm

/-- **An instruction logs** what the machines before and after it tell. -/
theorem event_of_exec_done (h : m.exec policy i = .done m' event) :
    event = i.entry? policy m m' := by
  unfold Instruction.entry?
  cases does_of_exec_done h with
  | move hop h =>
    rw [hop, Operator.direction?_operator]
    exact event_of_move_done h
  | read hop h =>
    rw [hop]
    exact (Effect.done.inj h).2.symm
  | print hop h =>
    rw [hop]
    exact event_of_print_done h
  | change hmove hread =>
    have hd : i.op.direction? = none := Option.eq_none_iff_forall_ne_some.mpr fun d hd =>
      hmove d (Operator.direction?_eq_some_iff.mp hd)
    rw [hd]
    exact (if_neg hread).symm

/-- A move off the tape is done under a policy that is not fatal alone. -/
theorem ne_fatal_of_exec_done {e : BoundsError} {policy' : BoundsPolicy} {pointer : Nat}
    (h : m.exec policy i = .done m' event)
    (he : i.entry? policy m m' = some (.recovered policy' e pointer)) :
    policy' = policy ∧ policy ≠ .fatal ∧ pointer = m'.tape.pointer := by
  unfold Instruction.entry? at he
  cases hd : i.op.direction? with
  | some d =>
    rw [hd] at he
    dsimp only at he
    split at he
    · cases he
    next ht =>
      obtain ⟨rfl, -, rfl⟩ := Event.recovered.inj (Option.some.inj he)
      refine ⟨rfl, ?_, rfl⟩
      rintro rfl
      -- Under the fatal policy the move would have failed.
      rw [exec_of_op_eq_operator (Operator.direction?_eq_some_iff.mp hd),
        move_of_land?_eq_none (BoundsPolicy.land?_fatal_of_not_onTape ht)] at h
      cases h
  | none =>
    rw [hd] at he
    dsimp only at he
    split at he
    · obtain ⟨cause, -, hc⟩ := Option.map_eq_some_iff.mp he
      cases hc
    · cases he

end Machine

/-! ## The log of an execution -/

/-- What the end of a run logs: that it was asked to stop, and where. -/
def Ending.entries (executed : Nat) : Ending → List Event
  | .completed (.cancelled pc) => [.cancelled pc executed]
  | _ => []

namespace Run

variable {p : Program} {rules : Rules} {r s last : Run w} {k : Nat}

/-- **The log of a run is the trail of its entries.** -/
theorem Steps.events (h : Steps p rules k r s) :
    s.events.toList = r.events.toList ++ r.trail p rules (Instruction.entry? rules.policy) k := by
  refine h.trail (g := fun r => r.events.toList) fun {r next i} hi ha => ?_
  cases round_of_advance ha with
  | @done i' m event pc hi' _ he _ =>
    obtain rfl := Option.some.inj (hi.symm.trans hi')
    rw [← Machine.event_of_exec_done he]
    cases event with
    | none => exact (List.append_nil _).symm
    | some event => exact Array.toList_push

theorem events_of_advance_ended {ending : Ending} (h : s.advance p rules = .ended ending last) :
    last.events.toList = s.events.toList ++ ending.entries s.executed := by
  cases round_of_advance h with
  | finished => exact (List.append_nil _).symm
  | cancelled => exact Array.toList_push
  | failed => exact (List.append_nil _).symm

end Run

/-- **The log of an execution**: the entries of the instructions that were done, and that of the
end. -/
theorem Program.exists_leftBy_events {p : Program} {rules : Rules} {rounds : Nat} {m : Machine w}
    {x : Execution w} (hx : p.execute rules rounds m = some x) :
    ∃ k s ending, x.LeftBy p rules m k s ending ∧
      x.events.toList =
        (Run.start m).trail p rules (Instruction.entry? rules.policy) k ++ ending.entries k := by
  obtain ⟨k, s, ending, last, hs, ha, rfl⟩ := Run.exists_steps_of_execute hx
  refine ⟨k, s, ending, Execution.leftBy_close hs ha, ?_⟩
  have hlast := Run.events_of_advance_ended ha
  rw [hs.events, hs.executed, Nat.add_comm] at hlast
  exact hlast

/-! ## The log of a run -/

/-- What a transcript logs last: that the run completed, if it did. -/
def Transcript.closing (t : Transcript) : List Event :=
  match t.result with
  | .ok report =>
    [.completed report.instructions.length report.outcome.executed report.outcome.completion]
  | .error _ => []

namespace Runner

variable {r : Runner} {source : String} {input : Input} {output : Output}

/-- **What a run logs from its execution on.** -/
inductive Logs (r : Runner) (source : String) (input : Input) (output : Output) (t : Transcript) :
    List Event → Prop
  /-- Nothing, if the tape is too large to be laid out. -/
  | unfit (fits : ¬ r.config.Fits) (h : t.result = .error (.run (.fault .allocation))) :
      Logs r source input output t []
  /-- The entries of the `k` instructions that are done, in their order, and then those of the
  end. What is reported agrees with them. -/
  | executed {p : Program} {tape : Tape r.config.width} {k : Nat} {s : Run r.config.width}
      {ending : Ending} (hp : p.instructions.toList = Source.instructions source)
      (ht : r.config.tape = .ok tape)
      (steps : Run.Steps p r.rules k (.start ⟨tape, input, output, r.cancelled⟩) s)
      (halts : s.Halts p r.rules ending)
      (ok : ∀ report, t.result = .ok report →
        report.instructions = Source.instructions source ∧
        ending = .completed report.outcome.completion ∧ report.outcome.executed = k) :
      Logs r source input output t
        ((Run.start ⟨tape, input, output, r.cancelled⟩).trail p r.rules
            (Instruction.entry? r.config.policy) k ++
          ending.entries k ++ t.closing)

theorem events_conclude {w : Width} (p : Program) (events : List Event) (x : Execution w) :
    (conclude p events x).events = events ++ x.events.toList ++ (conclude p events x).closing := by
  unfold conclude Transcript.closing
  cases x.result <;> rfl

theorem result_conclude_eq_ok_iff {w : Width} {p : Program} {events : List Event}
    {x : Execution w} {report : Report} :
    (conclude p events x).result = .ok report ↔
      x.result = .ok report.outcome ∧ report.instructions = p.instructions.toList := by
  obtain ⟨code, o⟩ := report
  unfold conclude
  cases x.result <;> simp [eq_comm, and_comm]

/-- **An executed run logs** what its instructions and its end do. -/
theorem logs_of_execute {p : Program} {tape : Tape r.config.width} {rounds : Nat}
    {x : Execution r.config.width} (hp : p.instructions.toList = Source.instructions source)
    (ht : r.config.tape = .ok tape)
    (hx : p.execute r.rules rounds ⟨tape, input, output, r.cancelled⟩ = some x)
    (events : List Event) :
    ∃ log, (conclude p events x).events = events ++ log ∧
      r.Logs source input output (conclude p events x) log := by
  obtain ⟨k, s, ending, hleft, hevents⟩ := p.exists_leftBy_events hx
  refine ⟨_, ?_, .executed hp ht hleft.steps hleft.halts fun report hr => ?_⟩
  · rw [events_conclude, hevents]
    simp only [List.append_assoc]
    rfl
  · obtain ⟨ho, hcode⟩ := result_conclude_eq_ok_iff.mp hr
    obtain ⟨hending, -, hk⟩ := (hleft.ok_iff _).mp ho
    exact ⟨hcode.trans hp, hending, hk.symm⟩

/-- **A move that was recovered from** is logged under the policy of the run, which is not fatal
then, and with a pointer on the tape. -/
theorem recovered_of_logs {t : Transcript} {log : List Event} {policy : BoundsPolicy}
    {e : BoundsError} {pointer : Nat} (h : r.Logs source input output t log)
    (hmem : .recovered policy e pointer ∈ log) :
    policy = r.config.policy ∧ policy ≠ .fatal ∧ pointer < r.config.capacity := by
  cases h with
  | unfit => cases hmem
  | executed hp ht =>
    rcases List.mem_append.mp hmem with hmem | hmem
    · rcases List.mem_append.mp hmem with hmem | hmem
      · obtain ⟨j, s, next, i, hs, hi, ha, he⟩ := Run.exists_of_mem_trail hmem
        obtain ⟨i', event, hi', hexec, -⟩ := Run.exec_of_advance_running ha
        obtain rfl := Option.some.inj (hi.symm.trans hi')
        obtain ⟨rfl, hne, rfl⟩ := Machine.ne_fatal_of_exec_done hexec he
        refine ⟨rfl, hne, ?_⟩
        rw [← capacity_of_tape ht, ← ((hs.reaches .start).running ha).capacity_eq]
        exact next.machine.tape.pointer_lt_capacity
      · -- The end of a run logs no move, and neither does a run that completes.
        unfold Ending.entries at hmem
        split at hmem
        · cases List.mem_singleton.mp hmem
        · cases hmem
    · unfold Transcript.closing at hmem
      split at hmem
      · cases List.mem_singleton.mp hmem
      · cases hmem

/-- **What is logged of a run, stage by stage.** -/
structure LogOf (r : Runner) (source : String) (input : Input) (output : Output) (t : Transcript)
    (operators skipped cleared total loops : Nat) : Prop where
  /-- Without cells nothing is logged. -/
  rejected : r.config.capacity = 0 → t.events = [] ∧ t.result = .error (.config .noCells)
  /-- If the loops do not balance, the text and the optimized program are logged alone. -/
  unresolved : 0 < r.config.capacity → ¬ Balanced (Source.operators source) →
    t.events = [.tokenized operators skipped, .optimized operators cleared total] ∧
      ∃ e, t.result = .error (.loops e)
  /-- Otherwise the loops are logged, too, and then the execution. -/
  resolved : 0 < r.config.capacity → Balanced (Source.operators source) →
    ∃ log, t.events = [.tokenized operators skipped, .optimized operators cleared total,
      .resolved total loops] ++ log ∧ r.Logs source input output t log
  /-- A move that is recovered from leaves the pointer on the tape. -/
  recovered : ∀ policy e pointer, .recovered policy e pointer ∈ t.events →
    policy = r.config.policy ∧ policy ≠ .fatal ∧ pointer < r.config.capacity

/-- A run whose text makes a program is logged stage by stage. -/
theorem logOf_of_logs {p : Program} {t : Transcript} {log : List Event}
    (hpos : 0 < r.config.capacity)
    (hp : Program.ofInstructions (Source.instructions source) = .ok p)
    (ht : t.events = compiled source p ++ log) (h : r.Logs source input output t log) :
    r.LogOf source input output t (Source.operators source).length (Source.comments source)
      (((Source.operators source).length - (fuseClearLoops (Source.operators source)).length) / 2)
      (optimize (Source.operators source)).length
      (((Source.instructions source).map Instruction.op).count .loopStart) := by
  -- The program has a table, so that the loops of the text balance.
  have hcode := Program.toList_of_ofInstructions hp
  have hresolved := p.resolved
  rw [hcode] at hresolved
  have hbalanced := JumpTable.exists_resolve_optimize_iff.mp ⟨_, hresolved⟩
  rw [compiled, Event.ofProgram_eq hcode] at ht
  refine ⟨fun hzero => absurd hzero (Nat.ne_of_gt hpos), fun _ hb => absurd hbalanced hb,
    fun _ _ => ⟨log, ht, h⟩, fun policy e pointer hmem => recovered_of_logs (e := e) h ?_⟩
  rw [ht] at hmem
  simpa [Event.ofSource, Event.ofOptimize] using hmem

/-- A run that ends is logged stage by stage, with the counts of its text. -/
theorem logOf_of_run {rounds : Nat} {t : Transcript}
    (h : r.run rounds source input output = some t) :
    r.LogOf source input output t (Source.operators source).length (Source.comments source)
      (((Source.operators source).length - (fuseClearLoops (Source.operators source)).length) / 2)
      (optimize (Source.operators source)).length
      (((Source.instructions source).map Instruction.op).count .loopStart) := by
  cases endsIn_of_run h with
  | refused hprepares =>
    cases hprepares with
    | rejected hzero =>
      exact ⟨fun _ => ⟨rfl, rfl⟩, fun hpos => absurd hzero (Nat.ne_of_gt hpos),
        fun hpos => absurd hzero (Nat.ne_of_gt hpos), fun _ _ _ hmem => nomatch hmem⟩
    | unresolved hpos hr =>
      refine ⟨fun hzero => absurd hzero (Nat.ne_of_gt hpos), fun _ _ => ⟨rfl, _, rfl⟩,
        fun _ hb => absurd hr (JumpTable.resolve_ne_error_of_balanced hb _), fun _ _ _ hmem => ?_⟩
      simp [refuse, Event.ofSource, Event.ofOptimize] at hmem
    | unfit hpos fits hp =>
      exact logOf_of_logs hpos hp (List.append_nil _).symm (.unfit fits rfl)
  | executed hprepares hx =>
    cases hprepares with
    | ready hpos hp ht =>
      obtain ⟨log, hevents, hlogs⟩ :=
        logs_of_execute (Program.toList_of_ofInstructions hp) ht hx (compiled source _)
      exact logOf_of_logs hpos hp hevents hlogs

/-- **The log of a run.** Its stages are logged with the counts of the text, then what its
instructions do in the order of their execution, then that it was asked to stop, if it was, and then
that it completed, if it did. A run comes to an end exactly if its execution does, and the execution
logs its instructions as they are done whether or not it comes to an end. -/
theorem run_log (r : Runner) (source : String) (input : Input) (output : Output) :
    ∃ operators skipped cleared total loops,
      Source.Counts source operators skipped cleared total loops ∧
      (∀ rounds t, r.run rounds source input output = some t →
        r.LogOf source input output t operators skipped cleared total loops) ∧
      (∀ rounds, (∃ t, r.run rounds source input output = some t) ↔
        ∀ (p : Program) (tape : Tape r.config.width),
          p.instructions.toList = Source.instructions source → r.config.tape = .ok tape →
          ∃ x, p.execute r.rules rounds ⟨tape, input, output, r.cancelled⟩ = some x) ∧
      ∀ p tape k s, p.instructions.toList = Source.instructions source → r.config.tape = .ok tape →
        Run.Steps p r.rules k (.start ⟨tape, input, output, r.cancelled⟩) s →
        s.events.toList = (Run.start ⟨tape, input, output, r.cancelled⟩).trail p r.rules
          (Instruction.entry? r.config.policy) k :=
  ⟨_, _, _, _, _, Source.counts source, fun _ _ => logOf_of_run, fun _ => exists_run_iff,
    fun _ _ _ _ _ _ hs => hs.events⟩

/-- Around a tape of two cells, and asked to stop by a read that fails. -/
theorem run_log_cancelled :
    ∃ r t, r = Runner.mk ⟨.byte, 2, .wrap⟩ false true ∧
      r.run 4 "x[-]<,+" [.interrupted, .cancel, .failure "no tty"] (.ofDevice .unlimited) = some t ∧
      t.events = [.tokenized 6 1, .optimized 6 1 4, .resolved 4 0, .recovered .wrap ⟨0, .left⟩ 1,
        .readFailed "no tty", .cancelled 3 3, .completed 4 3 (.cancelled 3)] ∧
      ∃ operators skipped cleared total loops,
        Source.Counts "x[-]<,+" operators skipped cleared total loops ∧
        r.LogOf "x[-]<,+" [.interrupted, .cancel, .failure "no tty"] (.ofDevice .unlimited) t
          operators skipped cleared total loops := by
  obtain ⟨_, _, _, _, _, hcounts, hlog, -, -⟩ := run_log (Runner.mk ⟨.byte, 2, .wrap⟩ false true)
    "x[-]<,+" [.interrupted, .cancel, .failure "no tty"] (.ofDevice .unlimited)
  exact ⟨_, _, rfl, rfl, rfl, _, _, _, _, _, hcounts, hlog 4 _ rfl⟩

end Runner

end Brainfuck
