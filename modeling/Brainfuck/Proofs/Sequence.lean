import Brainfuck.Proofs.Concatenation
import Brainfuck.Proofs.Outputs
import Brainfuck.Proofs.Related
import Brainfuck.Proofs.Safety

/-!
# Sequential composition

The concatenation of two programs runs as the first one until that is finished, and then as the
second one, with its indices moved. Executing the two one after the other flushes the output in
between as well. That makes no difference to a stream that ignores it, and may make any to one that
does not, such as a buffer that is emptied by a flush.

## Main definitions

* `Output.IgnoresFlush`: a stream that goes on after a flush as before
* `Machine.UpToFlushes`: machines that differ in their flushes alone
* `Run.Behind`: a run of the concatenation behind its first program
* `Execution.Behind`: what comes of it
* `Program.Continues`: the concatenation runs as the one program and then as the other
* `Program.FinishesTimes`: a program finishes so many times in a row

## Main results

* `Run.advance_append_of_lt`: a round of the first program
* `Run.Behind.advance`: a round of the second program
* `Program.continues_append`: the concatenation runs as the one program and then as the other
* `Program.execute_append`: programs compose sequentially, any number of times
-/

namespace Brainfuck

variable {w : Width}

/-! ## Machines up to flushes -/

namespace Output

/-- **A stream that ignores being flushed**: a flush does not fail and does not ask the run to stop,
and the stream goes on as before. -/
structure IgnoresFlush (o : Output) : Prop where
  failure : o.device.flushFailure = none
  cancels : o.device.cancelsFlush = false
  later : ∀ n, o.later n = o.device

theorem IgnoresFlush.of_extends {o o' : Output} (h : o.IgnoresFlush) (ho : o.Extends o') :
    o'.IgnoresFlush where
  failure := by rw [ho.device, h.failure]
  cancels := by rw [ho.device, h.cancels]
  later := by
    rw [ho.device, ho.later]
    exact h.later

theorem IgnoresFlush.flush {o : Output} (h : o.IgnoresFlush) : o.flush.output.IgnoresFlush where
  failure := (congrArg Device.flushFailure (h.later 0)).trans h.failure
  cancels := (congrArg Device.cancelsFlush (h.later 0)).trans h.cancels
  later := fun n => (h.later (n + 1)).trans (h.later 0).symm

/-- The same was written to the same stream. When it was flushed may differ. -/
structure UpToFlushes (o o' : Output) : Prop where
  device : o'.device = o.device
  later : o'.later = o.later
  written : o'.written = o.written
  refusals : o'.refusals = o.refusals

theorem UpToFlushes.symm {o o' : Output} (h : UpToFlushes o o') : UpToFlushes o' o :=
  ⟨h.device.symm, h.later.symm, h.written.symm, h.refusals.symm⟩

theorem UpToFlushes.trans {o o' o'' : Output} (h : UpToFlushes o o') (h' : UpToFlushes o' o'') :
    UpToFlushes o o'' :=
  ⟨h'.device.trans h.device, h'.later.trans h.later, h'.written.trans h.written,
    h'.refusals.trans h.refusals⟩

theorem UpToFlushes.write_alike {o o' : Output} (h : UpToFlushes o o') (b : UInt8) :
    Writing.Alike UpToFlushes (o.write b) (o'.write b) := by
  have hanswer : o'.device.answer o'.written.size = o.device.answer o.written.size := by
    rw [h.device, h.written]
  cases hc : (o.device.answer o.written.size).refusal? with
  | none =>
    have ha := WriteAnswer.refusal?_eq_none_iff.mp hc
    rw [write_of_accept ha, write_of_accept (hanswer.trans ha), h.device, h.written]
    exact .done ⟨rfl, h.later, rfl, h.refusals⟩ _
  | some cause =>
    rw [write_of_refusal? hc, write_of_refusal? ((congrArg _ hanswer).trans hc), h.device, h.written]
    refine .failed ⟨h.device, h.later, h.written, ?_⟩ cause _
    show o'.refusals ++ [o'.written.size] = o.refusals ++ [o.written.size]
    rw [h.refusals, h.written]

/-- Streams that agree so far go on in the same way after a flush. -/
theorem UpToFlushes.flush_alike {o o' : Output} (h : UpToFlushes o o') :
    Flushing.Alike UpToFlushes o.flush o'.flush where
  output :=
    { device := congrFun h.later 0
      later := funext fun n => congrFun h.later (n + 1)
      written := h.written
      refusals := h.refusals }
  failure := congrArg Device.flushFailure h.device
  cancelled := congrArg Device.cancelsFlush h.device

/-- **A flush makes no difference** to a stream that ignores it. -/
theorem IgnoresFlush.upToFlushes {o : Output} (h : o.IgnoresFlush) :
    UpToFlushes o.flush.output o where
  device := (h.later 0).symm
  later := funext fun n => (h.later n).trans (h.later (n + 1)).symm
  written := rfl
  refusals := rfl

end Output

namespace Machine

/-- Machines that differ in their flushes alone. -/
def UpToFlushes : Machine w → Machine w → Prop :=
  Related Eq Eq Output.UpToFlushes

variable {m m' m'' : Machine w}

theorem UpToFlushes.symm (h : m.UpToFlushes m') : m'.UpToFlushes m :=
  ⟨h.tape.symm, h.input.symm, h.output.symm, h.cancelled.symm⟩

theorem UpToFlushes.trans (h : m.UpToFlushes m') (h' : m'.UpToFlushes m'') : m.UpToFlushes m'' :=
  ⟨h.tape.trans h'.tape, h.input.trans h'.input, h.output.trans h'.output,
    h'.cancelled.trans h.cancelled⟩

theorem respectsFlush_upToFlushes : RespectsFlush (UpToFlushes : Machine w → Machine w → Prop) :=
  respectsFlush_related fun _ _ ho => ho.flush_alike

/-- **A flush makes no difference** to a machine whose output ignores it. -/
theorem upToFlushes_flush (h : m.output.IgnoresFlush) : m.flush.UpToFlushes m where
  tape := rfl
  input := rfl
  output := h.upToFlushes
  cancelled := by
    show m.cancelled = (m.cancelled || m.output.device.cancelsFlush)
    rw [h.cancels, Bool.or_false]

theorem UpToFlushes.exec (h : m.UpToFlushes m') (policy : BoundsPolicy) (i : Instruction) :
    Effect.Alike UpToFlushes (m.exec policy i) (m'.exec policy i) :=
  exec_of_related Tape.respectsCells_eq Input.respectsReads_eq h
    (fun d _ => move_of_related Tape.respectsPlaces_eq h policy d i.count)
    (fun _ b => h.output.write_alike b)

end Machine

/-! ## Endings behind a program -/

/-- How a run completes behind `n` instructions. -/
def Completion.behind (n : Nat) : Completion → Completion
  | finished => finished
  | cancelled pc => cancelled (n + pc)

/-- What is reported behind `n` instructions, of which `k` were executed in all. -/
def Outcome.behind (n k : Nat) (o : Outcome) : Outcome :=
  ⟨o.completion.behind n, k + o.executed⟩

/-- How a run ends behind `n` instructions. -/
def Ending.behind (n : Nat) : Ending → Ending
  | completed completion => completed (completion.behind n)
  | failed e => failed e

/-- The execution `y` behind the program `p`, which executed `k` instructions, is `z`. -/
structure Execution.Behind (p : Program) (k : Nat) (y z : Execution w) : Prop where
  result : z.result = y.result.map (Outcome.behind p.size k)
  machine : y.machine.UpToFlushes z.machine

theorem Execution.report_behind (n k executed : Nat) (ending : Ending) (refusal : Option String) :
    report (ending.behind n) (k + executed) refusal =
      (report ending executed refusal).map (Outcome.behind n k) := by
  cases ending with
  | failed e => rfl
  | completed completion => cases refusal <;> rfl

namespace Run

variable {p q : Program} {rules : Rules} {m : Machine w} {r r' s s' last : Run w} {k : Nat}

/-! ## The first program -/

theorem lt_size_of_running (h : r.advance p rules = .running r') : r.pc < p.size := by
  obtain ⟨i, event, hi, -, -⟩ := exec_of_advance_running h
  exact (Array.getElem?_eq_some_iff.mp hi).1

/-- **A round of the first program** is one of the concatenation. -/
theorem advance_append_of_lt (q : Program) (h : r.pc < p.size) :
    r.advance (p.append q) rules = r.advance p rules := by
  unfold advance step branch
  rw [Program.getElem?_append_of_lt h, Program.target?_append_of_lt h]

theorem Steps.append (q : Program) (h : Steps p rules k r s) :
    Steps (p.append q) rules k r s := by
  induction h with
  | refl r => exact .refl r
  | head first _ ih =>
    have hlt := lt_size_of_running first
    exact .head ((advance_append_of_lt q hlt).trans first) ih

/-- A run that ends before the end of its program ends there in the concatenation. -/
theorem EndsAfter.append (q : Program) {ending : Ending} (h : r.EndsAfter p rules k ending last)
    (hending : ending ≠ .completed .finished) : r.EndsAfter (p.append q) rules k ending last := by
  obtain ⟨before, hs, ha⟩ := h
  have hlt : before.pc < p.size := by
    cases round_of_advance ha with
    | finished => exact absurd rfl hending
    | cancelled hi => exact (Array.getElem?_eq_some_iff.mp hi).1
    | failed hi => exact (Array.getElem?_eq_some_iff.mp hi).1
  exact ⟨before, hs.append q, (advance_append_of_lt q hlt).trans ha⟩

/-- A run that finishes is at the end of its program. -/
theorem EndsAfter.steps_of_finished
    (h : (start m).EndsAfter p rules k (.completed .finished) last) :
    Steps p rules k (start m) last ∧ last.pc = p.size := by
  obtain ⟨before, hs, ha⟩ := h
  cases round_of_advance ha with
  | finished hi =>
    have hle := (hs.reaches .start).pc_le
    have hge : p.size ≤ last.pc := Array.getElem?_eq_none_iff.mp hi
    exact ⟨hs, Nat.le_antisymm hle hge⟩

/-! ## The second program -/

/-- The run `s` of the concatenation is where the run `r` of the second program is, behind the
program `p`, which executed `k` instructions. -/
structure Behind (p : Program) (k : Nat) (r s : Run w) : Prop where
  pc : s.pc = p.size + r.pc
  executed : s.executed = k + r.executed
  machine : r.machine.UpToFlushes s.machine

/-- What a round of the second program comes to behind the first. -/
inductive Next.Behind (p : Program) (k : Nat) : Next w → Next w → Prop
  | running {r s : Run w} (h : r.Behind p k s) : Behind p k (.running r) (.running s)
  | ended {r s : Run w} (ending : Ending) (h : r.Behind p k s) :
      Behind p k (.ended ending r) (.ended (ending.behind p.size) s)

namespace Behind

theorem next? (h : Behind p k r s) {i : Instruction} {pc : Nat} (hn : r.next? q i = some pc) :
    s.next? (p.append q) i = some (p.size + pc) := by
  have hjumps : s.jumps i.op = r.jumps i.op :=
    jumps_congr (congrArg Tape.isZero h.machine.tape.symm) i.op
  unfold Run.next? at hn ⊢
  rw [hjumps, h.pc, Program.target?_append_add]
  split at hn
  next hj =>
    obtain ⟨target, ht, rfl⟩ := Option.map_eq_some_iff.mp hn
    rw [if_pos hj, ht]
    rfl
  next hj =>
    obtain rfl := Option.some.inj hn
    rw [if_neg hj]
    rfl

/-- **A round of the second program** behind the first. -/
theorem advance (h : Behind p k r s) (q : Program) (rules : Rules) :
    Next.Behind p k (r.advance q rules) (s.advance (p.append q) rules) := by
  have hstops : rules.stops s.machine = rules.stops r.machine := by
    unfold Rules.stops
    rw [h.machine.cancelled]
  have hfind (pc : Nat) : (p.append q).instructions[p.size + pc]? = q.instructions[pc]? :=
    Program.getElem?_append_add
  have hround := round_advance q rules r
  generalize r.advance q rules = next at hround ⊢
  cases hround with
  | finished hi =>
    rw [← hfind, ← h.pc] at hi
    rw [advance_of_none hi]
    exact .ended _ h
  | cancelled hi hs =>
    rw [← hfind, ← h.pc] at hi
    rw [advance_of_stops hi (hstops.trans hs), h.pc]
    exact .ended (.completed (.cancelled r.pc)) ⟨rfl, h.executed, h.machine⟩
  | @done i m event pc hi hs he hn =>
    have heffect := h.machine.exec rules.policy i
    rw [he] at heffect
    generalize he' : s.machine.exec rules.policy i = effect at heffect
    cases heffect with
    | done hm =>
      have hn' := h.next? hn
      rw [← hfind, ← h.pc] at hi
      rw [advance_of_done hi (hstops.trans hs) he' hn', h.executed]
      exact .running ⟨rfl, rfl, hm⟩
  | @failed i e hi hs he =>
    have heffect := h.machine.exec rules.policy i
    rw [he] at heffect
    generalize he' : s.machine.exec rules.policy i = effect at heffect
    cases heffect with
    | failed _ hm =>
      rw [← hfind, ← h.pc] at hi
      rw [advance_of_failed hi (hstops.trans hs) he']
      exact .ended (.failed e) ⟨h.pc, h.executed, hm⟩

/-- **The second program runs to its end** behind the first, within the same rounds. -/
theorem toEnd (h : Behind p k r s) (q : Program) (rules : Rules) (rounds : Nat) :
    Option.Rel (fun x y : Ending × Run w => y.1 = x.1.behind p.size ∧ x.2.Behind p k y.2)
      (r.toEnd q rules rounds) (s.toEnd (p.append q) rules rounds) := by
  induction rounds generalizing r s with
  | zero => exact .none
  | succ rounds ih =>
    have hnext := h.advance q rules
    rw [Run.toEnd, Run.toEnd]
    generalize r.advance q rules = next at hnext ⊢
    generalize s.advance (p.append q) rules = next' at hnext ⊢
    cases hnext with
    | running h' => exact ih h'
    | ended ending h' => exact .some ⟨rfl, h'⟩

theorem close (h : Behind p k r s) (ending : Ending) :
    Execution.Behind p k (Execution.close ending r)
      (Execution.close (ending.behind p.size) s) := by
  obtain ⟨hfailure, hmachine⟩ := Machine.respectsFlush_upToFlushes h.machine
  refine ⟨?_, hmachine⟩
  show Execution.report (ending.behind p.size) s.executed s.machine.output.flush.failure =
    (Execution.report ending r.executed r.machine.output.flush.failure).map _
  rw [h.executed, hfailure, Execution.report_behind]

end Behind

end Run

namespace Program

variable {p q : Program} {rules : Rules} {m m' : Machine w} {x : Execution w} {k n rounds : Nat}

/-! ## Executing the concatenation -/

/-- A stream that ignores being flushed still does after an execution. -/
theorem ignoresFlush_of_execute (hm : m.output.IgnoresFlush)
    (h : p.execute rules rounds m = some x) : x.machine.output.IgnoresFlush := by
  obtain ⟨k, before, ending, last, hs, ha, rfl⟩ := Run.exists_steps_of_execute h
  exact ((hm.of_extends hs.output).of_extends (Run.output_of_advance_ended ha)).flush

/-- The program `pq` runs as `p` and then, if that finishes, as `q`. -/
structure Continues (p q pq : Program) (rules : Rules) (m : Machine w) : Prop where
  /-- As long as `p` does not end, neither does `pq`. -/
  endless : ∀ rounds, p.execute rules rounds m = none → pq.execute rules rounds m = none
  /-- If `p` is cut short, so is `pq`. -/
  cut : ∀ rounds x, p.execute rules rounds m = some x → (∀ k, x.result ≠ .ok ⟨.finished, k⟩) →
    pq.execute rules rounds m = some x
  /-- If `p` finishes, `pq` goes on as `q` does on the machine that `p` leaves. -/
  continued : ∀ rounds x k, p.execute rules rounds m = some x → x.result = .ok ⟨.finished, k⟩ →
    ∀ more, Option.Rel (Execution.Behind p k) (q.execute rules more x.machine)
      (pq.execute rules (more + k) m)

/-- If both programs come to an end one after the other, so does `pq`. -/
theorem Continues.exists_behind {pq : Program} {more : Nat} {y : Execution w}
    (h : Continues p q pq rules m) (hx : p.execute rules rounds m = some x)
    (hk : x.result = .ok ⟨.finished, k⟩) (hy : q.execute rules more x.machine = some y) :
    ∃ z, pq.execute rules (more + k) m = some z ∧ Execution.Behind p k y z := by
  have hrel := h.continued rounds x k hx hk more
  rw [hy] at hrel
  generalize pq.execute rules (more + k) m = z at hrel
  cases hrel with
  | some hbehind => exact ⟨_, rfl, hbehind⟩

theorem execute_append_of_none (q : Program) (h : p.execute rules rounds m = none) :
    (p.append q).execute rules rounds m = none := by
  obtain ⟨s, hs⟩ := Run.toEnd_eq_none_iff.mp (Option.map_eq_none_iff.mp h)
  rw [execute, Run.toEnd_eq_none_iff.mpr ⟨s, hs.append q⟩]
  rfl

theorem execute_append_of_cut (q : Program) (hm : m.output.IgnoresFlush)
    (h : p.execute rules rounds m = some x) (hresult : ∀ k, x.result ≠ .ok ⟨.finished, k⟩) :
    (p.append q).execute rules rounds m = some x := by
  obtain ⟨⟨ending, last⟩, hend, rfl⟩ := Option.map_eq_some_iff.mp h
  obtain ⟨k, hk, hends⟩ := Run.toEnd_eq_some_iff.mp hend
  have hending : ending ≠ .completed .finished := by
    rintro rfl
    refine hresult last.executed (Execution.report_eq_ok_iff.mpr ⟨rfl, ?_, rfl⟩)
    exact (hm.of_extends hends.steps_of_finished.1.output).failure
  rw [execute, Run.toEnd_eq_some_iff.mpr ⟨k, hk, hends.append q hending⟩]
  rfl

theorem execute_append_of_finished (q : Program) (hm : m.output.IgnoresFlush)
    (h : p.execute rules rounds m = some x) (hresult : x.result = .ok ⟨.finished, k⟩) (more : Nat) :
    Option.Rel (Execution.Behind p k) (q.execute rules more x.machine)
      ((p.append q).execute rules (more + k) m) := by
  obtain ⟨⟨ending, last⟩, hend, rfl⟩ := Option.map_eq_some_iff.mp h
  obtain ⟨rfl, -, hexecuted⟩ := Execution.report_eq_ok_iff.mp hresult
  obtain ⟨j, -, hends⟩ := Run.toEnd_eq_some_iff.mp hend
  obtain ⟨hs, hpc⟩ := hends.steps_of_finished
  obtain rfl : k = j := hexecuted.symm.trans (hs.executed.trans (Nat.zero_add j))
  -- The second program starts where the first one has ended, but for the flush.
  have hbehind :
      (Run.start (Execution.close (.completed .finished) last).machine).Behind p k last :=
    ⟨hpc, hexecuted, Machine.upToFlushes_flush (hm.of_extends hs.output)⟩
  have hrel := hbehind.toEnd q rules more
  rw [execute, execute, (hs.append q).toEnd_add more]
  generalize (Run.start _).toEnd q rules more = e at hrel ⊢
  generalize last.toEnd (p.append q) rules more = e' at hrel ⊢
  cases hrel with
  | none => exact .none
  | @some x y hxy =>
    obtain ⟨hending, hlast⟩ := hxy
    have hclose := hlast.close x.1
    rw [← hending] at hclose
    exact .some hclose

/-- **The concatenation runs as the one program and then as the other.** -/
theorem continues_append (p q : Program) (rules : Rules) (hm : m.output.IgnoresFlush) :
    Continues p q (p.append q) rules m where
  endless := fun _ h => execute_append_of_none q h
  cut := fun _ _ h hresult => execute_append_of_cut q hm h hresult
  continued := fun _ _ _ h hresult more => execute_append_of_finished q hm h hresult more

/-! ## Executing a program several times -/

/-- Executed `k` times in a row, the program finishes every time. That takes `n` instructions in all
and leads from the machine `m` to `m'`. -/
inductive FinishesTimes (p : Program) (rules : Rules) : Nat → Nat → Machine w → Machine w → Prop
  | zero (m : Machine w) : FinishesTimes p rules 0 0 m m
  | succ {rounds j k n : Nat} {m m' : Machine w} {x : Execution w}
      (first : p.execute rules rounds m = some x) (hj : x.result = .ok ⟨.finished, j⟩)
      (rest : FinishesTimes p rules k n x.machine m') : FinishesTimes p rules (k + 1) (j + n) m m'

theorem execute_empty (rules : Rules) (hm : m.output.IgnoresFlush) :
    ∃ x, empty.execute rules 1 m = some x ∧ x.result = .ok ⟨.finished, 0⟩ ∧
      m.UpToFlushes x.machine := by
  refine ⟨Execution.close (.completed .finished) (.start m), rfl, ?_, ?_⟩
  · exact Execution.report_eq_ok_iff.mpr ⟨rfl, hm.failure, rfl⟩
  · exact (Machine.upToFlushes_flush hm).symm

/-- **Executions that finish in a row** are one of as many copies. -/
theorem FinishesTimes.execute (h : FinishesTimes p rules k n m m')
    (hm : m.output.IgnoresFlush) :
    ∃ rounds x, (p.repeated k).execute rules rounds m = some x ∧
      x.result = .ok ⟨.finished, n⟩ ∧ m'.UpToFlushes x.machine := by
  induction h with
  | zero m =>
    obtain ⟨x, hx, hresult, hmachine⟩ := execute_empty rules hm
    exact ⟨1, x, hx, hresult, hmachine⟩
  | @succ rounds j k n m m' x first hj _ ih =>
    obtain ⟨more, y, hy, hresult, hmachine⟩ := ih (ignoresFlush_of_execute hm first)
    obtain ⟨z, hz, hbehind⟩ :=
      (continues_append p (p.repeated k) rules hm).exists_behind first hj hy
    refine ⟨more + j, z, hz, ?_, hmachine.trans hbehind.machine⟩
    rw [hbehind.result, hresult]
    rfl

end Program

end Brainfuck
