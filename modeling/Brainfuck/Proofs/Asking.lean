import Brainfuck.Proofs.Cancellation
import Brainfuck.Proofs.Outputs
import Brainfuck.Proofs.Stages

/-!
# What raises the flag of a run

A run is asked to stop by its streams: by an event that is taken from the input, with a byte that
the output accepts, by a call that the output fails, or by the flush at the end. Its flag is raised
afterwards exactly if it was raised before or the run was asked to stop. A run that was not asked
comes to the same whether it heeds the flag or not.

## Main definitions

* `Input.AsksUntil`, `Output.AsksUntil`: a stream asks to stop between two of its states
* `Machine.LeadsTo`: the streams of a machine were used, and its flag tells if they asked to stop
* `Request.Asks`: the streams of a request ask to stop

## Main results

* `Machine.leadsTo_of_exec_done`: an instruction raises the flag exactly if it is asked to
* `Run.EndsAfter.leadsTo`: so does a run up to its end
* `Machine.LeadsTo.flush`: so does the flush after it
* `Runner.cancelled_of_serve`: what raises the flag of a runner
* `Runner.runOnce_eq_some_iff`: a run by itself is one of a fresh runner, unless it is asked to stop
-/

namespace Brainfuck

variable {w : Width}

/-! ## Streams that ask to stop -/

namespace Input

/-- An event that asks to stop is taken from the input before `left` is left of it. -/
def AsksUntil (input left : Input) : Prop :=
  ∃ taken, input = taken ++ left ∧ .cancel ∈ taken

variable {input input' input'' taken : Input}

theorem asksUntil_append : AsksUntil (taken ++ input) input ↔ .cancel ∈ taken := by
  constructor
  · rintro ⟨taken', heq, hmem⟩
    rwa [List.append_cancel_right heq]
  · exact fun hmem => ⟨taken, rfl, hmem⟩

theorem not_asksUntil_self (input : Input) : ¬ input.AsksUntil input := by
  intro h
  exact List.not_mem_nil (asksUntil_append.mp h)

theorem asksUntil_trans (h : input' <:+ input) (h' : input'' <:+ input') :
    input.AsksUntil input'' ↔ input.AsksUntil input' ∨ input'.AsksUntil input'' := by
  -- What is taken on the whole is what is taken on the way, one after the other.
  obtain ⟨first, rfl⟩ := h
  obtain ⟨second, rfl⟩ := h'
  rw [asksUntil_append, asksUntil_append, ← List.append_assoc, asksUntil_append, List.mem_append]

theorem asksUntil_cons (e : ReadEvent) (h : input' <:+ input) :
    AsksUntil (e :: input) input' ↔ e = .cancel ∨ input.AsksUntil input' := by
  obtain ⟨taken, rfl⟩ := h
  rw [asksUntil_append, ← List.cons_append, asksUntil_append, List.mem_cons, eq_comm]

/-- **A read raises the flag** exactly if one of the events that it takes asks to stop. -/
theorem cancelled_read_iff (input : Input) :
    (read input).cancelled = true ↔ input.AsksUntil (read input).rest := by
  fun_induction read input with
  | case1 => simp [not_asksUntil_self]
  | case2 | case3 | case4 =>
    -- The first event settles the read.
    rw [asksUntil_cons _ (List.suffix_refl _)]
    simp [not_asksUntil_self]
  | case5 rest ih =>
    rw [asksUntil_cons _ (rest_read_suffix rest), ih]
    simp
  | case6 rest _ ih =>
    show true = true ↔ AsksUntil (.cancel :: rest) (read rest).rest
    simp [asksUntil_cons _ (rest_read_suffix rest)]

end Input

namespace Output

/-- **The output asks to stop before it comes to `o'`**, up to and with its next flush: with a byte
that it accepts, by a call that fails, or by the flush. -/
inductive AsksUntil (o o' : Output) : Prop
  | accepting {n : Nat} (lt : o.written.size < n) (le : n ≤ o'.written.size)
      (asks : o.device.cancelsAt n = true) : AsksUntil o o'
  | failing {position : Nat} (mem : position ∈ o'.refusals.drop o.refusals.length)
      (asks : o.device.cancelsFailing position = true) : AsksUntil o o'
  | flushing (lt : o.flushes.length < o'.flushes.length) (asks : o.device.cancelsFlush = true) :
      AsksUntil o o'

/-- The output has not less behind it. -/
structure Grows (o o' : Output) : Prop where
  written : o.written.size ≤ o'.written.size
  refusals : o.refusals <+: o'.refusals
  flushes : o.flushes.length ≤ o'.flushes.length

variable {o o' o'' : Output}

theorem Extends.grows (h : o.Extends o') : o.Grows o' where
  written := h.written.length_le
  refusals := h.refusals
  flushes := Nat.le_of_eq (congrArg List.length h.flushes.symm)

theorem grows_flush (o : Output) : o.Grows o.flush.output where
  written := Nat.le_refl _
  refusals := List.prefix_refl _
  flushes := by
    show o.flushes.length ≤ (o.flushes ++ [o.written.size]).length
    simp

theorem not_asksUntil_self (o : Output) : ¬ o.AsksUntil o := by
  rintro (⟨hlt, hle, -⟩ | ⟨hmem, -⟩ | ⟨hlt, -⟩)
  · exact absurd hle (Nat.not_le_of_gt hlt)
  · rw [List.drop_length] at hmem
    cases hmem
  · exact absurd hlt (Nat.lt_irrefl _)

/-- **What is asked on the whole** is asked before the output comes to `o'` or behind that, where it
was not flushed before. -/
theorem asksUntil_trans (h : o.Extends o') (h' : o'.Grows o'') :
    o.AsksUntil o'' ↔ o.AsksUntil o' ∨ o'.AsksUntil o'' := by
  have hgrows := h.grows
  obtain ⟨first, hfirst⟩ := h.refusals
  obtain ⟨second, hsecond⟩ := h'.refusals
  have hflushes : o'.flushes.length = o.flushes.length := congrArg List.length h.flushes
  have hdrop : o'.refusals.drop o.refusals.length = first := by simp [← hfirst]
  have hdrop' : o''.refusals.drop o'.refusals.length = second := by simp [← hsecond]
  have hdrop'' : o''.refusals.drop o.refusals.length = first ++ second := by
    simp [← hsecond, ← hfirst]
  constructor
  · rintro (@⟨n, hlt, hle, hn⟩ | ⟨hmem, hn⟩ | ⟨hlt, hn⟩)
    · rcases Nat.lt_or_ge o'.written.size n with hn' | hn'
      · exact .inr (.accepting hn' hle (h.device ▸ hn))
      · exact .inl (.accepting hlt hn' hn)
    · rw [hdrop''] at hmem
      rcases List.mem_append.mp hmem with hmem | hmem
      · exact .inl (.failing (hdrop ▸ hmem) hn)
      · exact .inr (.failing (hdrop' ▸ hmem) (h.device ▸ hn))
    · exact .inr (.flushing (hflushes ▸ hlt) (h.device ▸ hn))
  · rintro ((⟨hlt, hle, hn⟩ | ⟨hmem, hn⟩ | ⟨hlt, hn⟩) | (⟨hlt, hle, hn⟩ | ⟨hmem, hn⟩ | ⟨hlt, hn⟩))
    · exact .accepting hlt (Nat.le_trans hle h'.written) hn
    · rw [hdrop] at hmem
      exact .failing (hdrop'' ▸ List.mem_append_left _ hmem) hn
    · exact absurd hlt (by omega)
    · exact .accepting (Nat.lt_of_le_of_lt hgrows.written hlt) hle (h.device ▸ hn)
    · rw [hdrop'] at hmem
      exact .failing (hdrop'' ▸ List.mem_append_right _ hmem) (h.device ▸ hn)
    · exact .flushing (by omega) (h.device ▸ hn)

theorem asksUntil_push (o : Output) (b : UInt8) :
    o.AsksUntil { o with written := o.written.push b } ↔
      o.device.cancelsAt (o.written.size + 1) = true := by
  constructor
  · rintro (@⟨n, hlt, hle, hn⟩ | ⟨hmem, -⟩ | ⟨hlt, -⟩)
    · rw [Array.size_push] at hle
      rwa [show o.written.size + 1 = n by omega]
    · simp at hmem
    · exact absurd hlt (Nat.lt_irrefl _)
  · exact .accepting (Nat.lt_succ_self _) (Nat.le_of_eq (Array.size_push _).symm)

theorem asksUntil_refused (o : Output) :
    o.AsksUntil o.refused ↔ o.device.cancelsFailing o.written.size = true := by
  have hdrop : o.refused.refusals.drop o.refusals.length = [o.written.size] := by simp [refused]
  constructor
  · rintro (⟨hlt, hle, -⟩ | ⟨hmem, hn⟩ | ⟨hlt, -⟩)
    · exact absurd hle (Nat.not_le_of_gt hlt)
    · rw [hdrop] at hmem
      exact List.mem_singleton.mp hmem ▸ hn
    · exact absurd hlt (Nat.lt_irrefl _)
  · exact .failing (hdrop ▸ List.mem_singleton_self _)

theorem asksUntil_flush (o : Output) :
    o.AsksUntil o.flush.output ↔ o.flush.cancelled = true := by
  have hlength : o.flush.output.flushes.length = o.flushes.length + 1 := by simp [flush]
  constructor
  · rintro (⟨hlt, hle, -⟩ | ⟨hmem, -⟩ | ⟨-, hn⟩)
    · exact absurd hle (Nat.not_le_of_gt hlt)
    · have hdrop : o.flush.output.refusals.drop o.refusals.length = [] := List.drop_length
      rw [hdrop] at hmem
      cases hmem
    · exact hn
  · exact .flushing (by omega)

end Output

/-! ## Machines that are asked to stop -/

namespace Machine

/-- **The machine `m` leads to `m'`**: its streams were used, and its flag was raised exactly if one
of them asked to stop. -/
structure LeadsTo (m m' : Machine w) : Prop where
  input : m'.input <:+ m.input
  output : m.output.Extends m'.output
  cancelled_iff : m'.cancelled = true ↔
    m.cancelled = true ∨ m.input.AsksUntil m'.input ∨ m.output.AsksUntil m'.output

variable {policy : BoundsPolicy} {m m' m'' : Machine w} {event : Option Event} {i : Instruction}

theorem leadsTo_of_streams (hinput : m'.input = m.input) (houtput : m'.output = m.output)
    (hcancelled : m'.cancelled = m.cancelled) : m.LeadsTo m' where
  input := hinput ▸ List.suffix_refl _
  output := houtput ▸ .refl _
  cancelled_iff := by
    rw [hinput, houtput, hcancelled]
    simp [Input.not_asksUntil_self, Output.not_asksUntil_self]

theorem LeadsTo.trans (h : m.LeadsTo m') (h' : m'.LeadsTo m'') : m.LeadsTo m'' where
  input := h'.input.trans h.input
  output := h.output.trans h'.output
  cancelled_iff := by
    rw [h'.cancelled_iff, h.cancelled_iff, Input.asksUntil_trans h.input h'.input,
      Output.asksUntil_trans h.output h'.output.grows]
    rw [or_assoc, or_or_or_comm]

theorem leadsTo_of_read_done (h : m.read = .done m' event) : m.LeadsTo m' := by
  obtain ⟨rfl, -⟩ := Effect.done.inj h
  refine ⟨m.input.rest_read_suffix, .refl _, ?_⟩
  simp [Input.cancelled_read_iff, Output.not_asksUntil_self]

theorem leadsTo_of_print_done (h : m.print = .done m' event) : m.LeadsTo m' := by
  rw [print_of_accept (accept_of_print_done h)] at h
  obtain ⟨rfl, -⟩ := Effect.done.inj h
  refine ⟨List.suffix_refl _, Output.extends_push _ _, ?_⟩
  simp [Output.asksUntil_push, Input.not_asksUntil_self]

/-- **An instruction raises the flag** exactly if a stream asks to stop meanwhile. -/
theorem leadsTo_of_exec_done (h : m.exec policy i = .done m' event) : m.LeadsTo m' := by
  cases does_of_exec_done h with
  | move _ h =>
    obtain ⟨index, rfl⟩ := exists_seek_of_move_done h
    exact leadsTo_of_streams rfl rfl rfl
  | read _ h => exact leadsTo_of_read_done h
  | print _ h => exact leadsTo_of_print_done h
  | change => exact leadsTo_of_streams rfl rfl rfl

theorem leadsTo_refused (m : Machine w) : m.LeadsTo m.refused where
  input := List.suffix_refl _
  output := Output.extends_refused _
  cancelled_iff := by
    show (m.cancelled || m.output.device.cancelsFailing m.output.written.size) = true ↔ _ ∨
      m.input.AsksUntil m.input ∨ m.output.AsksUntil m.output.refused
    rw [Bool.or_eq_true, Output.asksUntil_refused]
    simp [Input.not_asksUntil_self]

/-- **A call that fails** may raise the flag as well. -/
theorem leadsTo_endedBy (ending : Ending) (m : Machine w) : m.LeadsTo (m.endedBy ending) := by
  cases ending with
  | completed => exact leadsTo_of_streams rfl rfl rfl
  | failed e =>
    cases e with
    | output cause => exact leadsTo_refused m
    | bounds | fault => exact leadsTo_of_streams rfl rfl rfl

/-- **The flush raises the flag** exactly if the output asks to stop there. -/
theorem LeadsTo.flush (h : m.LeadsTo m') :
    m'.flush.cancelled = true ↔
      m.cancelled = true ∨ m.input.AsksUntil m'.input ∨ m.output.AsksUntil m'.flush.output := by
  show (m'.cancelled || m'.output.flush.cancelled) = true ↔ _ ∨ _ ∨
    m.output.AsksUntil m'.output.flush.output
  rw [Bool.or_eq_true, h.cancelled_iff, Output.asksUntil_trans h.output (Output.grows_flush _),
    Output.asksUntil_flush]
  simp only [or_assoc]

end Machine

/-- **A run raises the flag** exactly if a stream asks to stop meanwhile. -/
theorem Run.Steps.leadsTo {p : Program} {rules : Rules} {r s : Run w} {k : Nat}
    (h : Steps p rules k r s) : r.machine.LeadsTo s.machine := by
  induction h with
  | refl r => exact Machine.leadsTo_of_streams rfl rfl rfl
  | head first _ ih =>
    obtain ⟨i, event, -, he, -⟩ := exec_of_advance_running first
    exact (Machine.leadsTo_of_exec_done he).trans ih

/-- So it does up to its end. -/
theorem Run.EndsAfter.leadsTo {p : Program} {rules : Rules} {r last : Run w} {k : Nat}
    {ending : Ending} (h : r.EndsAfter p rules k ending last) :
    r.machine.LeadsTo last.machine := by
  obtain ⟨before, hs, ha⟩ := h
  rw [machine_of_advance_ended ha]
  exact hs.leadsTo.trans (Machine.leadsTo_endedBy ending before.machine)

theorem Program.cancelled_of_execute {p : Program} {rules : Rules} {rounds : Nat} {m : Machine w}
    {x : Execution w} (hx : p.execute rules rounds m = some x) :
    x.machine.cancelled = true ↔ m.cancelled = true ∨
      m.input.AsksUntil x.machine.input ∨ m.output.AsksUntil x.machine.output := by
  obtain ⟨⟨ending, last⟩, hend, rfl⟩ := Option.map_eq_some_iff.mp hx
  obtain ⟨k, -, hends⟩ := Run.toEnd_eq_some_iff.mp hend
  exact hends.leadsTo.flush

/-! ## Runs that are not asked to stop -/

namespace Run

variable {p : Program} {policy : BoundsPolicy} {rounds : Nat} {ending : Ending} {r last : Run w}

/-- A run lowers no flag. -/
theorem lowered_of_toEnd {rules : Rules} (h : r.toEnd p rules rounds = some (ending, last))
    (hlast : last.machine.cancelled = false) : r.machine.cancelled = false := by
  obtain ⟨k, -, hends⟩ := toEnd_eq_some_iff.mp h
  refine Bool.eq_false_iff.mpr fun hr => ?_
  rw [hends.leadsTo.cancelled_iff.mpr (.inl hr)] at hlast
  cases hlast

/-- **A run that ends with its flag lowered** ends so whether it heeds the flag or not. -/
theorem toEnd_eq_some_iff_of_lowered (hlast : last.machine.cancelled = false) :
    r.toEnd p ⟨policy, true⟩ rounds = some (ending, last) ↔
      r.toEnd p ⟨policy, false⟩ rounds = some (ending, last) := by
  induction rounds generalizing r with
  | zero => exact Iff.rfl
  | succ rounds ih =>
    cases hr : r.machine.cancelled with
    | true =>
      -- Then neither run ends in this way.
      have hne {rules : Rules} : r.toEnd p rules (rounds + 1) ≠ some (ending, last) := fun h =>
        Bool.noConfusion (hr.symm.trans (lowered_of_toEnd h hlast))
      exact ⟨fun h => absurd h hne, fun h => absurd h hne⟩
    | false =>
      rw [toEnd, toEnd, advance_heeding_of_lowered hr]
      cases r.advance p ⟨policy, false⟩ with
      | running next => exact ih
      | ended => exact Iff.rfl

end Run

theorem Program.execute_eq_some_iff_of_lowered {p : Program} {policy : BoundsPolicy} {rounds : Nat}
    {m : Machine w} {x : Execution w} (hx : x.machine.cancelled = false) :
    p.execute ⟨policy, true⟩ rounds m = some x ↔ p.execute ⟨policy, false⟩ rounds m = some x := by
  have hlast {last : Run w} (h : last.machine.flush.cancelled = false) :
      last.machine.cancelled = false := (Bool.or_eq_false_iff.mp h).1
  unfold execute
  rw [Option.map_eq_some_iff, Option.map_eq_some_iff]
  constructor
  · rintro ⟨⟨ending, last⟩, hend, rfl⟩
    exact ⟨⟨ending, last⟩, (Run.toEnd_eq_some_iff_of_lowered (hlast hx)).mp hend, rfl⟩
  · rintro ⟨⟨ending, last⟩, hend, rfl⟩
    exact ⟨⟨ending, last⟩, (Run.toEnd_eq_some_iff_of_lowered (hlast hx)).mpr hend, rfl⟩

/-! ## Runners that are asked to stop -/

/-- **The streams of a request ask to stop** in the run with the transcript `t`. -/
def Request.Asks (request : Request) (t : Transcript) : Prop :=
  request.input.AsksUntil t.input ∨ request.output.AsksUntil t.output

namespace Runner

variable {r : Runner} {rounds : Nat} {source : String} {input : Input} {output : Output}
  {t : Transcript}

theorem cancelled_of_run (h : r.run rounds source input output = some t) :
    t.cancelled = true ↔
      r.cancelled = true ∨ input.AsksUntil t.input ∨ output.AsksUntil t.output := by
  cases endsIn_of_run h with
  | executed _ hx => exact Program.cancelled_of_execute hx
  | refused => simp [refuse, Input.not_asksUntil_self, Output.not_asksUntil_self]

theorem cancelled_of_runDialect {dialect : Dialect}
    (h : r.runDialect rounds dialect source input output = some t) :
    t.cancelled = true ↔
      r.cancelled = true ∨ input.AsksUntil t.input ∨ output.AsksUntil t.output := by
  obtain ⟨t', hrun, rfl⟩ := Option.map_eq_some_iff.mp h
  have hiff := cancelled_of_run hrun
  exact hiff

theorem cancelled_of_runFile {files : FileSystem} {path : String} {dialect : Dialect}
    (h : r.runFile rounds files path dialect input output = some t) :
    t.cancelled = true ↔
      r.cancelled = true ∨ input.AsksUntil t.input ∨ output.AsksUntil t.output := by
  unfold runFile at h
  split at h
  · obtain rfl := Option.some.inj h
    simp [refuse, Input.not_asksUntil_self, Output.not_asksUntil_self]
  · exact cancelled_of_runDialect h

/-- **The flag of a runner is raised after a run** exactly if it was raised before or the streams of
the run asked to stop. -/
theorem cancelled_of_serve {request : Request} (h : r.serve rounds request = some t) :
    t.cancelled = true ↔ r.cancelled = true ∨ request.Asks t := by
  unfold serve at h
  split at h
  · exact cancelled_of_runFile h
  · exact cancelled_of_runDialect h
  · exact cancelled_of_run h

/-- **A run by itself** is the run of a fresh runner, if it is not asked to stop. -/
theorem runOnce_eq_some_iff {config : Config} (h : t.cancelled = false) :
    runOnce config rounds source input output = some t ↔
      Runner.run { config } rounds source input output = some t := by
  -- Whether the flag is heeded makes no difference before the program is executed.
  have hprepare : prepare { config, heedsCancel := false } source = prepare { config } source := rfl
  rw [runOnce, run, run, hprepare]
  rcases prepare { config } source with ⟨e | job, events⟩
  · exact Iff.rfl
  · simp only [Option.map_eq_some_iff]
    constructor
    · rintro ⟨x, hx, rfl⟩
      exact ⟨x, (Program.execute_eq_some_iff_of_lowered h).mpr hx, rfl⟩
    · rintro ⟨x, hx, rfl⟩
      exact ⟨x, (Program.execute_eq_some_iff_of_lowered h).mp hx, rfl⟩

end Runner

end Brainfuck
