import Brainfuck.Proofs.Outputs
import Brainfuck.Proofs.Related

/-!
# Bounded outputs

A run whose output accepts only so many bytes is compared with the run whose output accepts all.
As long as there is room, the two come to the same in every round. The byte for which there is no
room ends the bounded run, with everything as it was before the instruction.

## Main definitions

* `Device.Limits`: a device that accepts only the first bytes of another one
* `Output.LimitedTo`: outputs to two such devices that have accepted the same
* `Run.WritesNext`: a run is about to write the byte at some position
* `Run.Bounded`: runs on two such outputs

## Main results

* `Run.Bounded.advance_of_room`: with room for a byte the rounds come to the same
* `Run.lockstep_bounded`: the bounded run is the first to end, if it does
* `Program.execute_limited`: a bounded output sees a prefix of the full output
-/

namespace Brainfuck

variable {w : Width} {n : Nat} {full limited : Device}

/-! ## Devices and outputs -/

/-- The device `full` accepts every byte, and `limited` accepts the first `n` and not the next one.
How often calls are interrupted may differ. -/
structure Device.Limits (n : Nat) (full limited : Device) : Prop where
  accepts : ∀ position, full.answer position = .accept
  accepts_of_lt : ∀ position < n, limited.answer position = .accept
  refuses : limited.answer n ≠ .accept
  cancelsAt : limited.cancelsAt = full.cancelsAt
  flushFailure : limited.flushFailure = full.flushFailure
  cancelsFlush : limited.cancelsFlush = full.cancelsFlush

/-- A device is limited by taking nothing more at some point, whatever calls it interrupts. -/
theorem Device.limits_takingOnly (n : Nat) :
    unlimited.Limits n (unlimited.takingOnly n).interrupting where
  accepts := fun _ => rfl
  accepts_of_lt := fun _ h => if_neg (Nat.not_le_of_lt h)
  refuses := by simp [takingOnly, interrupting]
  cancelsAt := rfl
  flushFailure := rfl
  cancelsFlush := rfl

namespace Output

/-- The outputs `o` to `full` and `o'` to `limited`, before and after all flushes, have accepted the
same, at most `n` bytes. -/
structure LimitedTo (n : Nat) (full limited : Device) (o o' : Output) : Prop where
  device : o.device = full
  device' : o'.device = limited
  later : ∀ k, o.later k = full
  later' : ∀ k, o'.later k = limited
  written : o'.written = o.written
  refusals : o'.refusals = o.refusals
  flushes : o'.flushes = o.flushes
  size_le : o.written.size ≤ n

variable {o o' : Output}

/-- With room for a byte both outputs accept it. -/
theorem LimitedTo.write_alike (hd : full.Limits n limited) (h : LimitedTo n full limited o o')
    (hlt : o.written.size < n) (b : UInt8) :
    Writing.Alike (LimitedTo n full limited) (o.write b) (o'.write b) := by
  have ho : o.device.answer o.written.size = .accept := by
    rw [h.device]
    exact hd.accepts _
  have ho' : o'.device.answer o'.written.size = .accept := by
    rw [h.device', h.written]
    exact hd.accepts_of_lt _ hlt
  rw [write_of_accept ho, write_of_accept ho', h.device, h.device', h.written, hd.cancelsAt]
  refine .done ⟨rfl, rfl, h.later, h.later', rfl, h.refusals, h.flushes, ?_⟩ _
  rw [Array.size_push]
  exact hlt

theorem LimitedTo.flush_alike (hd : full.Limits n limited) (h : LimitedTo n full limited o o') :
    Flushing.Alike (LimitedTo n full limited) o.flush o'.flush where
  output :=
    { device := h.later 0
      device' := h.later' 0
      later := fun k => h.later (k + 1)
      later' := fun k => h.later' (k + 1)
      written := h.written
      refusals := h.refusals
      flushes := by
        show o'.flushes ++ [o'.written.size] = o.flushes ++ [o.written.size]
        rw [h.flushes, h.written]
      size_le := h.size_le }
  failure := by
    show o'.device.flushFailure = o.device.flushFailure
    rw [h.device, h.device', hd.flushFailure]
  cancelled := by
    show o'.device.cancelsFlush = o.device.cancelsFlush
    rw [h.device, h.device', hd.cancelsFlush]

theorem limitedTo_ofDevice (n : Nat) (full limited : Device) :
    LimitedTo n full limited (.ofDevice full) (.ofDevice limited) where
  device := rfl
  device' := rfl
  later := fun _ => rfl
  later' := fun _ => rfl
  written := rfl
  refusals := rfl
  flushes := rfl
  size_le := Nat.zero_le n

end Output

/-- The machine with a fresh output to a device. -/
def Machine.onto (device : Device) (m : Machine w) : Machine w :=
  { m with output := .ofDevice device }

/-! ## Runs -/

namespace Run

variable {p : Program} {rules : Rules} {r r' s u : Run w}

/-- The next thing that the run does is to write the byte at position `n`. -/
structure WritesNext (p : Program) (rules : Rules) (n : Nat) (r : Run w) : Prop where
  instruction : ∃ i, p.instructions[r.pc]? = some i ∧ i.op = .output
  goes : rules.stops r.machine = false
  size : r.machine.output.written.size = n

/-- A byte that is accepted is written. -/
theorem WritesNext.size_of_accept (h : r.WritesNext p rules n)
    (ha : r.machine.output.device.answer n = .accept) :
    ∃ next, r.advance p rules = .running next ∧ next.machine.output.written.size = n + 1 := by
  obtain ⟨i, hi, hop⟩ := h.instruction
  obtain ⟨pc, hn⟩ := exists_next? hi
  rw [← h.size] at ha
  have he := (Machine.exec_of_output hop rules.policy _).trans (Machine.print_of_accept ha)
  refine ⟨_, advance_of_done hi h.goes he hn, ?_⟩
  show (r.machine.output.written.push _).size = n + 1
  rw [Array.size_push, h.size]

/-- A byte that is refused ends the run. -/
theorem WritesNext.advance_of_refusal? (h : r.WritesNext p rules n) {cause : String}
    (hc : (r.machine.output.device.answer n).refusal? = some cause) :
    r.advance p rules =
      .ended (.failed (.output cause)) { r with machine := r.machine.refused } := by
  obtain ⟨i, hi, hop⟩ := h.instruction
  rw [← h.size] at hc
  exact advance_of_failed hi h.goes
    ((Machine.exec_of_output hop rules.policy _).trans (Machine.print_of_refusal? hc))

/-- Runs on outputs that have accepted the same, one of them bounded. -/
def Bounded (n : Nat) (full limited : Device) : Run w → Run w → Prop :=
  Alike (Machine.Related Eq Eq (Output.LimitedTo n full limited))

theorem WritesNext.of_bounded (h : r.WritesNext p rules n) (hr : Bounded n full limited r r') :
    r'.WritesNext p rules n where
  instruction := by
    rw [hr.pc]
    exact h.instruction
  goes := by
    unfold Rules.stops
    rw [hr.machine.cancelled]
    exact h.goes
  size := by
    rw [hr.machine.output.written]
    exact h.size

/-- **With room for a byte** the rounds come to the same. -/
theorem Bounded.advance_of_room (hd : full.Limits n limited) (h : Bounded n full limited r r')
    (hroom : ¬ r.WritesNext p rules n) :
    Next.Alike (Bounded n full limited) (r.advance p rules) (r'.advance p rules) := by
  refine Alike.advance_of_related Tape.respectsCells_eq Tape.respectsPlaces_eq
    Input.respectsReads_eq h ?_ ?_
  · intro i _ _ _
    rw [h.machine.tape]
  · intro i hi hop hs
    refine h.machine.output.write_alike hd (Nat.lt_of_le_of_ne h.machine.output.size_le ?_)
    exact fun hsize => hroom ⟨⟨i, hi, hop⟩, hs, hsize⟩

/-- A run that never writes more than there is room for goes in lockstep with the bounded one. -/
theorem lockstep_of_room (p : Program) (rules : Rules) (hd : full.Limits n limited) :
    Lockstep p rules rules (fun _ => False) fun r r' : Run w =>
      Bounded n full limited r r' ∧
        Throughout p rules (fun _ m => m.output.written.size ≤ n) r := by
  rintro r r' ⟨h, hr⟩
  refine Or.inr ((h.advance_of_room hd fun hnext => ?_).and_throughout ?_ hr)
  · obtain ⟨next, ha, hsize⟩ := hnext.size_of_accept (by
      rw [h.machine.output.device]
      exact hd.accepts n)
    have hle : next.machine.output.written.size ≤ n := (hr.running ha).here
    omega
  · intro _ m e hm
    rwa [Machine.written_failedBy]

/-- **The bounded run goes in lockstep** with the full one, up to the byte that is refused. -/
theorem lockstep_bounded (p : Program) (rules : Rules) (hd : full.Limits n limited) {cause : String}
    (hc : (limited.answer n).refusal? = some cause) :
    Lockstep p rules rules (fun ending => ending = .failed (.output cause))
      (flip (Bounded (w := w) n full limited)) := by
  intro r' r h
  by_cases hnext : r.WritesNext p rules n
  · rw [← h.machine.output.device'] at hc
    exact Or.inl ⟨_, _, (hnext.of_bounded h).advance_of_refusal? hc, rfl⟩
  · exact Or.inr (h.advance_of_room hd hnext).flip

/-- A bounded run that fails in its output stands before the byte that is refused. -/
theorem Bounded.writesNext_of_failed (hd : full.Limits n limited)
    (h : Bounded n full limited r r') {cause : String}
    (ha : r'.advance p rules = .ended (.failed (.output cause)) s) : r.WritesNext p rules n := by
  refine Classical.byContradiction fun hroom => ?_
  have hround := h.advance_of_room hd hroom
  rw [ha] at hround
  cases hr : r.advance p rules with
  | running next =>
    rw [hr] at hround
    cases hround
  | ended ending last =>
    rw [hr] at hround
    cases hround with
    | ended _ hlast =>
      -- The full output would have refused a byte.
      obtain ⟨i, -, he⟩ := exec_of_advance_failed hr
      refine Machine.not_accept_of_exec_failed he ?_
      rw [h.machine.output.device]
      exact hd.accepts _

/-- **A run that writes more than there is room for** comes to a state where it is about to write
the first byte too many, and the bounded run goes along with it so far. -/
theorem Bounded.exists_writesNext {k : Nat} (hd : full.Limits n limited)
    (h : Bounded n full limited r r') (hs : Steps p rules k r u)
    (hsize : n < u.machine.output.written.size) :
    ∃ j s s', Steps p rules j r s ∧ Steps p rules j r' s' ∧ Bounded n full limited s s' ∧
      s.WritesNext p rules n := by
  have hleft (s' : Run w) : ¬ Bounded n full limited u s' := by
    intro hr
    have hle := hr.machine.output.size_le
    omega
  obtain ⟨cause, hc⟩ := WriteAnswer.exists_refusal? hd.refuses
  obtain ⟨j, s', s, _, _, hs', hs, hbounded, ha, rfl⟩ :=
    (lockstep_bounded p rules hd hc).exists_excused h hs hleft
  exact ⟨j, s, s', hs, hs', hbounded, hbounded.writesNext_of_failed hd ha⟩

/-- What was written before the byte at position `n` are the first `n` bytes of what is written
later. -/
theorem WritesNext.written_eq_take {j k : Nat} (h : s.WritesNext p rules n)
    (hs : Steps p rules j r s) (hu : Steps p rules k r u)
    (hsize : n < u.machine.output.written.size) :
    s.machine.output.written.toList = u.machine.output.written.toList.take n := by
  rcases hs.linear hu with ⟨_, hsu⟩ | ⟨_, hus⟩
  · rw [← h.size, ← Array.length_toList]
    exact List.prefix_iff_eq_take.mp hsu.output.written
  · have hle := hus.output.written.length_le
    rw [Array.length_toList, Array.length_toList, h.size] at hle
    omega

end Run

/-- **A bounded output sees exactly a prefix of the full output.** If a program writes no more than
there is room for, it runs alike with both. Otherwise the bounded run ends with the refusal, has
written the first `n` bytes, and leaves the tape and the input as they are in the full run just
before the instruction that writes one byte more. -/
theorem Program.execute_limited (p : Program) (rules : Rules) (m : Machine w)
    (hd : full.Limits n limited) :
    (Run.Throughout p rules (fun _ m => m.output.written.size ≤ n) (.start (m.onto full)) →
      p.RunsAlike rules (Machine.Related Eq Eq (Output.LimitedTo n full limited)) (m.onto full)
        (m.onto limited)) ∧
    (∀ k u, Run.Steps p rules k (.start (m.onto full)) u → n < u.machine.output.written.size →
      ∃ j s cause, Run.Steps p rules j (.start (m.onto full)) s ∧ s.WritesNext p rules n ∧
        (limited.answer n).refusal? = some cause ∧
        ∀ rounds, j < rounds → ∃ x, p.execute rules rounds (m.onto limited) = some x ∧
          x.result = .error (.output cause) ∧
          x.machine.output.written.toList = u.machine.output.written.toList.take n ∧
          x.machine.tape = s.machine.tape ∧ x.machine.input = s.machine.input) := by
  have hstart : Run.Bounded n full limited (.start (m.onto full)) (.start (m.onto limited)) :=
    Run.alike_start ⟨rfl, rfl, Output.limitedTo_ofDevice n full limited, rfl⟩
  refine ⟨fun hroom => ?_, fun k u hu hsize => ?_⟩
  · exact (Run.lockstep_of_room p rules hd).runsAlike (fun _ _ hr => hr.1)
      (Machine.respectsFlush_related fun _ _ ho => ho.flush_alike hd) ⟨hstart, hroom⟩
  · obtain ⟨j, s, s', hs, hs', hbounded, hnext⟩ := hstart.exists_writesNext hd hu hsize
    obtain ⟨cause, hc⟩ := WriteAnswer.exists_refusal? hd.refuses
    have hends : s'.advance p rules =
        .ended (.failed (.output cause)) { s' with machine := s'.machine.refused } := by
      rw [← hbounded.machine.output.device'] at hc
      exact (hnext.of_bounded hbounded).advance_of_refusal? hc
    refine ⟨j, s, cause, hs, hnext, hc, fun rounds hj => ?_⟩
    have hend := Run.toEnd_eq_some_iff.mpr ⟨j, hj, s', hs', hends⟩
    refine ⟨_, congrArg _ hend, rfl, ?_, ?_, ?_⟩
    · rw [← hnext.written_eq_take hs hu hsize, ← hbounded.machine.output.written]
      rfl
    · exact hbounded.machine.tape.symm
    · exact hbounded.machine.input.symm

/-- A program that writes one byte, and a loop that writes without end, both to a device that takes
two. -/
theorem Program.execute_limited_endless :
    ∃ (p q : Program) (m : Machine .byte) (limited : Device) (u : Run .byte),
      p.instructions = #[.single .inc, .single .output] ∧
      q.instructions = #[.single .inc, .single .loopStart, .single .output, .single .loopEnd] ∧
      Device.unlimited.Limits 2 limited ∧
      Run.Throughout p ⟨.wrap, true⟩ (fun _ m => m.output.written.size ≤ 2)
        (.start (m.onto .unlimited)) ∧
      p.RunsAlike ⟨.wrap, true⟩ (Machine.Related Eq Eq (Output.LimitedTo 2 .unlimited limited))
        (m.onto .unlimited) (m.onto limited) ∧
      Run.Steps q ⟨.wrap, true⟩ 7 (.start (m.onto .unlimited)) u ∧
      u.machine.output.written = #[1, 1, 1] ∧
      ∃ j s cause, Run.Steps q ⟨.wrap, true⟩ j (.start (m.onto .unlimited)) s ∧
        s.WritesNext q ⟨.wrap, true⟩ 2 ∧ (limited.answer 2).refusal? = some cause ∧
        ∀ rounds, j < rounds → ∃ x, q.execute ⟨.wrap, true⟩ rounds (m.onto limited) = some x ∧
          x.result = .error (.output cause) ∧ x.machine.output.written.toList = [1, 1] ∧
          x.machine.tape = s.machine.tape ∧ x.machine.input = s.machine.input := by
  let p : Program := ⟨#[.single .inc, .single .output], ⟨#[0, 1]⟩, rfl⟩
  let q : Program := ⟨#[.single .inc, .single .loopStart, .single .output, .single .loopEnd],
    ⟨#[0, 3, 2, 1]⟩, rfl⟩
  let m : Machine .byte :=
    ⟨.blank .byte 1 (by decide) (by decide), [], .ofDevice .unlimited, false⟩
  have hd := Device.limits_takingOnly 2
  have hp : Run.Throughout p ⟨.wrap, true⟩ (fun _ m => m.output.written.size ≤ 2)
      (.start (m.onto .unlimited)) := Run.throughout_of_holdsToEnd 3 (by decide)
  obtain ⟨u, hu, hwritten⟩ : ∃ u, Run.Steps q ⟨.wrap, true⟩ 7 (.start (m.onto .unlimited)) u ∧
      u.machine.output.written = #[1, 1, 1] :=
    ⟨_, .head rfl (.head rfl (.head rfl (.head rfl (.head rfl (.head rfl (.single rfl)))))), rfl⟩
  have hsize : 2 < u.machine.output.written.size := by
    rw [hwritten]
    decide
  have hq := (execute_limited q ⟨.wrap, true⟩ m hd).2 7 u hu hsize
  rw [hwritten] at hq
  exact ⟨p, q, m, _, u, rfl, rfl, hd, hp, (execute_limited p ⟨.wrap, true⟩ m hd).1 hp, hu, hwritten,
    hq⟩

end Brainfuck
