import Brainfuck.Proofs.Steps

/-!
# Cancelling a run

The streams of a machine can raise its flag in any of their reads and writes, also in a write that
fails. A run that heeds the flag is compared with the run of the same program on the same machine
that does not. Both go through the same rounds as long as the flag is lowered, and the run that heeds
it stops before the first instruction that finds it raised. It is cut between two instructions: the
one after which the flag was first raised is executed as a whole, and the next one not at all. An
instruction that raises the flag and fails ends both runs with its error.

## Main definitions

* `Run.LoweredFor`: the flag is lowered before each of so many rounds
* `Run.FirstRaised`: the flag is first raised after so many rounds

## Main results

* `Run.steps_heeding_iff`: a run that heeds the flag goes through the rounds before which it is
  lowered
* `Run.exists_firstRaised_of_cancelled`: a run is cancelled where the flag is first raised
* `Run.toEnd_heeding`: a flag that is raised at the end of the program alone makes no difference
* `Program.execute_cut`: cancelling a run cuts it between two instructions
-/

namespace Brainfuck

variable {w : Width} {p : Program} {policy : BoundsPolicy}

namespace Run

variable {k : Nat} {r r' s last : Run w}

/-! ## The flag before a round -/

theorem advance_heeding_of_lowered (h : r.machine.cancelled = false) :
    r.advance p ⟨policy, true⟩ = r.advance p ⟨policy, false⟩ := by
  unfold advance
  simp only [h, Bool.and_false]

theorem lowered_of_advance_running (h : r.advance p ⟨policy, true⟩ = .running r') :
    r.machine.cancelled = false := by
  cases round_of_advance h with
  | done _ hs => exact hs

/-- A round that ends in a cancellation found the flag raised. -/
theorem raised_of_advance_cancelled {rules : Rules} {pc : Nat}
    (h : r.advance p rules = .ended (.completed (.cancelled pc)) last) :
    r.pc = pc ∧ pc < p.size ∧ r.machine.cancelled = true := by
  cases round_of_advance h with
  | cancelled hi hs =>
    exact ⟨rfl, (Array.getElem?_eq_some_iff.mp hi).1, (Bool.and_eq_true_iff.mp hs).2⟩

/-! ## The flag during a run -/

/-- The flag is lowered before each of the first `k` rounds of the run that does not heed it. -/
def LoweredFor (p : Program) (policy : BoundsPolicy) (k : Nat) (r : Run w) : Prop :=
  ∀ j < k, ∀ s, Steps p ⟨policy, false⟩ j r s → s.machine.cancelled = false

/-- The flag is first raised after `k` rounds of the run that does not heed it, or before the run
if `k` is zero, and the run is then at `s`. -/
structure FirstRaised (p : Program) (policy : BoundsPolicy) (k : Nat) (r s : Run w) : Prop where
  steps : Steps p ⟨policy, false⟩ k r s
  raised : s.machine.cancelled = true
  lowered : r.LoweredFor p policy k

theorem loweredFor_succ_iff (first : r.advance p ⟨policy, false⟩ = .running r') :
    r.LoweredFor p policy (k + 1) ↔
      r.machine.cancelled = false ∧ r'.LoweredFor p policy k := by
  constructor
  · intro h
    exact ⟨h 0 (Nat.succ_pos k) r (.refl r),
      fun j hj s hs => h (j + 1) (Nat.succ_lt_succ hj) s (.head first hs)⟩
  · rintro ⟨hr, hr'⟩ j hj s hs
    cases hs with
    | refl => exact hr
    | head first' rest =>
      obtain rfl := Next.running.inj (first.symm.trans first')
      exact hr' _ (Nat.lt_of_succ_lt_succ hj) s rest

/-- **A run that heeds the flag** goes through the rounds of the one that does not before which the
flag is lowered. -/
theorem steps_heeding_iff :
    Steps p ⟨policy, true⟩ k r s ↔
      Steps p ⟨policy, false⟩ k r s ∧ r.LoweredFor p policy k := by
  constructor
  · intro h
    induction h with
    | refl r => exact ⟨.refl r, fun j hj => absurd hj (Nat.not_lt_zero j)⟩
    | head first _ ih =>
      obtain ⟨hsteps, hlowered⟩ := ih
      have hc := lowered_of_advance_running first
      rw [advance_heeding_of_lowered hc] at first
      exact ⟨.head first hsteps, (loweredFor_succ_iff first).mpr ⟨hc, hlowered⟩⟩
  · rintro ⟨h, hlowered⟩
    induction h with
    | refl r => exact .refl r
    | head first _ ih =>
      obtain ⟨hc, hrest⟩ := (loweredFor_succ_iff first).mp hlowered
      exact .head ((advance_heeding_of_lowered hc).trans first) (ih hrest)

theorem firstRaised_zero (h : r.machine.cancelled = true) : FirstRaised p policy 0 r r :=
  ⟨.refl r, h, fun j hj => absurd hj (Nat.not_lt_zero j)⟩

theorem FirstRaised.head (hc : r.machine.cancelled = false)
    (first : r.advance p ⟨policy, false⟩ = .running r') (h : FirstRaised p policy k r' s) :
    FirstRaised p policy (k + 1) r s :=
  ⟨.head first h.steps, h.raised, (loweredFor_succ_iff first).mpr ⟨hc, h.lowered⟩⟩

/-- **A run is cancelled** where the flag is first raised. -/
theorem exists_firstRaised_of_cancelled {pc : Nat}
    (h : r.EndsAfter p ⟨policy, true⟩ k (.completed (.cancelled pc)) last) :
    pc < p.size ∧ ∃ s, FirstRaised p policy k r s ∧ s.pc = pc ∧ last.machine = s.machine := by
  obtain ⟨s, hs, ha⟩ := h
  obtain ⟨hsteps, hlowered⟩ := steps_heeding_iff.mp hs
  obtain ⟨hpc, hlt, hraised⟩ := raised_of_advance_cancelled ha
  exact ⟨hlt, s, ⟨hsteps, hraised, hlowered⟩, hpc, machine_of_advance_ended ha⟩

/-- A flag that is first raised before an instruction cancels the run there. -/
theorem FirstRaised.endsAfter (h : FirstRaised p policy k r s) (hs : s.pc < p.size) :
    r.EndsAfter p ⟨policy, true⟩ k (.completed (.cancelled s.pc))
      { s with events := s.events.push (.cancelled s.pc s.executed) } :=
  ⟨s, steps_heeding_iff.mpr ⟨h.steps, h.lowered⟩,
    advance_of_stops (Array.getElem?_eq_getElem hs) h.raised⟩

/-- **A flag that is not raised before an instruction** makes no difference. -/
theorem toEnd_heeding (h : ∀ k s, FirstRaised p policy k r s → s.pc = p.size) (rounds : Nat) :
    r.toEnd p ⟨policy, true⟩ rounds = r.toEnd p ⟨policy, false⟩ rounds := by
  induction rounds generalizing r with
  | zero => rfl
  | succ rounds ih =>
    cases hc : r.machine.cancelled with
    | true =>
      -- The run is at the end of the program, where the flag is not looked at.
      have hnone : p.instructions[r.pc]? = none := by
        rw [h 0 r (firstRaised_zero hc)]
        exact Array.getElem?_eq_none (Nat.le_refl _)
      rw [toEnd, toEnd, advance_of_none hnone, advance_of_none hnone]
    | false =>
      rw [toEnd, toEnd, advance_heeding_of_lowered hc]
      cases ha : r.advance p ⟨policy, false⟩ with
      | running r' => exact ih fun k s hs => h (k + 1) s (hs.head hc ha)
      | ended ending last => rfl

end Run

/-- **Cancelling a run cuts it between two instructions.** A run that reports to be cancelled before
the instruction at `pc`, after `k` instructions, has come as far as the run that does not heed the
flag comes with `k` instructions, and the flag was first raised by the last of them. The other way
round, a flag that is first raised before an instruction cancels the run there. A flag that is never
raised, or first raised at the end of the program, makes no difference. -/
theorem Program.execute_cut (p : Program) (policy : BoundsPolicy) (m : Machine w) :
    (∀ rounds x pc k, p.execute ⟨policy, true⟩ rounds m = some x →
      x.result = .ok ⟨.cancelled pc, k⟩ →
      pc < p.size ∧ ∃ s, Run.FirstRaised p policy k (.start m) s ∧ s.pc = pc ∧
        x.machine.tape = s.machine.tape ∧
        x.machine.input = s.machine.input ∧
        x.machine.output.written = s.machine.output.written) ∧
    (∀ k s, Run.FirstRaised p policy k (.start m) s → s.pc < p.size → ∀ rounds, k < rounds →
      p.execute ⟨policy, true⟩ rounds m =
        some (Execution.close (.completed (.cancelled s.pc))
          { s with events := s.events.push (.cancelled s.pc k) })) ∧
    ((∀ k s, Run.FirstRaised p policy k (.start m) s → s.pc = p.size) →
      ∀ rounds, p.execute ⟨policy, true⟩ rounds m = p.execute ⟨policy, false⟩ rounds m) := by
  refine ⟨?_, ?_, ?_⟩
  · intro rounds x pc k hx hresult
    obtain ⟨⟨ending, last⟩, hend, rfl⟩ := Option.map_eq_some_iff.mp hx
    obtain ⟨rfl, -, rfl⟩ := Execution.report_eq_ok_iff.mp hresult
    obtain ⟨j, -, hends⟩ := Run.toEnd_eq_some_iff.mp hend
    obtain ⟨hlt, s, hs, hpc, hmachine⟩ := Run.exists_firstRaised_of_cancelled hends
    have hexecuted : last.executed = j := hends.executed.trans (Nat.zero_add j)
    rw [hexecuted]
    -- The flush adds nothing to what was written.
    refine ⟨hlt, s, hs, hpc, ?_, ?_, ?_⟩ <;> rw [← hmachine] <;> rfl
  · intro k s hs hlt rounds hk
    have hexecuted : s.executed = k := hs.steps.executed.trans (Nat.zero_add k)
    have hend := Run.toEnd_eq_some_iff.mpr ⟨k, hk, hs.endsAfter hlt⟩
    rw [execute, hend, hexecuted]
    rfl
  · intro h rounds
    rw [execute, execute, Run.toEnd_heeding h]

/-- A loop is cut while its second byte is waited for. A program whose flag is raised by its last
instruction is not cut, and neither is one whose flag is raised by a write that fails. -/
theorem Program.execute_cut_waiting :
    (∃ (p : Program) (m : Machine .byte) (x : Execution .byte),
      p.instructions = #[.single .input, .single .loopStart, .single .output, .single .input,
        .single .loopEnd] ∧
      m.input = [.byte 1, .cancel, .interrupted, .byte 2] ∧
      p.execute ⟨.wrap, true⟩ 5 m = some x ∧
      x.result = .ok ⟨.cancelled 4, 4⟩ ∧
      ∃ s, Run.FirstRaised p .wrap 4 (.start m) s ∧ s.pc = 4 ∧
        x.machine.tape = s.machine.tape) ∧
    (∃ (p : Program) (m : Machine .byte),
      p.instructions = #[.single .input] ∧ m.input = [.cancel] ∧
      p.execute ⟨.wrap, true⟩ 2 m = p.execute ⟨.wrap, false⟩ 2 m) ∧
    ∃ (p : Program) (m : Machine .byte) (x : Execution .byte),
      p.instructions = #[.single .output, .single .output] ∧
      m.output.device.cancelsFailing 0 = true ∧
      p.execute ⟨.wrap, false⟩ 1 m = some x ∧ x.result = .error (.output "broken pipe") ∧
      x.machine.cancelled = true ∧ p.execute ⟨.wrap, true⟩ 1 m = some x := by
  refine ⟨?_, ?_, ?_⟩
  · obtain ⟨p, m, hp, hm, hend⟩ : ∃ (p : Program) (m : Machine .byte),
        p.instructions = #[.single .input, .single .loopStart, .single .output, .single .input,
          .single .loopEnd] ∧
        m.input = [.byte 1, .cancel, .interrupted, .byte 2] ∧
        (p.execute ⟨.wrap, true⟩ 5 m).map (·.result) = some (.ok ⟨.cancelled 4, 4⟩) :=
      ⟨⟨_, ⟨#[0, 4, 2, 3, 1]⟩, rfl⟩, ⟨.blank .byte 1 (by decide) (by decide), _,
        .ofDevice .unlimited, false⟩, rfl, rfl, rfl⟩
    obtain ⟨x, hx, hresult⟩ := Option.map_eq_some_iff.mp hend
    obtain ⟨-, s, hs, hpc, htape, -⟩ := (execute_cut p .wrap m).1 5 x 4 4 hx hresult
    exact ⟨p, m, x, hp, hm, hx, hresult, s, hs, hpc, htape⟩
  · refine ⟨⟨#[.single .input], ⟨#[0]⟩, rfl⟩, ⟨.blank .byte 1 (by decide) (by decide), [.cancel],
      .ofDevice .unlimited, false⟩, rfl, rfl, (execute_cut _ .wrap _).2.2 ?_ 2⟩
    intro k s hs
    cases hs.steps with
    | refl => cases hs.raised
    | head first rest =>
      obtain rfl := Run.Next.running.inj first
      cases rest with
      | refl => rfl
      | head second _ => cases second
  · let device : Device :=
      { Device.unlimited.refusingAfter 0 "broken pipe" with cancelsFailing := fun _ => true }
    let p : Program := ⟨#[.single .output, .single .output], ⟨#[0, 1]⟩, rfl⟩
    let m : Machine .byte :=
      ⟨.blank .byte 1 (by decide) (by decide), [], .ofDevice device, false⟩
    refine ⟨p, m, _, rfl, rfl, rfl, rfl, rfl, (execute_cut p .wrap m).2.2 ?_ 1⟩
    -- No instruction is done, so that none raises the flag.
    intro k s hs
    cases hs.steps with
    | refl => cases hs.raised
    | head first _ => cases first

end Brainfuck
