import Brainfuck.Proofs.Asking
import Brainfuck.Session

/-!
# Families of runners

Runners meet in nothing but the flags of their families. What the commands of a session come to is
told by a log of them: it tells which runners there are, in which families, and which flags are
raised. A flag is raised exactly if a member of its family was cancelled, by itself or by the
streams of one of its runs, and no member was reset since. A run comes to what it comes to on a
runner of its own, and a text that is run by itself meets no family at all.

## Main definitions

* `Session.Entry`, `Session.Follows`: the commands that led to a session
* `Session.lineages`: the runners that a log tells of
* `Session.RaisedSince`: the flag of a family was raised, and not lowered since
* `Session.Separate`: the runners of a session meet in the flags of their families alone

## Main results

* `Session.performs_of_perform`: what a command comes to
* `Session.raisedSince_cons_iff`: what one more command does to the flag of a family
* `Session.Mirrors.exists_perform`: a session mirrors its log throughout
* `Session.separate_of_follows`: runners meet in the flags of their families alone
-/

namespace Brainfuck.Session

/-! ## Logs of commands -/

/-- A command that was performed, with what came of it. -/
structure Entry where
  command : Command
  reply : Reply

/-- **The session `s` is what the commands of a log lead to**, from a session without runners. The
latest command comes first. -/
inductive Follows : List Entry → Session → Prop
  | empty : Follows [] .empty
  | perform {log : List Entry} {s s' : Session} {rounds : Nat} {command : Command} {reply : Reply}
      (h : Follows log s) (hp : s.perform rounds command = some (s', reply)) :
      Follows (⟨command, reply⟩ :: log) s'

/-- What a log tells of a runner. -/
structure Lineage where
  config : Config
  /-- The number of the runner that its family began with. -/
  founder : Nat
  deriving DecidableEq, Repr

/-- **The runners that a log tells of**, in the order in which they were made. A runner made anew is
the founder of a family, and a clone has the founder of its model. -/
def lineages : List Entry → List Lineage
  | [] => []
  | ⟨.new config, _⟩ :: log => lineages log ++ [⟨config, (lineages log).length⟩]
  | ⟨.clone number, _⟩ :: log => lineages log ++ (lineages log)[number]?.toList
  | ⟨.cancel _, _⟩ :: log | ⟨.reset _, _⟩ :: log | ⟨.run .., _⟩ :: log
  | ⟨.runOnce .., _⟩ :: log => lineages log

/-- The founder of the family that a command concerns: no family, if a runner is made or a text is
run by itself. -/
def Command.founder? (kin : List Lineage) : Command → Option Nat
  | new _ | clone _ | runOnce .. => none
  | cancel number | reset number | run number _ => kin[number]?.map Lineage.founder

/-- **An entry raises the flag of a family**: a member is cancelled, or a stream of one of its runs
asks to stop. -/
inductive Entry.Raises (kin : List Lineage) (founder : Nat) : Entry → Prop
  | cancel {number : Nat} (h : (Command.cancel number).founder? kin = some founder) :
      Raises kin founder ⟨.cancel number, .done⟩
  | run {number : Nat} {request : Request} {t : Transcript}
      (h : (Command.run number request).founder? kin = some founder) (asks : request.Asks t) :
      Raises kin founder ⟨.run number request, .transcript t⟩

/-- **An entry lowers the flag of a family**: a member is reset. -/
inductive Entry.Lowers (kin : List Lineage) (founder : Nat) : Entry → Prop
  | reset {number : Nat} (h : (Command.reset number).founder? kin = some founder) :
      Lowers kin founder ⟨.reset number, .done⟩

/-- **The flag of a family was raised** by an entry of the log, and by no later entry lowered. -/
def RaisedSince (log : List Entry) (founder : Nat) : Prop :=
  ∃ e earlier, e :: earlier <:+ log ∧ e.Raises (lineages earlier) founder ∧
    ∀ e' earlier', e' :: earlier' <:+ log → earlier.length < earlier'.length →
      ¬ e'.Lowers (lineages earlier') founder

variable {log : List Entry} {e : Entry} {founder : Nat}

theorem not_raisedSince_nil (founder : Nat) : ¬ RaisedSince [] founder := by
  rintro ⟨e, earlier, hsuffix, -⟩
  exact List.cons_ne_nil _ _ (List.suffix_nil.mp hsuffix)

/-- **One more entry** leaves a flag raised if it raises it, or if it was raised and is not
lowered. -/
theorem raisedSince_cons_iff :
    RaisedSince (e :: log) founder ↔
      e.Raises (lineages log) founder ∨
        RaisedSince log founder ∧ ¬ e.Lowers (lineages log) founder := by
  constructor
  · rintro ⟨e₀, earlier, hsuffix, hraises, hkept⟩
    -- It was raised by the new entry, or by an earlier one that the new entry does not undo.
    rcases List.suffix_cons_iff.mp hsuffix with heq | hsuffix
    · obtain ⟨rfl, rfl⟩ := List.cons.inj heq
      exact .inl hraises
    · refine .inr ⟨⟨e₀, earlier, hsuffix, hraises, fun e' earlier' h hlt => ?_⟩, ?_⟩
      · exact hkept e' earlier' (h.trans (List.suffix_cons _ _)) hlt
      · exact hkept e log (List.suffix_refl _) hsuffix.length_le
  · rintro (hraises | ⟨⟨e₀, earlier, hsuffix, hraises, hkept⟩, hlowers⟩)
    · refine ⟨e, log, List.suffix_refl _, hraises, fun e' earlier' h hlt => ?_⟩
      exact absurd hlt (Nat.not_lt_of_le (Nat.le_of_succ_le_succ h.length_le))
    · -- The entries behind the one that raised it are those of the log and the new one.
      refine ⟨e₀, earlier, hsuffix.trans (List.suffix_cons _ _), hraises,
        fun e' earlier' h hlt => ?_⟩
      rcases List.suffix_cons_iff.mp h with heq | h
      · obtain ⟨rfl, rfl⟩ := List.cons.inj heq
        exact hlowers
      · exact hkept e' earlier' h hlt

/-- An entry that concerns another family leaves a flag alone. -/
theorem raisedSince_cons_of_founder?_ne (h : e.command.founder? (lineages log) ≠ some founder) :
    RaisedSince (e :: log) founder ↔ RaisedSince log founder := by
  have hraises : ¬ e.Raises (lineages log) founder := by
    rintro (hf | hf) <;> exact h hf
  have hlowers : ¬ e.Lowers (lineages log) founder := by
    rintro ⟨hf⟩
    exact h hf
  rw [raisedSince_cons_iff]
  simp only [hraises, hlowers, false_or, not_false_eq_true, and_true]

/-- An entry that concerns a family makes no runner. -/
theorem lineages_cons_of_founder? {kin : List Lineage}
    (h : e.command.founder? kin = some founder) (log : List Entry) :
    lineages (e :: log) = lineages log := by
  obtain ⟨command, reply⟩ := e
  cases command with
  | new | clone | runOnce => cases h
  | cancel | reset | run => rfl

/-- Every runner that a log tells of is told of by a longer one. -/
theorem mem_lineages_cons {l : Lineage} (h : l ∈ lineages log) (e : Entry) :
    l ∈ lineages (e :: log) := by
  obtain ⟨command, reply⟩ := e
  cases command with
  | new config => exact List.mem_append_left _ h
  | clone number => exact List.mem_append_left _ h
  | _ => exact h

theorem mem_lineages_new {config : Config} {reply : Reply} {l : Lineage} :
    l ∈ lineages (⟨.new config, reply⟩ :: log) ↔
      l ∈ lineages log ∨ l = ⟨config, (lineages log).length⟩ := by
  rw [lineages, List.mem_append, List.mem_singleton]

theorem getElem?_lineages_cons {number : Nat} {l : Lineage} (h : (lineages log)[number]? = some l)
    (e : Entry) : (lineages (e :: log))[number]? = some l := by
  obtain ⟨command, reply⟩ := e
  obtain ⟨hlt, -⟩ := List.getElem?_eq_some_iff.mp h
  cases command with
  | new | clone => exact (List.getElem?_append_left hlt).trans h
  | cancel | reset | run | runOnce => exact h

theorem exists_mem_of_founder? {kin : List Lineage} {command : Command}
    (h : command.founder? kin = some founder) : ∃ l ∈ kin, l.founder = founder := by
  cases command with
  | new | clone | runOnce => cases h
  | _ =>
    obtain ⟨l, hl, hf⟩ := Option.map_eq_some_iff.mp h
    exact ⟨l, List.mem_of_getElem? hl, hf⟩

/-- Only a family that there is has its flag raised. -/
theorem exists_mem_of_raisedSince (h : RaisedSince log founder) :
    ∃ l ∈ lineages log, l.founder = founder := by
  induction log with
  | nil => exact absurd h (not_raisedSince_nil founder)
  | cons e log ih =>
    have hearlier : ∃ l ∈ lineages log, l.founder = founder := by
      rcases raisedSince_cons_iff.mp h with hraises | ⟨h, -⟩
      · cases hraises with
        | cancel hfounder => exact exists_mem_of_founder? hfounder
        | run hfounder => exact exists_mem_of_founder? hfounder
      · exact ih h
    obtain ⟨l, hl, hf⟩ := hearlier
    exact ⟨l, mem_lineages_cons hl e, hf⟩

/-! ## What a command comes to -/

/-- The runner that a command is about. -/
def Command.number? : Command → Option Nat
  | new _ | runOnce .. => none
  | clone number | cancel number | reset number | run number _ => some number

/-- **What a command comes to.** -/
inductive Performs (s : Session) (rounds : Nat) : Command → Session → Reply → Prop
  | new (config : Config) : Performs s rounds (.new config) (s.new config) .done
  | clone {number : Nat} {m : Member} (hm : s.members[number]? = some m) :
      Performs s rounds (.clone number) { s with members := s.members ++ [m] } .done
  | cancel {number : Nat} {m : Member} (hm : s.members[number]? = some m) :
      Performs s rounds (.cancel number) (s.setFlag m.family true) .done
  | reset {number : Nat} {m : Member} (hm : s.members[number]? = some m) :
      Performs s rounds (.reset number) (s.setFlag m.family false) .done
  | run {number : Nat} {m : Member} {request : Request} {t : Transcript}
      (hm : s.members[number]? = some m) (ht : (s.runner m).serve rounds request = some t) :
      Performs s rounds (.run number request) (s.setFlag m.family t.cancelled) (.transcript t)
  | runOnce {config : Config} {source : String} {input : Input} {output : Output} {t : Transcript}
      (ht : Runner.runOnce config rounds source input output = some t) :
      Performs s rounds (.runOnce config source input output) s (.transcript t)
  | noRunner {command : Command} {number : Nat} (hn : command.number? = some number)
      (hm : s.members[number]? = none) : Performs s rounds command s .noRunner

/-- Acting on a runner that there is not leaves the session alone. -/
theorem cases_of_withMember {s s' : Session} {number : Nat} {reply : Reply}
    {act : Member → Option (Session × Reply)} (h : s.withMember number act = some (s', reply)) :
    (∃ m, s.members[number]? = some m ∧ act m = some (s', reply)) ∨
      s.members[number]? = none ∧ s' = s ∧ reply = .noRunner := by
  unfold withMember at h
  split at h
  next m hm => exact .inl ⟨m, hm, h⟩
  next hm =>
    cases h
    exact .inr ⟨hm, rfl, rfl⟩

theorem performs_of_perform {s s' : Session} {rounds : Nat} {command : Command} {reply : Reply}
    (h : s.perform rounds command = some (s', reply)) : s.Performs rounds command s' reply := by
  cases command with
  | new config =>
    cases h
    exact .new config
  | clone number =>
    rcases cases_of_withMember h with ⟨m, hm, hact⟩ | ⟨hm, rfl, rfl⟩
    · cases hact
      exact .clone hm
    · exact .noRunner rfl hm
  | cancel number =>
    rcases cases_of_withMember h with ⟨m, hm, hact⟩ | ⟨hm, rfl, rfl⟩
    · cases hact
      exact .cancel hm
    · exact .noRunner rfl hm
  | reset number =>
    rcases cases_of_withMember h with ⟨m, hm, hact⟩ | ⟨hm, rfl, rfl⟩
    · cases hact
      exact .reset hm
    · exact .noRunner rfl hm
  | run number request =>
    rcases cases_of_withMember h with ⟨m, hm, hact⟩ | ⟨hm, rfl, rfl⟩
    · obtain ⟨t, ht, heq⟩ := Option.map_eq_some_iff.mp hact
      cases heq
      exact .run hm ht
    · exact .noRunner rfl hm
  | runOnce =>
    obtain ⟨t, ht, heq⟩ := Option.map_eq_some_iff.mp h
    cases heq
    exact .runOnce ht

/-! ## Sessions mirror their logs -/

theorem isRaised_setFlag (s : Session) {family : Nat} (h : family < s.flags.length) (raised : Bool)
    (family' : Nat) :
    (s.setFlag family raised).isRaised family' =
      if family = family' then raised else s.isRaised family' := by
  unfold isRaised setFlag
  rw [List.getD_eq_getElem?_getD, List.getD_eq_getElem?_getD, List.getElem?_set]
  by_cases heq : family = family'
  · rw [if_pos heq, if_pos heq, if_pos h]
    rfl
  · rw [if_neg heq, if_neg heq]

/-- **A session mirrors a log**: its runners are the ones that the log tells of, where `φ` tells the
index of a family from its founder, and its flags are raised where the log tells so. -/
structure Mirrors (φ : Nat → Nat) (log : List Entry) (s : Session) : Prop where
  members : s.members = (lineages log).map fun l => ⟨l.config, φ l.founder⟩
  founder_lt : ∀ l ∈ lineages log, l.founder < (lineages log).length
  family_lt : ∀ l ∈ lineages log, φ l.founder < s.flags.length
  distinct : ∀ l ∈ lineages log, ∀ l' ∈ lineages log, φ l.founder = φ l'.founder →
    l.founder = l'.founder
  raised_iff : ∀ l ∈ lineages log, s.isRaised (φ l.founder) = true ↔ RaisedSince log l.founder

namespace Mirrors

variable {φ : Nat → Nat} {s s' : Session}

theorem empty : Mirrors φ [] .empty where
  members := rfl
  founder_lt := fun _ h => nomatch h
  family_lt := fun _ h => nomatch h
  distinct := fun _ h => nomatch h
  raised_iff := fun _ h => nomatch h

theorem getElem?_members (h : Mirrors φ log s) (number : Nat) :
    s.members[number]? = (lineages log)[number]?.map fun l => ⟨l.config, φ l.founder⟩ := by
  rw [h.members, List.getElem?_map]

theorem exists_lineage (h : Mirrors φ log s) {number : Nat} {m : Member}
    (hm : s.members[number]? = some m) :
    ∃ l, (lineages log)[number]? = some l ∧ m = ⟨l.config, φ l.founder⟩ := by
  rw [h.getElem?_members] at hm
  obtain ⟨l, hl, rfl⟩ := Option.map_eq_some_iff.mp hm
  exact ⟨l, hl, rfl⟩

/-- An entry that makes no runner and changes no flag. -/
theorem unchanged (h : Mirrors φ log s) (hkin : lineages (e :: log) = lineages log)
    (hsince : ∀ l ∈ lineages log, RaisedSince (e :: log) l.founder ↔ RaisedSince log l.founder) :
    Mirrors φ (e :: log) s where
  members := hkin ▸ h.members
  founder_lt := hkin ▸ h.founder_lt
  family_lt := hkin ▸ h.family_lt
  distinct := hkin ▸ h.distinct
  raised_iff := by
    rw [hkin]
    exact fun l hl => (h.raised_iff l hl).trans (hsince l hl).symm

/-- An entry that sets the flag of a family. -/
theorem setFlag (h : Mirrors φ log s) {l : Lineage} (hl : l ∈ lineages log)
    (hf : e.command.founder? (lineages log) = some l.founder) {raised : Bool}
    (hraised : raised = true ↔ RaisedSince (e :: log) l.founder) :
    Mirrors φ (e :: log) (s.setFlag (φ l.founder) raised) := by
  have hkin := lineages_cons_of_founder? hf log
  refine ⟨hkin ▸ h.members, hkin ▸ h.founder_lt, ?_, hkin ▸ h.distinct, ?_⟩
  · rw [hkin, Session.setFlag, List.length_set]
    exact h.family_lt
  · rw [hkin]
    intro l' hl'
    rw [isRaised_setFlag s (h.family_lt l hl)]
    by_cases heq : l.founder = l'.founder
    · rw [← heq, if_pos rfl, hraised]
    · rw [if_neg fun hφ => heq (h.distinct l hl l' hl' hφ), h.raised_iff l' hl']
      refine (raisedSince_cons_of_founder?_ne fun hf' => heq ?_).symm
      exact Option.some.inj (hf.symm.trans hf')

theorem lt_of_raisedSince (h : Mirrors φ log s) (hr : RaisedSince log founder) :
    founder < (lineages log).length := by
  obtain ⟨l, hl, rfl⟩ := exists_mem_of_raisedSince hr
  exact h.founder_lt l hl

/-- A runner made anew founds a family, which has the next index and whose flag is lowered. -/
theorem new (h : Mirrors φ log s) (config : Config) {φ' : Nat → Nat}
    (hold : ∀ l ∈ lineages log, φ' l.founder = φ l.founder)
    (hnew : φ' (lineages log).length = s.flags.length) :
    Mirrors φ' (⟨.new config, .done⟩ :: log) (s.new config) := by
  refine ⟨?_, ?_, ?_, ?_, ?_⟩
  · rw [Session.new, h.members, lineages, List.map_append, List.map_singleton, hnew]
    exact congrArg (· ++ _) (List.map_congr_left fun l hl => by rw [hold l hl])
  · intro l hl
    rw [lineages, List.length_append, List.length_singleton]
    rcases mem_lineages_new.mp hl with hl | rfl
    · exact Nat.lt_succ_of_lt (h.founder_lt l hl)
    · exact Nat.lt_succ_self _
  · intro l hl
    rw [Session.new, List.length_append, List.length_singleton]
    rcases mem_lineages_new.mp hl with hl | rfl
    · rw [hold l hl]
      exact Nat.lt_succ_of_lt (h.family_lt l hl)
    · rw [hnew]
      exact Nat.lt_succ_self _
  · -- The index of the new family is that of no other one.
    have hne {l : Lineage} (hl : l ∈ lineages log) :
        φ' l.founder ≠ φ' (lineages log).length := by
      rw [hold l hl, hnew]
      exact Nat.ne_of_lt (h.family_lt l hl)
    intro l hl l' hl' heq
    rcases mem_lineages_new.mp hl with hl | rfl <;> rcases mem_lineages_new.mp hl' with hl' | rfl
    · rw [hold l hl, hold l' hl'] at heq
      exact h.distinct l hl l' hl' heq
    · exact absurd heq (hne hl)
    · exact absurd heq.symm (hne hl')
    · rfl
  · intro l hl
    have hsince : RaisedSince (⟨.new config, .done⟩ :: log) l.founder ↔
        RaisedSince log l.founder :=
      raisedSince_cons_of_founder?_ne (Option.some_ne_none _).symm
    rw [isRaised_new, hsince]
    rcases mem_lineages_new.mp hl with hl | rfl
    · rw [hold l hl]
      exact h.raised_iff l hl
    · -- Nothing is known of a family before it is founded.
      have hraised : s.isRaised s.flags.length = false := by simp [isRaised]
      rw [hnew, hraised]
      exact ⟨Bool.noConfusion, fun hr => absurd (h.lt_of_raisedSince hr) (Nat.lt_irrefl _)⟩

theorem exists_new (h : Mirrors φ log s) (config : Config) :
    ∃ φ', Mirrors φ' (⟨.new config, .done⟩ :: log) (s.new config) := by
  -- The number of the new runner is larger than that of any founder.
  exact ⟨fun founder => if founder = (lineages log).length then s.flags.length else φ founder,
    h.new config (fun l hl => if_neg (Nat.ne_of_lt (h.founder_lt l hl))) (if_pos rfl)⟩

/-- A clone joins the family of its model. -/
theorem clone (h : Mirrors φ log s) {number : Nat} {l : Lineage}
    (hl : (lineages log)[number]? = some l) :
    Mirrors φ (⟨.clone number, .done⟩ :: log)
      { s with members := s.members ++ [⟨l.config, φ l.founder⟩] } := by
  have hkin : lineages (⟨.clone number, .done⟩ :: log) = lineages log ++ [l] := by
    rw [lineages, hl]
    rfl
  have hmem {l' : Lineage} (hl' : l' ∈ lineages (⟨.clone number, .done⟩ :: log)) :
      l' ∈ lineages log := by
    rw [hkin] at hl'
    rcases List.mem_append.mp hl' with hl' | hl'
    · exact hl'
    · obtain rfl := List.mem_singleton.mp hl'
      exact List.mem_of_getElem? hl
  refine ⟨?_, ?_, ?_, ?_, ?_⟩
  · rw [hkin, List.map_append, h.members]
    rfl
  · intro l' hl'
    rw [hkin, List.length_append]
    exact Nat.lt_of_lt_of_le (h.founder_lt l' (hmem hl')) (Nat.le_add_right _ _)
  · exact fun l' hl' => h.family_lt l' (hmem hl')
  · exact fun l₁ h₁ l₂ h₂ => h.distinct l₁ (hmem h₁) l₂ (hmem h₂)
  · intro l' hl'
    refine (h.raised_iff l' (hmem hl')).trans (raisedSince_cons_of_founder?_ne ?_).symm
    exact (Option.some_ne_none _).symm

/-- A command about a runner that there is not. -/
theorem noRunner (h : Mirrors φ log s) {command : Command} {number : Nat}
    (hn : command.number? = some number) (hm : s.members[number]? = none) :
    Mirrors φ (⟨command, .noRunner⟩ :: log) s := by
  have hl : (lineages log)[number]? = none := by
    rw [h.getElem?_members] at hm
    exact Option.map_eq_none_iff.mp hm
  refine h.unchanged ?_ fun l _ => raisedSince_cons_of_founder?_ne ?_
  · cases command with
    | new | runOnce => cases hn
    | clone =>
      obtain rfl := Option.some.inj hn
      rw [lineages, hl]
      exact List.append_nil _
    | cancel | reset | run => rfl
  · cases command with
    | new | clone | runOnce => simp [Command.founder?]
    | cancel | reset | run =>
      obtain rfl := Option.some.inj hn
      simp [Command.founder?, hl]

/-- **A session mirrors its log** with one more command. -/
theorem exists_perform (h : Mirrors φ log s) {rounds : Nat} {command : Command} {reply : Reply}
    (hp : s.perform rounds command = some (s', reply)) :
    ∃ φ', Mirrors φ' (⟨command, reply⟩ :: log) s' := by
  cases performs_of_perform hp with
  | new config => exact h.exists_new config
  | clone hm =>
    obtain ⟨l, hl, rfl⟩ := h.exists_lineage hm
    exact ⟨φ, h.clone hl⟩
  | cancel hm =>
    obtain ⟨l, hl, rfl⟩ := h.exists_lineage hm
    have hf : (Command.cancel _).founder? (lineages log) = some l.founder :=
      congrArg (Option.map Lineage.founder) hl
    refine ⟨φ, h.setFlag (List.mem_of_getElem? hl) hf ?_⟩
    exact ⟨fun _ => raisedSince_cons_iff.mpr (.inl (.cancel hf)), fun _ => rfl⟩
  | reset hm =>
    obtain ⟨l, hl, rfl⟩ := h.exists_lineage hm
    have hf : (Command.reset _).founder? (lineages log) = some l.founder :=
      congrArg (Option.map Lineage.founder) hl
    refine ⟨φ, h.setFlag (List.mem_of_getElem? hl) hf ?_⟩
    refine ⟨Bool.noConfusion, fun hr => ?_⟩
    rcases raisedSince_cons_iff.mp hr with hraises | ⟨-, hlowers⟩
    · cases hraises
    · exact absurd (.reset hf) hlowers
  | @run _ _ request _ hm ht =>
    obtain ⟨l, hl, rfl⟩ := h.exists_lineage hm
    have hf : (Command.run _ request).founder? (lineages log) = some l.founder :=
      congrArg (Option.map Lineage.founder) hl
    refine ⟨φ, h.setFlag (List.mem_of_getElem? hl) hf ?_⟩
    -- The run raises the flag if its streams ask to stop, and never lowers it.
    rw [Runner.cancelled_of_serve ht, raisedSince_cons_iff,
      ← h.raised_iff l (List.mem_of_getElem? hl)]
    constructor
    · rintro (hraised | hasks)
      · exact .inr ⟨hraised, fun hlowers => nomatch hlowers⟩
      · exact .inl (.run hf hasks)
    · rintro (hraises | ⟨hraised, -⟩)
      · cases hraises with
        | run _ hasks => exact .inr hasks
      · exact .inl hraised
  | runOnce =>
    -- No family is concerned.
    refine ⟨φ, h.unchanged rfl fun l _ => raisedSince_cons_of_founder?_ne ?_⟩
    exact (Option.some_ne_none _).symm
  | noRunner hn hm => exact ⟨φ, h.noRunner hn hm⟩

end Mirrors

theorem exists_mirrors_of_follows {s : Session} (h : Follows log s) : ∃ φ, Mirrors φ log s := by
  induction h with
  | empty => exact ⟨id, .empty⟩
  | perform _ hp ih =>
    obtain ⟨φ, hmirrors⟩ := ih
    exact hmirrors.exists_perform hp

/-! ## What runners share -/

namespace Mirrors

variable {φ φ' : Nat → Nat} {log' : List Entry} {s s' : Session} {number : Nat} {l : Lineage}

theorem getElem?_raised (h : Mirrors φ log s) (number : Nat) :
    s.raised[number]? = (lineages log)[number]?.map fun l => s.isRaised (φ l.founder) := by
  rw [raised, List.getElem?_map, h.getElem?_members, Option.map_map]
  rfl

theorem getElem?_raised_eq_iff (h : Mirrors φ log s) (hl : (lineages log)[number]? = some l) :
    s.raised[number]? = some true ↔ RaisedSince log l.founder := by
  rw [h.getElem?_raised, hl, Option.map_some, Option.some.injEq]
  exact h.raised_iff l (List.mem_of_getElem? hl)

/-- A runner has the same flag in two sessions if the logs of both tell the same of it. -/
theorem getElem?_raised_congr (h : Mirrors φ log s) (h' : Mirrors φ' log' s')
    (hl : (lineages log)[number]? = some l) (hl' : (lineages log')[number]? = some l)
    (hsince : RaisedSince log' l.founder ↔ RaisedSince log l.founder) :
    s'.raised[number]? = s.raised[number]? := by
  rw [← h.raised_iff l (List.mem_of_getElem? hl), ← h'.raised_iff l (List.mem_of_getElem? hl'),
    ← Bool.eq_iff_iff] at hsince
  rw [h.getElem?_raised, h'.getElem?_raised, hl, hl', Option.map_some, Option.map_some, hsince]

end Mirrors

theorem reply_run {s : Session} {number : Nat} {m : Member} (hm : s.members[number]? = some m)
    (rounds : Nat) (request : Request) :
    (s.perform rounds (.run number request)).map Prod.snd =
      ((s.runner m).serve rounds request).map .transcript := by
  rw [perform, withMember, hm, Option.map_map]
  rfl

/-- A session of one runner, whose flag is raised or not. -/
def alone (config : Config) (raised : Bool) : Session :=
  (empty.new config).setFlag 0 raised

theorem reply_runOnce (s : Session) (rounds : Nat) (config : Config) (source : String)
    (input : Input) (output : Output) :
    (s.perform rounds (.runOnce config source input output)).map Prod.snd =
      (Runner.runOnce config rounds source input output).map .transcript := by
  rw [perform, Option.map_map]
  rfl

theorem reply_alone (config : Config) (raised : Bool) (rounds : Nat) (request : Request) :
    ((alone config raised).perform rounds (.run 0 request)).map Prod.snd =
      (Runner.serve ⟨config, raised, true⟩ rounds request).map .transcript :=
  reply_run (s := alone config raised) (m := ⟨config, 0⟩) rfl rounds request

/-- **The runners of a session meet in the flags of their families alone**, and a log tells which of
them are raised. -/
structure Separate (log : List Entry) (s : Session) : Prop where
  /-- The runners are those that the log tells of. -/
  length_raised : s.raised.length = (lineages log).length
  /-- A flag is raised if a member of its family was cancelled, by itself or by the streams of one
  of its runs, and none was reset since. -/
  raised_iff : ∀ (number : Nat) (l : Lineage), (lineages log)[number]? = some l →
    (s.raised[number]? = some true ↔ RaisedSince log l.founder)
  /-- A command changes no flag but that of the family that it concerns. -/
  others : ∀ rounds command s' reply, s.perform rounds command = some (s', reply) →
    ∀ (number : Nat) (l : Lineage), (lineages log)[number]? = some l →
      command.founder? (lineages log) ≠ some l.founder → s'.raised[number]? = s.raised[number]?
  /-- A run lowers no flag, and changes none if its streams do not ask to stop. -/
  keeps : ∀ rounds number request s' t,
    s.perform rounds (.run number request) = some (s', .transcript t) →
    (∀ number' : Nat, s.raised[number']? = some true → s'.raised[number']? = some true) ∧
      (¬ request.Asks t → s'.raised = s.raised)
  /-- A run comes to the same as on a runner of its own, with its flag raised or not. -/
  run : ∀ (rounds number : Nat) (l : Lineage) (raised : Bool) (request : Request),
    (lineages log)[number]? = some l → s.raised[number]? = some raised →
    (s.perform rounds (.run number request)).map Prod.snd =
      ((alone l.config raised).perform rounds (.run 0 request)).map Prod.snd
  /-- **A text that is run by itself** changes no runner and no flag, whatever its streams ask. -/
  once_keeps : ∀ rounds config source input output s' reply,
    s.perform rounds (.runOnce config source input output) = some (s', reply) → s' = s
  /-- It comes to the same as where there are no runners. -/
  once : ∀ rounds config source input output,
    (s.perform rounds (.runOnce config source input output)).map Prod.snd =
      (empty.perform rounds (.runOnce config source input output)).map Prod.snd
  /-- Unless its streams ask to stop, that is what a fresh runner comes to. -/
  once_fresh : ∀ (rounds : Nat) (config : Config) (source : String) (input : Input)
    (output : Output) (t : Transcript), t.cancelled = false →
    ((s.perform rounds (.runOnce config source input output)).map Prod.snd =
        some (.transcript t) ↔
      ((alone config false).perform rounds (.run 0 ⟨.text source, none, input, output⟩)).map
        Prod.snd = some (.transcript t))

namespace Mirrors

variable {φ φ' : Nat → Nat} {s s' : Session} {number : Nat}

/-- A run lowers no flag. -/
theorem keeps {request : Request} {t : Transcript} (h : Mirrors φ log s)
    (h' : Mirrors φ' (⟨.run number request, .transcript t⟩ :: log) s') :
    (∀ number' : Nat, s.raised[number']? = some true → s'.raised[number']? = some true) ∧
      (¬ request.Asks t → s'.raised = s.raised) := by
  have hlowers (founder : Nat) :
      ¬ Entry.Lowers (lineages log) founder ⟨.run number request, .transcript t⟩ :=
    fun hl => nomatch hl
  constructor
  · intro number' hraised
    rw [h.getElem?_raised] at hraised
    obtain ⟨l, hl, -⟩ := Option.map_eq_some_iff.mp hraised
    rw [← h.getElem?_raised, h.getElem?_raised_eq_iff hl] at hraised
    rw [h'.getElem?_raised_eq_iff (getElem?_lineages_cons hl _), raisedSince_cons_iff]
    exact .inr ⟨hraised, hlowers _⟩
  · intro hasks
    refine List.ext_getElem? fun number' => ?_
    cases hl : (lineages log)[number']? with
    | none =>
      rw [h.getElem?_raised, h'.getElem?_raised, hl]
      exact congrArg _ hl
    | some l =>
      refine h.getElem?_raised_congr h' hl (getElem?_lineages_cons hl _) ?_
      rw [raisedSince_cons_iff]
      constructor
      · rintro (hraises | ⟨hsince, -⟩)
        · cases hraises with
          | run _ hasks' => exact absurd hasks' hasks
        · exact hsince
      · exact fun hsince => .inr ⟨hsince, hlowers _⟩

end Mirrors

/-- **Runners meet in the flags of their families alone**, whatever was done with them before, and
a flag is raised exactly if the log of the session tells so. -/
theorem separate_of_follows {s : Session} (h : Follows log s) : Separate log s := by
  obtain ⟨φ, hs⟩ := exists_mirrors_of_follows h
  refine ⟨?_, fun number l hl => hs.getElem?_raised_eq_iff hl, ?_, ?_, ?_, ?_, ?_, ?_⟩
  · rw [raised, hs.members, List.length_map, List.length_map]
  · -- Both sessions mirror their logs, which tell the same of the family.
    intro rounds command s' reply hp number l hl hne
    obtain ⟨φ', hs'⟩ := exists_mirrors_of_follows (h.perform hp)
    exact hs.getElem?_raised_congr hs' hl (getElem?_lineages_cons hl _)
      (raisedSince_cons_of_founder?_ne hne)
  · intro rounds number request s' t hp
    obtain ⟨φ', hs'⟩ := exists_mirrors_of_follows (h.perform hp)
    exact hs.keeps hs'
  · intro rounds number l raised request hl hraised
    have hm : s.members[number]? = some ⟨l.config, φ l.founder⟩ := by
      rw [hs.getElem?_members, hl]
      rfl
    rw [hs.getElem?_raised, hl] at hraised
    obtain rfl := Option.some.inj hraised
    rw [reply_run hm, reply_alone]
    rfl
  · intro rounds config source input output s' reply hp
    cases performs_of_perform hp with
    | runOnce => rfl
    | noRunner hn => cases hn
  · intro rounds config source input output
    rw [reply_runOnce, reply_runOnce]
  · intro rounds config source input output t ht
    have hsome (o : Option Transcript) :
        o.map Reply.transcript = some (.transcript t) ↔ o = some t := by
      cases o <;> simp
    rw [reply_runOnce, reply_alone, hsome, hsome]
    exact Runner.runOnce_eq_some_iff ht

/-- A write that fails raises the flag of a clone, after another family was cancelled and reset. The
streams of a text that is run by itself ask in vain. -/
theorem separate_of_clone_asked :
    ∃ log s config input output request t, Follows log s ∧ input = [.cancel] ∧
      request.origin = .text "+." ∧ request.output.device.cancelsFailing 0 = true ∧
      log.map Entry.command =
        [.runOnce config ",+" input output, .run 1 request, .reset 2, .cancel 2,
          .new { capacity := 1 }, .clone 0, .new { capacity := 1 }] ∧
      log[1]?.map Entry.reply = some (.transcript t) ∧
      t.result = .error (.run (.output "broken pipe")) ∧ s.raised = [true, true, false] ∧
      (lineages log).map Lineage.founder = [0, 0, 2] ∧ RaisedSince log 0 ∧ ¬ RaisedSince log 2 ∧
      Separate log s := by
  let device : Device :=
    { Device.unlimited.refusingAfter 0 "broken pipe" with cancelsFailing := fun _ => true }
  have first : Follows _ _ := .perform .empty
    (show Session.perform 0 (.new { capacity := 1 }) .empty = some _ from rfl)
  have second := first.perform (show Session.perform 0 (.clone 0) _ = some _ from rfl)
  have third := second.perform
    (show Session.perform 0 (.new { capacity := 1 }) _ = some _ from rfl)
  have fourth := third.perform (show Session.perform 0 (.cancel 2) _ = some _ from rfl)
  have fifth := fourth.perform (show Session.perform 0 (.reset 2) _ = some _ from rfl)
  have sixth := fifth.perform (show Session.perform 2
    (.run 1 ⟨.text "+.", none, [], .ofDevice device⟩) _ = some (_, _) from rfl)
  have seventh := sixth.perform (show Session.perform 3
    (.runOnce { capacity := 1 } ",+" [.cancel] (.ofDevice .unlimited)) _ = some (_, _) from rfl)
  have hseparate := separate_of_follows seventh
  refine ⟨_, _, _, _, _, _, _, seventh, rfl, rfl, rfl, rfl, rfl, rfl, rfl, rfl, ?_, ?_, hseparate⟩
  · exact (hseparate.raised_iff 1 ⟨{ capacity := 1 }, 0⟩ rfl).mp rfl
  · exact fun h => nomatch (hseparate.raised_iff 2 ⟨{ capacity := 1 }, 2⟩ rfl).mpr h

end Brainfuck.Session
