import Brainfuck.Proofs.Balance
import Brainfuck.Proofs.NormalForm
import Brainfuck.Runner

/-!
# Loop errors

The loops of a program are resolved after it was optimized, and an error points at an instruction of
the optimized program. What the error is can still be read off the characters of the text:
optimizing leaves the number of open loops alone wherever it is counted, and goes on behind a loop
end that is too many as if the text began there.

## Main definitions

* `openLoops?`: the number of loops that are open after a list
* `Source.EndsInTurn`: no `]` of a text is too many
* `Source.FirstUnmatched`: what comes before the first `]` that is too many
* `Runner.Fails`: a run of a text comes to an error

## Main results

* `openLoops?_optimize`: optimizing leaves the number of open loops alone
* `optimize_append_loopEnd`: a loop end that is too many splits an optimized list
* `JumpTable.resolve_optimize_eq_unclosedStart_iff`,
  `JumpTable.resolve_optimize_eq_unmatchedEnd_iff`:
  the loop error of an optimized list, by its operators
* `Runner.fails_loops_iff`: the loop error of a run, by the characters of its text
-/

namespace Brainfuck

open Instruction

/-! ## Counting open loops -/

/-- The number of loops that are open after an operator, with `opened` of them before it; none for a
loop end that is too many. -/
def Operator.openAfter? (opened : Nat) : Operator → Option Nat
  | loopStart => some (opened + 1)
  | loopEnd =>
    match opened with
    | 0 => none
    | opened + 1 => some opened
  | _ => some opened

/-- The number of loops that are open after a list, with `opened` of them before it; none if some
loop end is too many. -/
def openLoops? (opened : Nat) : List Operator → Option Nat
  | [] => some opened
  | op :: ops => (op.openAfter? opened).bind fun opened => openLoops? opened ops

variable {op : Operator} {ops front back : List Operator} {opened n : Nat}

theorem openLoops?_cons_of_not_isBracket (h : ¬ op.IsBracket) (opened : Nat)
    (ops : List Operator) : openLoops? opened (op :: ops) = openLoops? opened ops := by
  cases op with
  | loopStart => exact absurd (Or.inl rfl) h
  | loopEnd => exact absurd (Or.inr rfl) h
  | _ => rfl

/-- **The number of open loops** is that of the loop starts less that of the loop ends, if there
never are more ends than starts. -/
theorem openLoops?_eq_some_iff :
    openLoops? opened ops = some n ↔
      (∀ front, front <+: ops → front.count .loopEnd ≤ opened + front.count .loopStart) ∧
        opened + ops.count .loopStart = ops.count .loopEnd + n := by
  induction ops generalizing opened with
  | nil => simp [openLoops?]
  | cons op ops ih =>
    -- A front part is empty, or the first operator with a front part of the rest.
    have hfront : (∀ front, front <+: op :: ops →
          front.count .loopEnd ≤ opened + front.count .loopStart) ↔
        ∀ front, front <+: ops →
          (op :: front).count .loopEnd ≤ opened + (op :: front).count .loopStart := by
      simp only [List.prefix_cons_iff]
      constructor
      · intro h front hf
        exact h _ (Or.inr ⟨front, rfl, hf⟩)
      · rintro h _ (rfl | ⟨front, rfl, hf⟩)
        · simp
        · exact h front hf
    rw [hfront, openLoops?]
    cases op with
    | loopStart =>
      simp only [Operator.openAfter?, Option.bind_some, ih, List.count_cons]
      simp [Nat.add_assoc, Nat.add_comm 1]
    | loopEnd =>
      cases opened with
      | zero =>
        simp only [Operator.openAfter?, Option.bind_none]
        simpa using fun h => absurd (h [] List.nil_prefix) (by decide)
      | succ opened =>
        simp only [Operator.openAfter?, Option.bind_some, ih, List.count_cons]
        simp [Nat.add_right_comm _ 1]
    | _ => simp [Operator.openAfter?, ih]

theorem openLoops?_zero_eq_zero_iff : openLoops? 0 ops = some 0 ↔ Balanced ops := by
  rw [openLoops?_eq_some_iff, Balanced]
  simp only [Nat.zero_add, Nat.add_zero, eq_comm]

/-- A list without a number of open loops has a first loop end that is too many. -/
theorem exists_of_openLoops?_eq_none (h : openLoops? opened ops = none) :
    ∃ front back, ops = front ++ .loopEnd :: back ∧ openLoops? opened front = some 0 := by
  induction ops generalizing opened with
  | nil => cases h
  | cons op ops ih =>
    cases ho : op.openAfter? opened with
    | none =>
      -- This is it: no loop is open.
      obtain ⟨rfl, rfl⟩ : op = .loopEnd ∧ opened = 0 := by
        cases op <;> cases opened <;> simp_all [Operator.openAfter?]
      exact ⟨[], ops, rfl, rfl⟩
    | some opened' =>
      rw [openLoops?, ho, Option.bind_some] at h
      obtain ⟨front, back, rfl, hfront⟩ := ih h
      exact ⟨op :: front, back, rfl, by rw [openLoops?, ho, Option.bind_some, hfront]⟩

/-! ## Open loops in an optimized list -/

theorem openLoops?_fuseClearLoops (opened : Nat) (ops : List Operator) :
    openLoops? opened (fuseClearLoops ops) = openLoops? opened ops := by
  fun_induction fuseClearLoops ops generalizing opened with
  -- A window opens a loop and closes it.
  | case1 rest ih => exact ih opened
  | case2 rest ih => exact ih opened
  | case3 op rest _ _ ih => simp only [openLoops?, ih]
  | case4 => rfl

theorem openLoops?_replicate_append (h : ¬ op.IsBracket) (opened n : Nat) (ops : List Operator) :
    openLoops? opened (List.replicate n op ++ ops) = openLoops? opened ops := by
  induction n with
  | zero => rfl
  | succ n ih =>
    rw [List.replicate_succ, List.cons_append, openLoops?_cons_of_not_isBracket h, ih]

theorem openLoops?_expand (opened : Nat) (code : List Instruction) :
    openLoops? opened (expand code) = openLoops? opened (code.map Instruction.op) := by
  induction code generalizing opened with
  | nil => rfl
  | cons i code ih =>
    rw [expand_cons, List.map_cons]
    by_cases hi : i.op.IsBracket
    · have hcount : i.count = 1 := by rw [eq_single_of_isBracket hi, Instruction.single]
      rw [hcount, List.replicate_one, List.singleton_append]
      simp only [openLoops?, ih]
    · rw [openLoops?_replicate_append hi, openLoops?_cons_of_not_isBracket hi, ih]

/-- **Optimizing leaves the number of open loops alone.** -/
theorem openLoops?_optimize (opened : Nat) (ops : List Operator) :
    openLoops? opened ((optimize ops).map Instruction.op) = openLoops? opened ops := by
  rw [← openLoops?_expand, expand_optimize, openLoops?_fuseClearLoops]

/-- No window reaches over the end of a list that balances. -/
theorem fuseClearLoops_append (h : Balanced front) (back : List Operator) :
    fuseClearLoops (front ++ back) = fuseClearLoops front ++ fuseClearLoops back := by
  obtain ⟨b, -, hb, -⟩ := exists_program_of_balanced h
  have hops : b.operators = front := by
    rw [Block.operators, hb, List.map_map]
    exact List.map_id _
  have hfuse := Block.fuseClearLoops_append (Block.isUnbatched_of_code_eq hb)
  have hfront := hfuse []
  rw [hops, List.append_nil, fuseClearLoops, List.append_nil] at hfront
  rw [hfront, ← hfuse, hops]

/-- Batching begins anew at an operator that is not batched. -/
theorem batch_append_cons (h : ¬ op.IsBatchable) (front back : List Operator) :
    batch (front ++ op :: back) = batch front ++ .single op :: batch back := by
  refine batch_eq_iff.mpr ⟨?_, ?_⟩
  · rw [expand_append, expand_batch, expand_cons, expand_batch]
    rfl
  · refine List.isChain_append.mpr ⟨isChain_batch front, ?_, ?_⟩
    · refine List.isChain_cons.mpr ⟨fun j _ hop hb => absurd hb h, isChain_batch back⟩
    · rintro i - j hj
      obtain rfl : j = .single op := by simpa using hj.symm
      exact apart_of_not_isBatchable h

/-- **A loop end that is too many splits an optimized list.** -/
theorem optimize_append_loopEnd (h : Balanced front) (back : List Operator) :
    optimize (front ++ .loopEnd :: back) = optimize front ++ .single .loopEnd :: optimize back := by
  rw [optimize, fuseClearLoops_append h, Block.fuseClearLoops_cons (by decide),
    batch_append_cons (by decide)]
  rfl

/-! ## Resolving an optimized list -/

namespace JumpTable

variable {code : List Instruction} {count index : Nat}

theorem resolve_eq_error_iff {e : LoopError} :
    resolve code = .error e ↔ balanceFrom 0 0 code = .error e := by
  rw [← map_resolve]
  cases resolve code with
  | error e' => simp [Except.map]
  | ok table => simp [Except.map]

theorem balanceFrom_of_openAfter? {i : Instruction} (h : i.op.openAfter? opened = some n)
    (index : Nat) (rest : List Instruction) :
    balanceFrom index opened (i :: rest) = balanceFrom (index + 1) n rest := by
  by_cases hi : i.op.IsBracket
  · rcases hi with hi | hi
    · rw [hi] at h
      obtain rfl := Option.some.inj h
      simp only [balanceFrom, hi]
    · rw [hi] at h
      cases opened with
      | zero => cases h
      | succ opened =>
        obtain rfl := Option.some.inj h
        simp only [balanceFrom, hi]
  · obtain rfl : opened = n := by
      cases hop : i.op <;> simp_all [Operator.openAfter?, Operator.IsBracket]
    exact balanceFrom_of_not_isBracket hi index opened rest

/-- Counting goes on behind a list with the number of loops that it leaves open. -/
theorem balanceFrom_append {front : List Instruction}
    (h : openLoops? opened (front.map Instruction.op) = some n) (index : Nat)
    (rest : List Instruction) :
    balanceFrom index opened (front ++ rest) = balanceFrom (index + front.length) n rest := by
  induction front generalizing opened index with
  | nil =>
    obtain rfl := Option.some.inj h
    rfl
  | cons i front ih =>
    obtain ⟨opened', ho, hrest⟩ := Option.bind_eq_some_iff.mp h
    rw [List.cons_append, balanceFrom_of_openAfter? ho, ih hrest, List.length_cons,
      Nat.add_assoc, Nat.add_comm 1]

theorem resolve_of_openLoops? (h : openLoops? 0 (code.map Instruction.op) = some (n + 1)) :
    resolve code = .error (.unclosedStart (n + 1)) := by
  have hcode := balanceFrom_append h 0 []
  rw [List.append_nil] at hcode
  rw [resolve_eq_error_iff, hcode]
  rfl

theorem resolve_append_loopEnd {front back : List Instruction}
    (h : openLoops? 0 (front.map Instruction.op) = some 0) :
    resolve (front ++ .single .loopEnd :: back) = .error (.unmatchedEnd front.length) := by
  rw [resolve_eq_error_iff, balanceFrom_append h, Nat.zero_add]
  rfl

theorem resolve_ne_error_of_balanced (h : Balanced ops) (e : LoopError) :
    resolve (optimize ops) ≠ .error e := by
  intro he
  rw [resolve_eq_error_iff] at he
  have hcount := openLoops?_zero_eq_zero_iff.mpr h
  rw [← openLoops?_optimize] at hcount
  have hcode := balanceFrom_append hcount 0 []
  rw [List.append_nil, he] at hcode
  cases hcode

theorem resolve_optimize_append_loopEnd (h : Balanced front) (back : List Operator) :
    resolve (optimize (front ++ .loopEnd :: back)) =
      .error (.unmatchedEnd (optimize front).length) := by
  rw [optimize_append_loopEnd h]
  apply resolve_append_loopEnd
  rw [openLoops?_optimize]
  exact openLoops?_zero_eq_zero_iff.mpr h

/-- **Loop starts are left** in an optimized list exactly if they are in its operators. -/
theorem resolve_optimize_eq_unclosedStart_iff :
    resolve (optimize ops) = .error (.unclosedStart count) ↔
      openLoops? 0 ops = some count ∧ 0 < count := by
  constructor
  · intro h
    -- Any other number of open loops comes to something else.
    cases ho : openLoops? 0 ops with
    | none =>
      obtain ⟨front, back, rfl, hfront⟩ := exists_of_openLoops?_eq_none ho
      rw [resolve_optimize_append_loopEnd (openLoops?_zero_eq_zero_iff.mp hfront)] at h
      cases h
    | some n =>
      cases n with
      | zero => exact absurd h (resolve_ne_error_of_balanced (openLoops?_zero_eq_zero_iff.mp ho) _)
      | succ n =>
        rw [← openLoops?_optimize] at ho
        rw [resolve_of_openLoops? ho] at h
        cases h
        exact ⟨rfl, Nat.succ_pos n⟩
  · rintro ⟨ho, hpos⟩
    obtain ⟨n, rfl⟩ := Nat.exists_eq_add_one.mpr hpos
    rw [← openLoops?_optimize] at ho
    exact resolve_of_openLoops? ho

/-- **A loop end is too many** in an optimized list exactly if one is in its operators, and its
index is the number of instructions that come before it. -/
theorem resolve_optimize_eq_unmatchedEnd_iff :
    resolve (optimize ops) = .error (.unmatchedEnd index) ↔
      ∃ front back, ops = front ++ .loopEnd :: back ∧ Balanced front ∧
        index = (optimize front).length := by
  constructor
  · intro h
    cases ho : openLoops? 0 ops with
    | none =>
      obtain ⟨front, back, rfl, hfront⟩ := exists_of_openLoops?_eq_none ho
      have hb := openLoops?_zero_eq_zero_iff.mp hfront
      rw [resolve_optimize_append_loopEnd hb] at h
      cases h
      exact ⟨front, back, rfl, hb, rfl⟩
    | some n =>
      cases n with
      | zero => exact absurd h (resolve_ne_error_of_balanced (openLoops?_zero_eq_zero_iff.mp ho) _)
      | succ n =>
        rw [← openLoops?_optimize] at ho
        rw [resolve_of_openLoops? ho] at h
        cases h
  · rintro ⟨front, back, rfl, hb, rfl⟩
    exact resolve_optimize_append_loopEnd hb back

end JumpTable

/-! ## The characters of a text -/

namespace Source

/-- No `]` of a text is too many: no front part of it has more of them than of `[`. -/
def EndsInTurn (text : List Char) : Prop :=
  ∀ front, front <+: text → front.count ']' ≤ front.count '['

/-- The text `front` is what comes before the first `]` that is too many. -/
structure FirstUnmatched (text front : List Char) : Prop where
  starts : front ++ [']'] <+: text
  endsInTurn : EndsInTurn front
  tooMany : (front ++ [']']).count '[' < (front ++ [']']).count ']'

variable {text : List Char}

/-- An operator is as frequent as its character. -/
theorem count_filterMap_ofChar? {c : Char} (h : op.toChar? = some c) (text : List Char) :
    (text.filterMap Operator.ofChar?).count op = text.count c := by
  rw [List.count_filterMap, List.count_eq_countP]
  refine List.countP_congr fun x _ => ?_
  rw [beq_iff_eq, beq_iff_eq, ← Operator.toChar?_eq_some_iff, h, Option.some.injEq, eq_comm]

/-- **The number of open loops of a text** is that of its `[` less that of its `]`. -/
theorem openLoops?_filterMap_ofChar? :
    openLoops? 0 (text.filterMap Operator.ofChar?) = some n ↔
      EndsInTurn text ∧ text.count '[' = text.count ']' + n := by
  have hstart := @count_filterMap_ofChar? .loopStart '[' rfl
  have hend := @count_filterMap_ofChar? .loopEnd ']' rfl
  rw [openLoops?_eq_some_iff, hstart, hend, Nat.zero_add]
  refine and_congr_left fun _ => ⟨fun h front hf => ?_, fun h ops hops => ?_⟩
  · have hle := h _ (hf.filterMap Operator.ofChar?)
    rwa [hstart, hend, Nat.zero_add] at hle
  · -- A front part of the operators is that of a front part of the text.
    obtain ⟨front, hf, rfl⟩ := List.prefix_filterMap_iff.mp hops
    rw [hstart, hend, Nat.zero_add]
    exact h front hf

theorem balanced_filterMap_ofChar? :
    Balanced (text.filterMap Operator.ofChar?) ↔
      EndsInTurn text ∧ text.count '[' = text.count ']' := by
  rw [← openLoops?_zero_eq_zero_iff, openLoops?_filterMap_ofChar?, Nat.add_zero]

/-- What comes before the first `]` that is too many balances. -/
theorem firstUnmatched_iff {front : List Char} :
    FirstUnmatched text front ↔
      front ++ [']'] <+: text ∧ Balanced (front.filterMap Operator.ofChar?) := by
  have hcount : (front ++ [']']).count '[' < (front ++ [']']).count ']' ↔
      front.count '[' ≤ front.count ']' := by
    have hstart : [']'].count '[' = 0 := rfl
    have hend : [']'].count ']' = 1 := rfl
    rw [List.count_append, List.count_append, hstart, hend, Nat.add_zero, Nat.lt_add_one_iff]
  rw [balanced_filterMap_ofChar?]
  constructor
  · rintro ⟨hstarts, hturn, hmany⟩
    exact ⟨hstarts, hturn, Nat.le_antisymm (hcount.mp hmany) (hturn front (List.prefix_refl _))⟩
  · rintro ⟨hstarts, hturn, heq⟩
    exact ⟨hstarts, hturn, hcount.mpr (Nat.le_of_eq heq)⟩

/-- The operators of a text are split where it is. -/
theorem exists_filterMap_eq_append_loopEnd_iff {P : List Operator → Prop} :
    (∃ ops back, text.filterMap Operator.ofChar? = ops ++ .loopEnd :: back ∧ P ops) ↔
      ∃ front, front ++ [']'] <+: text ∧ P (front.filterMap Operator.ofChar?) := by
  constructor
  · rintro ⟨ops, back, h, hP⟩
    obtain ⟨front, rest, rfl, rfl, hrest⟩ := List.filterMap_eq_append_iff.mp h
    -- Comments may come between the last operator and the character.
    obtain ⟨comments, c, tail, rfl, hcomments, hc, -⟩ := List.filterMap_eq_cons_iff.mp hrest
    obtain rfl : ']' = c := Option.some.inj (Operator.toChar?_eq_some_iff.mpr hc)
    refine ⟨front ++ comments, ⟨tail, by simp⟩, ?_⟩
    rwa [List.filterMap_append, List.filterMap_eq_nil_iff.mpr hcomments, List.append_nil]
  · rintro ⟨front, ⟨back, rfl⟩, hP⟩
    refine ⟨front.filterMap Operator.ofChar?, back.filterMap Operator.ofChar?, ?_, hP⟩
    simp [List.filterMap_append, Operator.ofChar?]

/-- Some `]` of a text is too many exactly if there is a first one. -/
theorem exists_firstUnmatched_iff : (∃ front, FirstUnmatched text front) ↔ ¬ EndsInTurn text := by
  constructor
  · rintro ⟨front, hfront⟩ h
    exact absurd (h _ hfront.starts) (Nat.not_le_of_lt hfront.tooMany)
  · intro h
    cases ho : openLoops? 0 (text.filterMap Operator.ofChar?) with
    | some n => exact absurd (openLoops?_filterMap_ofChar?.mp ho).1 h
    | none =>
      obtain ⟨ops, back, hops, hcount⟩ := exists_of_openLoops?_eq_none ho
      obtain ⟨front, hstarts, hb⟩ := exists_filterMap_eq_append_loopEnd_iff.mp
        ⟨ops, back, hops, openLoops?_zero_eq_zero_iff.mp hcount⟩
      exact ⟨front, firstUnmatched_iff.mpr ⟨hstarts, hb⟩⟩

end Source

/-! ## Loop errors of runs -/

namespace Runner

open JumpTable

/-- Some run of a text comes to this error. -/
def Fails (r : Runner) (source : String) (input : Input) (output : Output) (e : Error) : Prop :=
  ∃ rounds t, r.run rounds source input output = some t ∧ t.result = .error e

variable {r : Runner} {source : String} {input : Input} {output : Output} {e : LoopError}

theorem run_of_resolve_eq_error (h : 0 < r.config.capacity)
    (hr : resolve (optimize (Source.operators source)) = .error e) (rounds : Nat) :
    ∃ events, r.run rounds source input output =
      some (r.refuse (.loops e) events input output) := by
  have hp := Program.ofInstructions_eq_error_iff.mpr hr
  unfold run prepare
  rw [Config.validate_eq_ok_iff.mpr h]
  simp only [Compilation.ofSource, Compilation.ofInstructions, hp]
  exact ⟨_, rfl⟩

/-- A tape that cannot be laid out is no loop error. -/
theorem tape_ne_loops (c : Config) (e : LoopError) : c.tape ≠ .error (.loops e) := by
  unfold Config.tape
  split
  · simp
  · split <;> simp

/-- A run that is executed comes to no loop error. -/
theorem result_conclude_ne_loops {w : Width} (program : Program) (events : List Event)
    (x : Execution w) (e : LoopError) : (conclude program events x).result ≠ .error (.loops e) := by
  unfold conclude
  cases x.result <;> simp

/-- A program whose loops resolve comes to no loop error. -/
theorem not_fails_loops_of_resolve_eq_ok (h : 0 < r.config.capacity) {table : JumpTable}
    (hr : resolve (optimize (Source.operators source)) = .ok table) :
    ¬ r.Fails source input output (.loops e) := by
  rintro ⟨rounds, t, ht, he⟩
  unfold run prepare at ht
  rw [Config.validate_eq_ok_iff.mpr h] at ht
  simp only [Compilation.ofSource, Compilation.ofInstructions] at ht
  cases hp : Program.ofInstructions (optimize (Source.operators source)) with
  | error e' => cases (Program.ofInstructions_eq_error_iff.mp hp).symm.trans hr
  | ok p =>
    rw [hp] at ht
    cases htape : r.config.tape with
    | error e' =>
      rw [htape] at ht
      obtain rfl := Option.some.inj ht
      obtain rfl := Except.error.inj he
      exact tape_ne_loops _ _ htape
    | ok tape =>
      rw [htape] at ht
      obtain ⟨x, -, rfl⟩ := Option.map_eq_some_iff.mp ht
      exact result_conclude_ne_loops _ _ x _ he

/-- **A run comes to a loop error** exactly if the optimized list does not resolve. -/
theorem fails_loops_iff_resolve (h : 0 < r.config.capacity) :
    r.Fails source input output (.loops e) ↔
      resolve (optimize (Source.operators source)) = .error e := by
  constructor
  · intro hf
    cases hr : resolve (optimize (Source.operators source)) with
    | ok table => exact absurd hf (not_fails_loops_of_resolve_eq_ok h hr)
    | error e' =>
      obtain ⟨rounds, t, ht, he⟩ := hf
      obtain ⟨events, hrun⟩ := run_of_resolve_eq_error h hr rounds
      obtain rfl := Option.some.inj (hrun.symm.trans ht)
      obtain rfl := Error.loops.inj (Except.error.inj he)
      rfl
  · intro hr
    obtain ⟨events, hrun⟩ := run_of_resolve_eq_error h hr 0
    exact ⟨0, _, hrun, rfl⟩

/-- **The loop error of a run** can be read off the characters of its text. Loop starts are left
exactly if no `]` is too many and there are more `[`. A loop end is too many exactly if some `]` is,
and its index is the number of instructions that the text before the first such `]` is optimized to.
Such a run leaves its streams alone, and is over at once. -/
theorem fails_loops_iff (h : 0 < r.config.capacity) (source : String) (input : Input)
    (output : Output) :
    (∀ count, r.Fails source input output (.loops (.unclosedStart count)) ↔
      Source.EndsInTurn source.toList ∧ 0 < count ∧
        source.toList.count '[' = source.toList.count ']' + count) ∧
    (∀ index, r.Fails source input output (.loops (.unmatchedEnd index)) ↔
      ∃ front, Source.FirstUnmatched source.toList front ∧
        index = (optimize (Source.operators (String.ofList front))).length) ∧
    ((∃ index, r.Fails source input output (.loops (.unmatchedEnd index))) ↔
      ¬ Source.EndsInTurn source.toList) ∧
    (∀ e, r.Fails source input output (.loops e) → ∀ rounds, ∃ t,
      r.run rounds source input output = some t ∧ t.result = .error (.loops e) ∧
        t.input = input ∧ t.output = output) := by
  have hunmatched (index : Nat) : r.Fails source input output (.loops (.unmatchedEnd index)) ↔
      ∃ front, Source.FirstUnmatched source.toList front ∧
        index = (optimize (Source.operators (String.ofList front))).length := by
    rw [fails_loops_iff_resolve h, resolve_optimize_eq_unmatchedEnd_iff, Source.operators,
      Source.exists_filterMap_eq_append_loopEnd_iff
        (P := fun ops => Balanced ops ∧ index = (optimize ops).length)]
    simp only [Source.firstUnmatched_iff, Source.operators, String.toList_ofList, and_assoc]
  refine ⟨fun count => ?_, hunmatched, ?_, fun e he rounds => ?_⟩
  · rw [fails_loops_iff_resolve h, resolve_optimize_eq_unclosedStart_iff, Source.operators,
      Source.openLoops?_filterMap_ofChar?, and_assoc, and_comm (a := 0 < count)]
  · rw [← Source.exists_firstUnmatched_iff]
    simp only [hunmatched]
    constructor
    · rintro ⟨index, front, hfront, -⟩
      exact ⟨front, hfront⟩
    · rintro ⟨front, hfront⟩
      exact ⟨_, front, hfront, rfl⟩
  · obtain ⟨events, hrun⟩ := run_of_resolve_eq_error h ((fails_loops_iff_resolve h).mp he) rounds
    exact ⟨_, hrun, rfl, rfl, rfl⟩

/-- Before the `]` that is too many there are a run of operators, a clear loop and a comment. -/
theorem fails_loops_behind_clear_loop :
    0 < (Runner.mk {} false true).config.capacity ∧
    (Runner.mk {} false true).Fails ",>>[-] ok?[.]]+[" [] (.ofDevice .unlimited)
      (.loops (.unmatchedEnd 6)) := by
  refine ⟨by decide, ((fails_loops_iff (by decide) _ _ _).2.1 6).mpr ⟨",>>[-] ok?[.]".toList, ?_, ?_⟩⟩
  · exact Source.firstUnmatched_iff.mpr ⟨by decide, by decide⟩
  · rfl

end Runner

end Brainfuck
