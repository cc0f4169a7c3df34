import Brainfuck.Optimize.Counter
import Brainfuck.Proofs.NormalForm

/-!
# Batching is shortest

Batching fills an instruction before it begins the next one. An operator list may be split into
instructions in other ways, but none needs fewer: if there is less room in the instruction that is
growing, batching makes as many instructions of the operators behind it, or one more. So it gains
nothing to begin an instruction early.

## Main definitions

* `Instruction.counter`: an instruction as a counter of machine words

## Main results

* `Counter.batch_eq`: batching in place makes the same instructions, and no counter overflows
* `length_batchFrom_le`: one more instruction in front makes one more instruction at most
* `batch_shortest`: batching keeps the operators, in as few instructions as possible
-/

namespace Brainfuck

open Instruction

variable {i j : Instruction} {op : Operator} {ops : List Operator}

/-! ## Counting with machine words -/

/-- An instruction as a counter. -/
def Instruction.counter (i : Instruction) : Counter :=
  ⟨i.op, UInt32.ofNat i.count⟩

theorem Instruction.toNat_count_counter (i : Instruction) : i.counter.count.toNat = i.count :=
  UInt32.toNat_ofNat_of_lt' (Nat.lt_succ_of_le i.count_le)

namespace Counter

/-- **A counter does not overflow**: it goes up by one exactly. -/
theorem toNat_count_of_absorb? {c longer : Counter} (h : c.absorb? op = some longer) :
    longer.count.toNat = c.count.toNat + 1 := by
  unfold absorb? at h
  split at h
  next => cases h
  next hc =>
    obtain rfl := Option.some.inj h
    have hne : c.count.toNat ≠ 4294967295 := fun he => hc (Or.inr (Or.inr (UInt32.toNat_inj.mp he)))
    have hlt : c.count.toNat < 4294967296 := c.count.toNat_lt
    show (c.count + 1).toNat = _
    rw [UInt32.toNat_add]
    exact Nat.mod_eq_of_lt (show c.count.toNat + 1 < 4294967296 by omega)

/-- A counter is full where an instruction has the largest count. -/
theorem count_counter_eq_iff (i : Instruction) :
    i.counter.count = 4294967295 ↔ ¬ i.count < maxCount := by
  have hle := i.count_le
  rw [← UInt32.toNat_inj, i.toNat_count_counter]
  show i.count = maxCount ↔ _
  omega

/-- **A counter counts on where an instruction does.** -/
theorem absorb?_counter (i : Instruction) (op : Operator) :
    i.counter.absorb? op = (i.absorb? op).map Instruction.counter := by
  have hiff : (op ≠ i.counter.op ∨ ¬ op.IsBatchable ∨ i.counter.count = 4294967295) ↔
      ¬ (op = i.op ∧ i.op.IsBatchable ∧ i.count < maxCount) := by
    rw [count_counter_eq_iff]
    by_cases hop : op = i.op
    · subst hop
      show (i.op ≠ i.op ∨ _) ↔ _
      tauto
    · exact iff_of_true (Or.inl hop) fun h => hop h.1
  unfold absorb? Instruction.absorb?
  by_cases h : op = i.op ∧ i.op.IsBatchable ∧ i.count < maxCount
  · rw [if_neg fun hc => hiff.mp hc h, dif_pos h]
    -- Both count one more.
    show some (Counter.mk i.op (UInt32.ofNat i.count + 1)) =
      some (Counter.mk i.op (UInt32.ofNat (i.count + 1)))
    rw [UInt32.ofNat_add]
    rfl
  · rw [if_pos (hiff.mpr h), dif_neg h]
    rfl

theorem enter_push (counters : Array Counter) (i : Instruction) (op : Operator) :
    enter (counters.push i.counter) op =
      match i.absorb? op with
      | some longer => counters.push longer.counter
      | none => (counters.push i.counter).push (single op) := by
  unfold enter
  rw [Array.back?_push, Option.bind_some, absorb?_counter]
  cases i.absorb? op with
  | some longer => simp
  | none => rfl

theorem foldl_enter (counters : Array Counter) (i : Instruction) (ops : List Operator) :
    ops.foldl enter (counters.push i.counter) =
      counters ++ ((batchFrom i ops).map Instruction.counter).toArray := by
  induction ops generalizing counters i with
  | nil => simp [batchFrom]
  | cons op ops ih =>
    rw [List.foldl_cons, enter_push]
    cases h : i.absorb? op with
    | some longer => rw [batchFrom_cons_of_absorb? h, ih]
    | none =>
      show ops.foldl enter ((counters.push i.counter).push (Instruction.single op).counter) = _
      rw [batchFrom_cons_of_not_absorb? h, ih, Brainfuck.batch]
      simp

/-- **Batching in place** makes the instructions of batching. -/
theorem batch_eq (ops : List Operator) :
    batch ops = ((Brainfuck.batch ops).map Instruction.counter).toArray := by
  cases ops with
  | nil => rfl
  | cons op ops => exact (foldl_enter #[] (.single op) ops).trans (by simp [Brainfuck.batch])

end Counter

/-! ## The number of instructions -/

/-- If there is less room in the instruction that is growing, then as many instructions are made or
one more. -/
theorem length_batchFrom_of_le (hop : i.op = j.op) (h : i.count ≤ j.count) (ops : List Operator) :
    (batchFrom i ops).length ≤ (batchFrom j ops).length ∧
      (batchFrom j ops).length ≤ (batchFrom i ops).length + 1 := by
  induction ops generalizing i j with
  | nil => exact ⟨Nat.le_refl 1, Nat.le_succ 1⟩
  | cons op ops ih =>
    cases hi : i.absorb? op with
    | none =>
      cases hj : j.absorb? op with
      | none =>
        rw [batchFrom_cons_of_not_absorb? hi, batchFrom_cons_of_not_absorb? hj]
        exact ⟨Nat.le_refl _, Nat.le_succ _⟩
      | some j' =>
        -- There is more room in `i`, which takes in what `j` does.
        obtain ⟨hjop, hjop', hjcount⟩ := eq_of_absorb? hj
        obtain ⟨i', hi', -⟩ := absorb?_of_lt (i := i) (j := j') (by omega) (by rw [hjop', hop, hjop])
        rw [hop, hjop, hi] at hi'
        cases hi'
    | some i' =>
      obtain ⟨-, hiop', hicount⟩ := eq_of_absorb? hi
      rw [batchFrom_cons_of_absorb? hi]
      cases hj : j.absorb? op with
      | none =>
        -- What `i` has become is at least as full as the instruction that follows `j`.
        rw [batchFrom_cons_of_not_absorb? hj, List.length_cons]
        obtain ⟨hle, hle'⟩ := ih (i := .single op) (j := i') hiop'.symm i'.count_pos
        exact ⟨hle', Nat.succ_le_succ hle⟩
      | some j' =>
        obtain ⟨-, hjop', hjcount⟩ := eq_of_absorb? hj
        rw [batchFrom_cons_of_absorb? hj]
        exact ih (hiop'.trans hjop'.symm) (by omega)

/-- **One more instruction in front** makes one more instruction at most. -/
theorem length_batchFrom_le (i : Instruction) (ops : List Operator) :
    (batchFrom i ops).length ≤ (batch ops).length + 1 := by
  cases ops with
  | nil => exact Nat.le_refl 1
  | cons op ops =>
    cases h : i.absorb? op with
    | none => rw [batchFrom_cons_of_not_absorb? h, List.length_cons]
    | some longer =>
      obtain ⟨-, hop, -⟩ := eq_of_absorb? h
      rw [batchFrom_cons_of_absorb? h]
      exact (length_batchFrom_of_le (i := .single op) hop.symm longer.count_pos ops).2

/-- An instruction list is not shorter than what its operators are batched to. -/
theorem length_batch_expand_le (code : List Instruction) :
    (batch (expand code)).length ≤ code.length := by
  induction code with
  | nil => exact Nat.le_refl 0
  | cons i code ih =>
    rw [expand_cons, batch_replicate_append, List.length_cons]
    exact (length_batchFrom_le i (expand code)).trans (Nat.succ_le_succ ih)

/-- **Batching is lossless and shortest**: it makes instructions whose counts are in range, also if
machine words count them, and no other instructions for the same operators are fewer. -/
theorem batch_shortest (ops : List Operator) :
    expand (batch ops) = ops ∧
    (∀ i ∈ batch ops, 1 ≤ i.count ∧ i.count ≤ maxCount ∧ (1 < i.count → i.op.IsBatchable)) ∧
    (∀ (c longer : Counter) op, c.absorb? op = some longer →
      longer.count.toNat = c.count.toNat + 1) ∧
    ((Counter.batch ops).toList.map fun c => (c.op, c.count.toNat)) =
      ((batch ops).map fun i => (i.op, i.count)) ∧
    ∀ code, expand code = ops → (batch ops).length ≤ code.length := by
  refine ⟨expand_batch ops, ?_, fun _ _ _ => Counter.toNat_count_of_absorb?, ?_, ?_⟩
  · intro i _
    exact ⟨i.count_pos, i.count_le, isBatchable_of_one_lt⟩
  · rw [Counter.batch_eq, List.map_map]
    exact congrArg (List.map · _) (funext fun i => congrArg (i.op, ·) i.toNat_count_counter)
  · rintro code rfl
    exact length_batch_expand_le code

/-- A run of one more than the largest count, and the last count before it. -/
theorem batch_shortest_overlong :
    ∃ (code : List Instruction) (c longer : Counter),
      code = [⟨.inc, maxCount, by decide⟩, .single .inc] ∧ c = ⟨.inc, 4294967294⟩ ∧
      c.absorb? .inc = some longer ∧ longer.count.toNat = 4294967295 ∧
      expand (batch (expand code)) = expand code ∧ (batch (expand code)).length ≤ 2 := by
  obtain ⟨hexpand, -, hcount, -, hshortest⟩ :=
    batch_shortest (expand [⟨.inc, maxCount, by decide⟩, .single .inc])
  exact ⟨_, ⟨.inc, 4294967294⟩, ⟨.inc, 4294967295⟩, rfl, rfl, by decide,
    hcount ⟨.inc, 4294967294⟩ ⟨.inc, 4294967295⟩ .inc (by decide), hexpand, hshortest _ rfl⟩

end Brainfuck
