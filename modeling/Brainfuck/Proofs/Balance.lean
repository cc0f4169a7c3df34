import Mathlib.Order.Bounds.Basic
import Mathlib.Order.Nat
import Brainfuck.JumpTable.Search
import Brainfuck.Proofs.Block

/-!
# The depth of loops

The depth in an operator list is the number of loops that were started and not ended. A list
balances if its depth is never negative and comes to zero, and counting the open loops of an
instruction list fails in the two ways in which this can be missed.

## Main definitions

* `Operator.nesting`, `depth`: how an operator changes the depth, and the depth itself
* `Verdict`: what counting the open loops says about a list

## Main results

* `balanced_iff_depth`: the lists that balance, by their depth
* `Balanced.depth_le`, `Balanced.depth_eq`: the depth in a part of a list that balances
* `JumpTable.verdict_resolve`: what the outcome of resolving says about a list
-/

namespace Brainfuck

/-- How an operator changes the number of open loops. -/
def Operator.nesting : Operator → Int
  | loopStart => 1
  | loopEnd => -1
  | _ => 0

/-- How many more loops the first `n` operators start than they end. -/
def depth (ops : List Operator) (n : Nat) : Int :=
  ((ops.take n).count .loopStart : Int) - (ops.take n).count .loopEnd

variable {ops : List Operator} {i j n : Nat}

@[simp]
theorem depth_zero (ops : List Operator) : depth ops 0 = 0 := rfl

theorem depth_cons (op : Operator) (ops : List Operator) (n : Nat) :
    depth (op :: ops) (n + 1) = op.nesting + depth ops n := by
  unfold depth
  rw [List.take_succ_cons]
  cases op <;> simp [Operator.nesting] <;> omega

theorem depth_append_length (front ops : List Operator) (n : Nat) :
    depth (front ++ ops) (front.length + n) = depth front front.length + depth ops n := by
  unfold depth
  rw [List.take_length_add_append, List.take_length, List.count_append, List.count_append]
  omega

theorem depth_of_length_le (h : ops.length ≤ n) : depth ops n = depth ops ops.length := by
  rw [depth, depth, List.take_of_length_le h, List.take_length]

theorem depth_take (h : n ≤ j) : depth (ops.take j) n = depth ops n := by
  rw [depth, depth, List.take_take, Nat.min_eq_left h]

theorem depth_drop (ops : List Operator) (i n : Nat) :
    depth (ops.drop i) n = depth ops (i + n) - depth ops i := by
  by_cases hi : i ≤ ops.length
  · have h := depth_append_length (ops.take i) (ops.drop i) n
    rw [List.take_append_drop, List.length_take, Nat.min_eq_left hi,
      depth_take (Nat.le_refl i)] at h
    omega
  · -- Behind the end there is nothing, and the depth does not change.
    have hlen : ops.length ≤ i := by omega
    rw [List.drop_of_length_le hlen, depth_of_length_le hlen,
      depth_of_length_le (Nat.le_trans hlen (Nat.le_add_right i n)), Int.sub_self]
    cases n <;> rfl

theorem depth_succ {op : Operator} (h : ops[n]? = some op) :
    depth ops (n + 1) = depth ops n + op.nesting := by
  obtain ⟨hn, rfl⟩ := List.getElem?_eq_some_iff.mp h
  have hd := depth_drop ops n 1
  rw [List.drop_eq_getElem_cons hn, depth_cons, depth_zero] at hd
  omega

/-! ## Lists that balance -/

/-- **A list balances** if its depth is never negative and comes to zero. -/
theorem balanced_iff_depth :
    Balanced ops ↔ (∀ n, 0 ≤ depth ops n) ∧ depth ops ops.length = 0 := by
  have hall : depth ops ops.length = 0 ↔ ops.count .loopEnd = ops.count .loopStart := by
    rw [depth, List.take_length]
    omega
  have hfront : (∀ n, 0 ≤ depth ops n) ↔
      ∀ front, front <+: ops → front.count .loopEnd ≤ front.count .loopStart := by
    constructor
    · intro h front hf
      have hn := h front.length
      rw [depth, ← List.prefix_iff_eq_take.mp hf] at hn
      omega
    · intro h n
      have hn := h _ (List.take_prefix n ops)
      unfold depth
      omega
  rw [Balanced, hall, hfront]

/-- A part that balances is nowhere less deep than at its start. -/
theorem Balanced.depth_le (h : Balanced ((ops.take j).drop i)) (hi : i ≤ n) (hn : n ≤ j) :
    depth ops i ≤ depth ops n := by
  have hnonneg := (balanced_iff_depth.mp h).1 (n - i)
  rw [depth_drop, Nat.add_sub_cancel' hi, depth_take hn,
    depth_take (Nat.le_trans hi hn)] at hnonneg
  omega

/-- A part that balances ends as deep as it starts. -/
theorem Balanced.depth_eq (h : Balanced ((ops.take j).drop i)) (hij : i ≤ j) :
    depth ops j = depth ops i := by
  have hlen : ((ops.take j).drop i).length ≤ j - i := by
    rw [List.length_drop, List.length_take]
    omega
  have hzero := (balanced_iff_depth.mp h).2
  rw [← depth_of_length_le hlen, depth_drop, Nat.add_sub_cancel' hij,
    depth_take (Nat.le_refl j), depth_take hij] at hzero
  omega

/-! ## Counting the open loops -/

/-- What counting the open loops says about the operators of a list that begins at `index` with
`opened` loops open. -/
inductive Verdict (index opened : Nat) (ops : List Operator) : Except LoopError Unit → Prop
  /-- No loop end is too many, and all loops are ended. -/
  | balanced (nonneg : ∀ k, 0 ≤ opened + depth ops k)
      (closed : opened + depth ops ops.length = 0) : Verdict index opened ops (.ok ())
  /-- The operator at `n` is the first loop end that is too many. -/
  | unmatchedEnd {n : Nat} (lt : n < ops.length) (nonneg : ∀ k ≤ n, 0 ≤ opened + depth ops k)
      (neg : opened + depth ops (n + 1) < 0) :
      Verdict index opened ops (.error (.unmatchedEnd (index + n)))
  /-- No loop end is too many, and `count` loops are not ended. -/
  | unclosedStart {count : Nat} (nonneg : ∀ k, 0 ≤ opened + depth ops k) (pos : 0 < count)
      (left : opened + depth ops ops.length = count) :
      Verdict index opened ops (.error (.unclosedStart count))

/-- One operator more in front changes how many loops are open. -/
theorem Verdict.cons {index opened opened' : Nat} {op : Operator} {r : Except LoopError Unit}
    (h : Verdict (index + 1) opened' ops r) (ho : (opened' : Int) = opened + op.nesting) :
    Verdict index opened (op :: ops) r := by
  have hdepth (k : Nat) : opened + depth (op :: ops) (k + 1) = opened' + depth ops k := by
    rw [depth_cons]
    omega
  cases h with
  | balanced nonneg closed =>
    refine .balanced (fun k => ?_) (by rw [List.length_cons, hdepth, closed])
    cases k with
    | zero => simp
    | succ k => rw [hdepth]; exact nonneg k
  | @unmatchedEnd n lt nonneg neg =>
    rw [Nat.add_assoc, Nat.add_comm 1]
    refine .unmatchedEnd (Nat.succ_lt_succ lt) (fun k hk => ?_) (by rwa [hdepth])
    cases k with
    | zero => simp
    | succ k => rw [hdepth]; exact nonneg k (Nat.le_of_succ_le_succ hk)
  | unclosedStart nonneg pos left =>
    refine .unclosedStart (fun k => ?_) pos (by rw [List.length_cons, hdepth, left])
    cases k with
    | zero => simp
    | succ k => rw [hdepth]; exact nonneg k

namespace JumpTable

theorem verdict_balanceFrom (code : List Instruction) (index opened : Nat) :
    Verdict index opened (code.map Instruction.op) (balanceFrom index opened code) := by
  induction code generalizing index opened with
  | nil =>
    rw [balanceFrom]
    split
    next h => exact .balanced (fun k => by simp [depth]) (by simp [h])
    next h => exact .unclosedStart (fun k => by simp [depth]) (Nat.pos_of_ne_zero h) (by simp)
  | cons i rest ih =>
    rw [List.map_cons]
    by_cases hs : i.op = .loopStart
    · simp only [balanceFrom, hs]
      exact (ih (index + 1) (opened + 1)).cons rfl
    by_cases he : i.op = .loopEnd
    · simp only [balanceFrom, he]
      cases opened with
      | zero =>
        -- This is the loop end that is too many.
        refine .unmatchedEnd (n := 0) (Nat.succ_pos _) (fun k hk => ?_) ?_
        · rw [Nat.le_zero.mp hk]
          simp
        · rw [depth_cons, depth_zero, Operator.nesting]
          omega
      | succ opened =>
        refine (ih (index + 1) opened).cons ?_
        rw [Operator.nesting]
        omega
    · have hi : ¬ i.op.IsBracket := by
        rintro (h | h) <;> contradiction
      rw [balanceFrom_of_not_isBracket hi]
      refine (ih (index + 1) opened).cons ?_
      cases hop : i.op <;> simp_all [Operator.nesting]

/-- One pass fails exactly as counting the open loops does. -/
theorem map_resolveFrom (code : List Instruction) (targets : Array Nat) (started : List Nat) :
    (resolveFrom targets started code).map (fun _ => ()) =
      balanceFrom targets.size started.length code := by
  induction code generalizing targets started with
  | nil => cases started <;> rfl
  | cons i rest ih =>
    by_cases hi : i.op.IsBracket
    · rcases hi with hi | hi
      · rw [resolveFrom_of_loopStart hi, ih]
        simp only [balanceFrom, hi, Array.size_push, List.length_cons]
      · cases started with
        | nil =>
          simp only [resolveFrom, balanceFrom, hi]
          rfl
        | cons start outer =>
          rw [resolveFrom_of_loopEnd hi, ih]
          simp only [balanceFrom, hi, Array.size_push, Array.size_setIfInBounds, List.length_cons]
    · rw [resolveFrom_of_not_isBracket hi, balanceFrom_of_not_isBracket hi, ih, Array.size_push]

theorem map_resolve (code : List Instruction) :
    (resolve code).map (fun _ => ()) = balanceFrom 0 0 code := by
  have h : _ = balanceFrom 0 0 code := map_resolveFrom code #[] []
  rw [← h, resolve]
  cases resolveFrom #[] [] code <;> rfl

/-- **What the outcome of resolving says about a list.** -/
theorem verdict_resolve (code : List Instruction) :
    Verdict 0 0 (code.map Instruction.op) ((resolve code).map fun _ => ()) := by
  rw [map_resolve]
  exact verdict_balanceFrom code 0 0

end JumpTable

end Brainfuck
