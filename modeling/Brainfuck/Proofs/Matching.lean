import Brainfuck.Proofs.Search

/-!
# Matching brackets

Two brackets match if the first starts a loop, the second ends one, and what lies between them
balances. A bracket matches one other at most, and two pairs are nested or disjoint; this is seen
from the depth of loops alone. A jump table that was resolved holds these partners and nothing else.

## Main definitions

* `Encloses`: two brackets match
* `Partner`: two operators are partners
* `EndsTooMany`: a front part ends more loops than it starts
* `JumpTable.Matches`: a table matches the brackets of an operator list

## Main results

* `Encloses.unique_stop`, `Encloses.unique_start`, `Encloses.nested_or_disjoint`: how pairs lie
* `JumpTable.target?_eq_some_iff`: a resolved table holds the partners
* `JumpTable.Matches.unique`: a list that balances has one table that matches it
* `JumpTable.resolve_iff`: resolving is matching brackets
-/

namespace Brainfuck

/-- The operator at `i` starts a loop, the one at `j` ends one, and those between them balance. -/
structure Encloses (ops : List Operator) (i j : Nat) : Prop where
  lt : i < j
  start : ops[i]? = some .loopStart
  stop : ops[j]? = some .loopEnd
  balanced : Balanced ((ops.take j).drop (i + 1))

/-- Two operators are partners: the two brackets of a loop, or twice the same plain operator. -/
inductive Partner (ops : List Operator) : Nat → Nat → Prop
  | plain {i : Nat} {op : Operator} (h : ops[i]? = some op) (hop : ¬ op.IsBracket) :
      Partner ops i i
  | stop {i j : Nat} (h : Encloses ops i j) : Partner ops i j
  | start {i j : Nat} (h : Encloses ops i j) : Partner ops j i

/-- Up to the one at `n`, the operators end more loops than they start. -/
def EndsTooMany (ops : List Operator) (n : Nat) : Prop :=
  (ops.take (n + 1)).count .loopStart < (ops.take (n + 1)).count .loopEnd

variable {ops : List Operator} {i j k l : Nat}

theorem endsTooMany_iff : EndsTooMany ops i ↔ depth ops (i + 1) < 0 := by
  unfold EndsTooMany depth
  omega

theorem Balanced.not_endsTooMany (h : Balanced ops) : ¬ EndsTooMany ops i := by
  have := (balanced_iff_depth.mp h).1 (i + 1)
  rw [endsTooMany_iff]
  omega

/-! ## Pairs of brackets -/

namespace Encloses

/-- Inside a loop the depth is one more than before it, at least. -/
theorem depth_lt (h : Encloses ops i j) (hi : i < k) (hk : k ≤ j) : depth ops i < depth ops k := by
  have hstart := depth_succ h.start
  have hle := h.balanced.depth_le hi hk
  simp only [Operator.nesting] at hstart
  omega

/-- Before its loop end a loop is one deeper than before its loop start. -/
theorem depth_stop (h : Encloses ops i j) : depth ops j = depth ops i + 1 := by
  have hstart := depth_succ h.start
  have heq := h.balanced.depth_eq h.lt
  simp only [Operator.nesting] at hstart
  omega

/-- After its loop end a loop is as deep as before its loop start. -/
theorem depth_after (h : Encloses ops i j) : depth ops (j + 1) = depth ops i := by
  have hstop := depth_succ h.stop
  have hdepth := h.depth_stop
  simp only [Operator.nesting] at hstop
  omega

theorem stop_le (h : Encloses ops i j) (h' : Encloses ops i k) : j ≤ k := by
  -- Otherwise the depth after `k` is that before the loop, inside the loop up to `j`.
  by_contra hlt
  have hinside := h.depth_lt (k := k + 1) (Nat.lt_succ_of_lt h'.lt) (by omega)
  have hafter := h'.depth_after
  omega

/-- A loop start matches one loop end. -/
theorem unique_stop (h : Encloses ops i j) (h' : Encloses ops i k) : j = k :=
  Nat.le_antisymm (h.stop_le h') (h'.stop_le h)

theorem start_le (h : Encloses ops i k) (h' : Encloses ops j k) : i ≤ j := by
  -- Otherwise the depth before `i` is too small for the inside of the loop from `j` on.
  by_contra hlt
  have hinside := h'.depth_lt (k := i) (by omega) (Nat.le_of_lt h.lt)
  have hstop := h.depth_stop
  have hstop' := h'.depth_stop
  omega

/-- A loop end matches one loop start. -/
theorem unique_start (h : Encloses ops i k) (h' : Encloses ops j k) : i = j :=
  Nat.le_antisymm (h.start_le h') (h'.start_le h)

/-- **Two pairs are nested or disjoint.** -/
theorem nested_or_disjoint (h : Encloses ops i j) (h' : Encloses ops k l) (hik : i < k) :
    j < k ∨ l < j := by
  by_contra hcross
  have hjk : j ≠ k := by
    rintro rfl
    cases h.stop.symm.trans h'.start
  have hjl : j ≠ l := by
    rintro rfl
    exact absurd (h.unique_start h') (by omega)
  -- Then the first loop ends inside the second, where it is deeper than before the first.
  have hk := h.depth_lt hik (by omega)
  have hj := h'.depth_lt (k := j + 1) (by omega) (by omega)
  have hafter := h.depth_after
  omega

/-- Pairs stay pairs in a larger list. -/
theorem append (h : Encloses ops i j) (front back : List Operator) :
    Encloses (front ++ (ops ++ back)) (front.length + i) (front.length + j) := by
  have hj : j < ops.length := (List.getElem?_eq_some_iff.mp h.stop).1
  refine ⟨Nat.add_lt_add_left h.lt _, ?_, ?_, ?_⟩
  · rw [List.getElem?_append_right (Nat.le_add_right _ _), Nat.add_sub_cancel_left,
      List.getElem?_append_left (Nat.lt_trans h.lt hj), h.start]
  · rw [List.getElem?_append_right (Nat.le_add_right _ _), Nat.add_sub_cancel_left,
      List.getElem?_append_left hj, h.stop]
  · rw [List.take_length_add_append, List.take_append_of_le_length (Nat.le_of_lt hj),
      Nat.add_assoc, List.drop_length_add_append]
    exact h.balanced

end Encloses

namespace Partner

theorem symm (h : Partner ops i j) : Partner ops j i := by
  cases h with
  | plain h hop => exact .plain h hop
  | stop h => exact .start h
  | start h => exact .stop h

theorem lt_length (h : Partner ops i j) : i < ops.length := by
  cases h with
  | plain h => exact (List.getElem?_eq_some_iff.mp h).1
  | stop h => exact (List.getElem?_eq_some_iff.mp h.start).1
  | start h => exact (List.getElem?_eq_some_iff.mp h.stop).1

theorem eq_of_not_isBracket {op : Operator} (h : Partner ops i j) (hi : ops[i]? = some op)
    (hop : ¬ op.IsBracket) : j = i := by
  cases h with
  | plain => rfl
  | stop h =>
    obtain rfl := Option.some.inj (hi.symm.trans h.start)
    exact absurd (Or.inl rfl) hop
  | start h =>
    obtain rfl := Option.some.inj (hi.symm.trans h.stop)
    exact absurd (Or.inr rfl) hop

theorem encloses_of_loopStart (h : Partner ops i j) (hi : ops[i]? = some .loopStart) :
    Encloses ops i j := by
  cases h with
  | plain h hop =>
    obtain rfl := Option.some.inj (hi.symm.trans h)
    exact absurd (Or.inl rfl) hop
  | stop h => exact h
  | start h => cases hi.symm.trans h.stop

theorem encloses_of_loopEnd (h : Partner ops i j) (hi : ops[i]? = some .loopEnd) :
    Encloses ops j i := by
  cases h with
  | plain h hop =>
    obtain rfl := Option.some.inj (hi.symm.trans h)
    exact absurd (Or.inr rfl) hop
  | stop h => cases hi.symm.trans h.start
  | start h => exact h

/-- An operator has one partner at most. -/
theorem unique (h : Partner ops i j) (h' : Partner ops i k) : j = k := by
  cases h with
  | plain h hop => exact (h'.eq_of_not_isBracket h hop).symm
  | stop h => exact h.unique_stop (h'.encloses_of_loopStart h.start)
  | start h => exact h.unique_start (h'.encloses_of_loopEnd h.stop)

/-- The partner of an operator inside a loop is inside it, too. -/
theorem inside (h : Partner ops k l) (hloop : Encloses ops i j) (hil : i < l) (hlj : l < j) :
    i < k ∧ k < j := by
  cases h with
  | plain => exact ⟨hil, hlj⟩
  | stop h =>
    -- The pair of `k` and `l` ends inside the loop.
    have hlt := h.lt
    have hne : k ≠ i := by
      rintro rfl
      exact absurd (h.unique_stop hloop) (by omega)
    have hki : ¬ k < i := fun hki => by
      have := h.nested_or_disjoint hloop hki
      omega
    omega
  | start h =>
    -- The pair of `l` and `k` starts inside the loop.
    have hlt := h.lt
    have := hloop.nested_or_disjoint h hil
    omega

theorem append (h : Partner ops i j) (front back : List Operator) :
    Partner (front ++ (ops ++ back)) (front.length + i) (front.length + j) := by
  cases h with
  | plain h hop =>
    refine .plain ?_ hop
    rw [List.getElem?_append_right (Nat.le_add_right _ _), Nat.add_sub_cancel_left,
      List.getElem?_append_left (List.getElem?_eq_some_iff.mp h).1, h]
  | stop h => exact .stop (h.append front back)
  | start h => exact .start (h.append front back)

end Partner

/-! ## The partners in a block -/

namespace Block

@[simp] theorem length_operators (b : Block) : b.operators.length = b.size :=
  List.length_map _

theorem balanced_operators (b : Block) : Balanced b.operators := by
  have h := JumpTable.verdict_resolve b.code
  rw [resolve_code] at h
  cases h with
  | balanced nonneg closed =>
    refine balanced_iff_depth.mpr ⟨fun n => ?_, ?_⟩
    · have := nonneg n
      rw [operators]
      omega
    · rw [operators]
      omega

/-- The brackets of a loop match. -/
theorem encloses_loop (body rest : Block) :
    Encloses (loop body rest).operators 0 (body.size + 1) := by
  rw [operators_loop, ← length_operators body]
  refine ⟨Nat.succ_pos _, rfl, ?_, ?_⟩
  · rw [List.getElem?_cons_succ, List.getElem?_append_right (Nat.le_refl _), Nat.sub_self,
      List.getElem?_cons_zero]
  · rw [List.take_succ_cons, List.drop_succ_cons, List.drop_zero,
      List.take_append_of_le_length (Nat.le_refl _), List.take_length]
    exact body.balanced_operators

/-- **The partner of every instruction of a block** is the entry in its table. -/
theorem exists_partner (b : Block) (base : Nat) {k : Nat} (hk : k < b.size) :
    ∃ l, (b.targets base)[k]? = some (base + l) ∧ Partner b.operators k l := by
  -- Induction on the tree: a partner in a part is one in the whole, where the part lies.
  induction b generalizing base k with
  | nil => exact absurd hk (Nat.not_lt_zero k)
  | step i plain rest ih =>
    rw [operators_step, targets]
    cases k with
    | zero => exact ⟨0, rfl, .plain rfl plain⟩
    | succ k =>
      obtain ⟨l, ht, hp⟩ := ih (base + 1) (Nat.lt_of_succ_lt_succ hk)
      refine ⟨l + 1, ?_, ?_⟩
      · rw [List.getElem?_cons_succ, ht, Nat.add_assoc, Nat.add_comm 1]
      · simpa [Nat.add_comm 1] using hp.append [i.op] []
  | loop body rest ihb ihr =>
    rw [size_loop] at hk
    rcases Nat.lt_trichotomy k (body.size + 1) with h | rfl | h
    · cases k with
      | zero =>
        refine ⟨body.size + 1, ?_, .stop (encloses_loop body rest)⟩
        rw [targets, List.getElem?_cons_zero, Nat.add_assoc, Nat.add_comm 1]
      | succ k =>
        have hk' : k < body.size := Nat.lt_of_succ_lt_succ h
        obtain ⟨l, ht, hp⟩ := ihb (base + 1) hk'
        refine ⟨l + 1, ?_, ?_⟩
        · rw [targets, List.getElem?_cons_succ,
            List.getElem?_append_left (by rwa [length_targets]), ht, Nat.add_assoc,
            Nat.add_comm 1]
        · have hp' := hp.append [.loopStart] (.loopEnd :: rest.operators)
          rw [operators_loop]
          simpa [Nat.add_comm 1] using hp'
    · refine ⟨0, ?_, .start (encloses_loop body rest)⟩
      rw [targets, List.getElem?_cons_succ, List.getElem?_append_right (by rw [length_targets]),
        length_targets, Nat.sub_self]
      rfl
    · obtain ⟨k, rfl⟩ : ∃ k', k = body.size + 2 + k' := ⟨k - (body.size + 2), by omega⟩
      obtain ⟨l, ht, hp⟩ := ihr (base + 1 + body.size + 1) (k := k) (by omega)
      refine ⟨body.size + 2 + l, ?_, ?_⟩
      · rw [targets, show body.size + 2 + k = body.size + (k + 1) + 1 by omega,
          List.getElem?_cons_succ,
          List.getElem?_append_right (by rw [length_targets]; omega), length_targets,
          Nat.add_sub_cancel_left, List.getElem?_cons_succ, ht]
        exact congrArg some (by omega)
      · have hp' := hp.append (.loopStart :: (body.operators ++ [.loopEnd])) []
        simp only [List.length_cons, List.length_append, length_operators, List.length_nil] at hp'
        rw [operators_loop]
        simpa using hp'

end Block

/-! ## Jump tables -/

namespace JumpTable

variable {table table' : JumpTable} {code : List Instruction}

/-- A table matches the brackets of an operator list. -/
structure Matches (table : JumpTable) (ops : List Operator) : Prop where
  /-- There is one entry for each operator. -/
  size_eq : table.targets.size = ops.length
  /-- The partner of the partner of an operator is the operator itself. -/
  involutive : ∀ i j, table.target? i = some j → table.target? j = some i
  /-- Exactly the operators that are no brackets are their own partners. -/
  fixed_iff : ∀ i op, ops[i]? = some op → (table.target? i = some i ↔ ¬ op.IsBracket)
  /-- The partner of a loop start is a loop end after it, and what lies between them balances. -/
  encloses : ∀ i, ops[i]? = some .loopStart → ∃ j, table.target? i = some j ∧ Encloses ops i j
  /-- Two pairs are nested or disjoint. -/
  nested_or_disjoint : ∀ i j k l, table.target? i = some j → table.target? k = some l →
    i < j → k < l → i < k → j < k ∨ l < j

theorem ext_target? (h : ∀ i, table.target? i = table'.target? i) : table = table' := by
  cases table
  cases table'
  exact congrArg mk (Array.ext_getElem? h)

/-- **A list has a jump table** exactly if it balances. -/
theorem exists_resolve_iff :
    (∃ table, resolve code = .ok table) ↔ Balanced (code.map Instruction.op) := by
  constructor
  · rintro ⟨table, h⟩
    obtain ⟨b, hb⟩ := Block.exists_parse?_of_resolve h
    rw [← Block.parse?_eq_some_iff.mp hb]
    exact b.balanced_operators
  · intro h
    obtain ⟨b, hb⟩ := Block.exists_parse?_of_balanced h
    rw [← Block.parse?_eq_some_iff.mp hb]
    exact ⟨_, b.resolve_code⟩

/-- Every instruction of a list with a jump table has a partner, which is its entry. -/
theorem exists_partner (h : resolve code = .ok table) (hi : i < code.length) :
    ∃ j, table.target? i = some j ∧ Partner (code.map Instruction.op) i j := by
  obtain ⟨b, hb⟩ := Block.exists_parse?_of_resolve h
  obtain rfl := Block.parse?_eq_some_iff.mp hb
  rw [b.resolve_code] at h
  obtain rfl := Except.ok.inj h
  obtain ⟨j, ht, hp⟩ := b.exists_partner 0 hi
  refine ⟨j, ?_, hp⟩
  rw [Nat.zero_add] at ht
  simpa [target?] using ht

/-- **A resolved table holds the partners.** -/
theorem target?_eq_some_iff (h : resolve code = .ok table) :
    table.target? i = some j ↔ Partner (code.map Instruction.op) i j := by
  have hlen : (code.map Instruction.op).length = code.length := List.length_map _
  constructor
  · intro ht
    have hi : i < table.targets.size := (Array.getElem?_eq_some_iff.mp ht).1
    rw [size_of_resolve h] at hi
    obtain ⟨j', ht', hp⟩ := exists_partner h hi
    obtain rfl := Option.some.inj (ht.symm.trans ht')
    exact hp
  · intro hp
    obtain ⟨j', ht', hp'⟩ := exists_partner h (hlen ▸ hp.lt_length)
    rw [ht', hp'.unique hp]

/-- A resolved table matches the brackets of its list. -/
theorem matches_of_resolve (h : resolve code = .ok table) :
    table.Matches (code.map Instruction.op) where
  size_eq := by rw [size_of_resolve h, List.length_map]
  involutive := by
    intro i j ht
    rw [target?_eq_some_iff h] at ht ⊢
    exact ht.symm
  fixed_iff := by
    intro i op hi
    rw [target?_eq_some_iff h]
    constructor
    · rintro hp (rfl | rfl)
      · exact absurd (hp.encloses_of_loopStart hi).lt (Nat.lt_irrefl i)
      · exact absurd (hp.encloses_of_loopEnd hi).lt (Nat.lt_irrefl i)
    · exact Partner.plain hi
  encloses := by
    intro i hi
    have hlt : i < code.length := by
      simpa using (List.getElem?_eq_some_iff.mp hi).1
    obtain ⟨j, ht, hp⟩ := exists_partner h hlt
    exact ⟨j, ht, hp.encloses_of_loopStart hi⟩
  nested_or_disjoint := by
    intro i j k l hij hkl hi hk hik
    rw [target?_eq_some_iff h] at hij hkl
    have forward {m n : Nat} (hp : Partner (code.map Instruction.op) m n) (hlt : m < n) :
        Encloses (code.map Instruction.op) m n := by
      -- The other partners do not come after.
      cases hp with
      | plain => exact absurd hlt (Nat.lt_irrefl m)
      | stop h => exact h
      | start h => exact absurd h.lt (Nat.lt_asymm hlt)
    exact (forward hij hi).nested_or_disjoint (forward hkl hk) hik

/-- A table that matches a list holds the partners. -/
theorem Matches.target?_of_partner (h : table.Matches ops) (hp : Partner ops i j) :
    table.target? i = some j := by
  have hstart {m n : Nat} (he : Encloses ops m n) : table.target? m = some n := by
    obtain ⟨n', ht, he'⟩ := h.encloses m he.start
    rw [ht, he'.unique_stop he]
  cases hp with
  | plain hi hop => exact (h.fixed_iff i _ hi).mpr hop
  | stop he => exact hstart he
  | start he => exact h.involutive j i (hstart he)

/-- **A list that balances has one table that matches it.** -/
theorem Matches.unique (h : resolve code = .ok table)
    (h' : table'.Matches (code.map Instruction.op)) : table' = table := by
  refine ext_target? fun i => ?_
  by_cases hi : i < code.length
  · obtain ⟨j, ht, hp⟩ := exists_partner h hi
    rw [ht, h'.target?_of_partner hp]
  · -- Both tables end with the list.
    have hsize := size_of_resolve h
    have hsize' := h'.size_eq
    rw [List.length_map] at hsize'
    rw [target?, target?, Array.getElem?_eq_none (by omega), Array.getElem?_eq_none (by omega)]

/-! ## Lists that do not balance -/

/-- What is reported first is the first loop end that is too many. -/
theorem isLeast_of_unmatchedEnd {index : Nat} (h : resolve code = .error (.unmatchedEnd index)) :
    IsLeast {n | n < code.length ∧ EndsTooMany (code.map Instruction.op) n} index := by
  have hv := verdict_resolve code
  rw [h] at hv
  cases hv with
  | @unmatchedEnd n lt nonneg neg =>
    rw [Nat.zero_add]
    refine ⟨⟨by simpa using lt, endsTooMany_iff.mpr (by omega)⟩, ?_⟩
    rintro k ⟨-, hk⟩
    rw [endsTooMany_iff] at hk
    by_contra hlt
    have := nonneg (k + 1) (by omega)
    omega

/-- Loop starts that are too many are only reported if no loop end is. -/
theorem surplus_of_unclosedStart {count : Nat} (h : resolve code = .error (.unclosedStart count)) :
    (∀ n < code.length, ¬ EndsTooMany (code.map Instruction.op) n) ∧ 0 < count ∧
      (code.map Instruction.op).count .loopStart =
        (code.map Instruction.op).count .loopEnd + count := by
  have hv := verdict_resolve code
  rw [h] at hv
  cases hv with
  | unclosedStart nonneg pos left =>
    refine ⟨fun n _ hn => ?_, pos, ?_⟩
    · have := nonneg (n + 1)
      rw [endsTooMany_iff] at hn
      omega
    · rw [depth, List.take_length] at left
      omega

theorem resolve_eq_unmatchedEnd_iff {index : Nat} :
    resolve code = .error (.unmatchedEnd index) ↔
      IsLeast {n | n < code.length ∧ EndsTooMany (code.map Instruction.op) n} index := by
  refine ⟨isLeast_of_unmatchedEnd, fun h => ?_⟩
  -- No other outcome is possible, and a list has one least index.
  cases hr : resolve code with
  | ok table => exact absurd h.1.2 (exists_resolve_iff.mp ⟨table, hr⟩).not_endsTooMany
  | error e =>
    cases e with
    | unmatchedEnd n => rw [(isLeast_of_unmatchedEnd hr).unique h]
    | unclosedStart count => exact absurd h.1.2 ((surplus_of_unclosedStart hr).1 _ h.1.1)

theorem resolve_eq_unclosedStart_iff {count : Nat} :
    resolve code = .error (.unclosedStart count) ↔
      (∀ n < code.length, ¬ EndsTooMany (code.map Instruction.op) n) ∧ 0 < count ∧
        (code.map Instruction.op).count .loopStart =
          (code.map Instruction.op).count .loopEnd + count := by
  refine ⟨surplus_of_unclosedStart, ?_⟩
  rintro ⟨hends, hpos, hcount⟩
  cases hr : resolve code with
  | ok table =>
    have heq := (exists_resolve_iff.mp ⟨table, hr⟩).2
    omega
  | error e =>
    cases e with
    | unmatchedEnd n =>
      obtain ⟨hlt, hn⟩ := (isLeast_of_unmatchedEnd hr).1
      exact absurd hn (hends n hlt)
    | unclosedStart count' =>
      obtain ⟨-, -, hcount'⟩ := surplus_of_unclosedStart hr
      rw [show count' = count by omega]

/-! ## Resolving -/

/-- **Resolving is matching brackets.** A list has a jump table exactly if it balances, and the
table is the one that matches its brackets. Otherwise the first loop end that is too many is
reported, or without one how many loop starts are. Search for the partners comes to the same. -/
theorem resolve_iff (code : List Instruction) :
    ((∃ table, resolve code = .ok table) ↔ Balanced (code.map Instruction.op)) ∧
    (∀ index, resolve code = .error (.unmatchedEnd index) ↔
      IsLeast {n | n < code.length ∧ EndsTooMany (code.map Instruction.op) n} index) ∧
    (∀ count, resolve code = .error (.unclosedStart count) ↔
      (∀ n < code.length, ¬ EndsTooMany (code.map Instruction.op) n) ∧ 0 < count ∧
        (code.map Instruction.op).count .loopStart =
          (code.map Instruction.op).count .loopEnd + count) ∧
    (∀ table, resolve code = .ok table ↔
      Balanced (code.map Instruction.op) ∧ table.Matches (code.map Instruction.op)) ∧
    search code = resolve code := by
  refine ⟨exists_resolve_iff, fun _ => resolve_eq_unmatchedEnd_iff,
    fun _ => resolve_eq_unclosedStart_iff, fun table => ⟨fun h => ?_, ?_⟩, search_eq_resolve code⟩
  · exact ⟨exists_resolve_iff.mp ⟨table, h⟩, matches_of_resolve h⟩
  · rintro ⟨hb, hm⟩
    obtain ⟨table', h'⟩ := exists_resolve_iff.mpr hb
    rw [hm.unique h', h']

end JumpTable

end Brainfuck
