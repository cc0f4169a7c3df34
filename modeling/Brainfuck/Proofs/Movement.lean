import Brainfuck.Machine

/-!
# Where moves lead

A move and the recovery from it are computed on machine words. On a tape no step of the computation
leaves the words, so that the pointer comes to where integer arithmetic puts it. Under a policy that
does not ignore moves off the tape, it then makes no difference whether a move is made at once or in
parts.

## Main definitions

* `Direction.offset`: a move as an integer
* `OnTape`: an integer is the index of a cell
* `BoundsPolicy.land?`: where the pointer comes to
* `Machine.Does`: what an instruction does
* `Tape.MovesExactly`: a move goes by integer arithmetic under every policy

## Main results

* `BoundsPolicy.move_eq`: a move under a policy leads to where the policy lands
* `BoundsPolicy.land?_bind`: moves in one direction add up
* `Machine.does_of_exec_done`: an instruction that is done is a move, a read, a write or a change of
  the tape
* `Machine.cases_of_exec_failed`: an instruction fails because the output refuses a byte, or because
  a move leaves the tape under the fatal policy
* `Tape.movesExactly`: every move goes by integer arithmetic, without leaving the machine words
-/

namespace Brainfuck

namespace Direction

/-- A move of `n` cells as an integer. -/
def offset (n : Nat) : Direction → Int
  | right => n
  | left => -n

/-- The operator that moves in this direction. -/
def operator : Direction → Operator
  | right => .right
  | left => .left

/-- The last cell in this direction. -/
def edge (capacity : Nat) : Direction → Nat
  | right => capacity - 1
  | left => 0

@[simp] theorem offset_right (n : Nat) : right.offset n = n := rfl

@[simp] theorem offset_left (n : Nat) : left.offset n = -n := rfl

theorem offset_add (d : Direction) (m n : Nat) : d.offset (m + n) = d.offset m + d.offset n := by
  cases d
  · rw [offset_right, offset_right, offset_right, Int.natCast_add]
  · rw [offset_left, offset_left, offset_left, Int.natCast_add, Int.neg_add]

end Direction

/-- An integer is the index of a cell of a tape. -/
def OnTape (capacity : Nat) (z : Int) : Prop :=
  0 ≤ z ∧ z < capacity

instance (capacity : Nat) (z : Int) : Decidable (OnTape capacity z) :=
  inferInstanceAs (Decidable (_ ∧ _))

theorem onTape_right {capacity pointer n : Nat} :
    OnTape capacity (pointer + Direction.right.offset n) ↔ pointer + n < capacity := by
  rw [OnTape, Direction.offset_right]
  omega

theorem onTape_left {capacity pointer n : Nat} (h : pointer < capacity) :
    OnTape capacity (pointer + Direction.left.offset n) ↔ n ≤ pointer := by
  rw [OnTape, Direction.offset_left]
  omega

variable {w : Width}

/-! ## Moves on the tape -/

theorem Tape.destination?_eq (t : Tape w) (d : Direction) (n : Nat) :
    t.destination? d n =
      if OnTape t.capacity (t.pointer + d.offset n) then some (t.pointer + d.offset n).toNat
      else none := by
  have hp := t.pointer_lt_capacity
  have hc : t.capacity < 9223372036854775808 := t.size_lt
  cases d with
  | right =>
    simp only [onTape_right]
    have hto : (t.pointer + Direction.right.offset n).toNat = t.pointer + n := by
      rw [Direction.offset_right]
      omega
    rw [hto]
    -- The sum can only fail to be a word far off the tape.
    show (Word.add? t.pointer n).filter (· < t.capacity) = _
    unfold Word.add? Word.limit
    by_cases hn : t.pointer + n < t.capacity
    · rw [if_pos (by omega), if_pos hn]
      simp [hn]
    · rw [if_neg hn]
      split
      · simp only [Option.filter_some, hn, decide_false]
        rfl
      · rfl
  | left =>
    simp only [onTape_left hp]
    have hto : (t.pointer + Direction.left.offset n).toNat = t.pointer - n := by
      rw [Direction.offset_left]
      omega
    rw [hto]
    rfl

theorem Tape.move_eq (t : Tape w) (d : Direction) (n : Nat) :
    t.move d n =
      if OnTape t.capacity (t.pointer + d.offset n) then
        .ok (t.seek (t.pointer + d.offset n).toNat)
      else .error ⟨t.pointer, d⟩ := by
  split
  next h =>
    refine move_eq_ok_iff.mpr ⟨rfl, ?_⟩
    rw [destination?_eq, if_pos h, pointer_seek_of_lt]
    obtain ⟨h₀, h₁⟩ := h
    omega
  next h =>
    refine move_eq_error_iff.mpr ⟨?_, rfl⟩
    rw [destination?_eq, if_neg h]

/-! ## Moves under a policy -/

/-- The remainder of a move around the tape is that of the integer. -/
theorem BoundsPolicy.around?_eq {capacity pointer : Nat} (hp : pointer < capacity)
    (hc : capacity < Tape.bound) (n : Nat) (d : Direction) :
    around? capacity pointer n d = some ((pointer + d.offset n) % capacity).toNat := by
  have hmod : n % capacity < capacity := Nat.mod_lt _ (by omega)
  unfold Tape.bound at hc
  have hrem (k : Nat) : Word.mod? k capacity = some (k % capacity) :=
    Word.mod?_eq_some_iff.mpr ⟨by omega, rfl⟩
  have hsum {k : Nat} (hk : k ≤ capacity) : Word.add? pointer k = some (pointer + k) :=
    Word.add?_eq_some_iff.mpr ⟨by unfold Word.limit; omega, rfl⟩
  cases d with
  | right =>
    -- Only the remainder of `n` is added, which comes to the same.
    have hto : (pointer + Direction.right.offset n) % capacity =
        ((pointer + n % capacity) % capacity : Nat) := by
      rw [Direction.offset_right, Nat.add_mod_mod]
      rfl
    rw [hto, Int.toNat_natCast]
    simp only [around?, hrem, hsum (Nat.le_of_lt hmod), Option.bind_eq_bind, Option.bind_some]
  | left =>
    have hto : (pointer + Direction.left.offset n) % capacity =
        ((pointer + capacity - n % capacity) % capacity : Nat) := by
      -- The two differ by the rounds that `n` makes, and one more.
      have hdiv := Nat.div_add_mod n capacity
      have heq : (pointer + Direction.left.offset n : Int) =
          (pointer + capacity - n % capacity : Nat) + capacity * (-(n / capacity : Nat) - 1) := by
        rw [Direction.offset_left, Int.mul_sub, Int.mul_neg, ← Int.natCast_mul]
        omega
      rw [heq, Int.add_mul_emod_self_left]
      rfl
    have hsub : Word.sub? (pointer + capacity) (n % capacity) =
        some (pointer + capacity - n % capacity) :=
      Word.sub?_eq_some_iff.mpr (by omega)
    rw [hto, Int.toNat_natCast]
    simp only [around?, hrem, hsum (Nat.le_refl _), hsub, Option.bind_eq_bind, Option.bind_some]

/-- The way around a tape is found among the machine words, and leads to a cell. -/
theorem Tape.exists_around? (t : Tape w) (d : Direction) (n : Nat) :
    ∃ index < t.capacity, BoundsPolicy.around? t.capacity t.pointer n d = some index := by
  have hpos : (0 : Int) < t.capacity := Int.natCast_pos.mpr t.capacity_pos
  have hlt := Int.emod_lt_of_pos (t.pointer + d.offset n) hpos
  exact ⟨_, by omega, BoundsPolicy.around?_eq t.pointer_lt_capacity t.size_lt n d⟩

theorem Tape.sub?_capacity_one (t : Tape w) : Word.sub? t.capacity 1 = some (t.capacity - 1) :=
  Word.sub?_eq_some_iff.mpr (by have := t.capacity_pos; omega)

/-- Where a move of `offset` cells comes to from `pointer`, if the policy lets the run go on. -/
def BoundsPolicy.land? (policy : BoundsPolicy) (capacity pointer : Nat) (offset : Int) :
    Option Nat :=
  if OnTape capacity (pointer + offset) then some (pointer + offset).toNat
  else
    match policy with
    | fatal => none
    | wrap => some ((pointer + offset) % capacity).toNat
    | clamp => some (if pointer + offset < 0 then 0 else capacity - 1)
    | ignore => some pointer

/-- **A move under a policy** leads to where the policy lands, and is reported exactly if it leaves
the tape. -/
theorem BoundsPolicy.move_eq (policy : BoundsPolicy) (d : Direction) (n : Nat) (t : Tape w) :
    policy.move d n t =
      match policy.land? t.capacity t.pointer (d.offset n) with
      | some index =>
        .ok (t.seek index,
          if OnTape t.capacity (t.pointer + d.offset n) then none else some ⟨t.pointer, d⟩)
      | none => .error (.bounds ⟨t.pointer, d⟩) := by
  unfold move land?
  rw [Tape.move_eq]
  by_cases h : OnTape t.capacity (t.pointer + d.offset n)
  · simp only [if_pos h]
  · simp only [if_neg h]
    -- Off the tape each policy places the pointer in its own way.
    cases policy with
    | fatal => rfl
    | ignore =>
      show Except.ok (t, some _) = Except.ok (t.seek t.pointer, some _)
      rw [Tape.seek_pointer]
    | wrap =>
      simp only [recover, around?_eq t.pointer_lt_capacity t.size_lt]
      rfl
    | clamp =>
      have hp := t.pointer_lt_capacity
      cases d with
      | right =>
        rw [if_neg (by rw [Direction.offset_right]; omega)]
        rfl
      | left =>
        -- A move left that leaves the tape leads below zero.
        rw [onTape_left hp] at h
        rw [if_pos (by rw [Direction.offset_left]; omega)]
        rfl

/-! ## Moves in parts -/

/-- A move that stays on the tape stays on it up to every part of it. -/
theorem OnTape.of_add {capacity pointer m n : Nat} {d : Direction} (h : pointer < capacity)
    (ht : OnTape capacity (pointer + d.offset (m + n))) :
    OnTape capacity (pointer + d.offset m) := by
  cases d with
  | right =>
    rw [onTape_right] at ht ⊢
    omega
  | left =>
    rw [onTape_left h] at ht ⊢
    omega

namespace BoundsPolicy

variable {policy : BoundsPolicy} {capacity pointer : Nat}

theorem land?_of_onTape {offset : Int} (h : OnTape capacity (pointer + offset)) :
    policy.land? capacity pointer offset = some (pointer + offset).toNat := by
  unfold land?
  rw [if_pos h]

theorem land?_wrap (offset : Int) :
    wrap.land? capacity pointer offset = some ((pointer + offset) % capacity).toNat := by
  unfold land?
  split
  next h => rw [Int.emod_eq_of_lt h.1 h.2]
  next => rfl

theorem land?_fatal_of_not_onTape {offset : Int} (h : ¬ OnTape capacity (pointer + offset)) :
    fatal.land? capacity pointer offset = none := by
  rw [land?, if_neg h]

/-- Only the fatal policy lands nowhere, after a move off the tape. -/
theorem land?_eq_none_iff {offset : Int} :
    policy.land? capacity pointer offset = none ↔
      policy = fatal ∧ ¬ OnTape capacity (pointer + offset) := by
  constructor
  · intro h
    by_cases ht : OnTape capacity (pointer + offset)
    · rw [land?_of_onTape ht] at h
      cases h
    · refine ⟨?_, ht⟩
      rw [land?.eq_def, if_neg ht] at h
      cases policy with
      | fatal => rfl
      | _ => cases h
  · rintro ⟨rfl, ht⟩
    exact land?_fatal_of_not_onTape ht

theorem land?_clamp_of_not_onTape {d : Direction} {n : Nat} (hp : pointer < capacity)
    (h : ¬ OnTape capacity (pointer + d.offset n)) :
    clamp.land? capacity pointer (d.offset n) = some (d.edge capacity) := by
  rw [land?, if_neg h]
  cases d with
  | right => rw [Direction.offset_right, if_neg (by omega), Direction.edge]
  | left =>
    rw [onTape_left hp] at h
    rw [Direction.offset_left, if_pos (by omega), Direction.edge]

/-- From an edge there is no going further. -/
theorem land?_clamp_edge (h : 0 < capacity) (d : Direction) (n : Nat) :
    clamp.land? capacity (d.edge capacity) (d.offset n) = some (d.edge capacity) := by
  have hedge : d.edge capacity < capacity := by
    cases d
    · exact Nat.sub_lt h Nat.one_pos
    · exact h
  by_cases ht : OnTape capacity (d.edge capacity + d.offset n)
  · -- A move that stays on the tape from there is none.
    have hn : n = 0 := by
      cases d with
      | right =>
        rw [onTape_right, Direction.edge] at ht
        omega
      | left =>
        rw [onTape_left hedge, Direction.edge] at ht
        omega
    subst hn
    rw [land?_of_onTape ht]
    cases d <;> simp
  · exact land?_clamp_of_not_onTape hedge ht

/-- A policy lands on the tape. -/
theorem lt_of_land? {offset : Int} {index : Nat} (hp : pointer < capacity)
    (h : policy.land? capacity pointer offset = some index) : index < capacity := by
  unfold land? at h
  split at h
  next ht =>
    obtain rfl := Option.some.inj h
    obtain ⟨h₀, h₁⟩ := ht
    omega
  next ht =>
    cases policy with
    | fatal => cases h
    | wrap =>
      obtain rfl := Option.some.inj h
      have hlt := Int.emod_lt_of_pos (pointer + offset) (by omega : (0 : Int) < capacity)
      omega
    | clamp =>
      obtain rfl := Option.some.inj h
      split <;> omega
    | ignore =>
      obtain rfl := Option.some.inj h
      exact hp

/-- Where a policy lands depends on where the move leads to alone. -/
theorem land?_congr (hp : policy ≠ ignore) {pointer' : Nat} {offset offset' : Int}
    (h : pointer + offset = pointer' + offset') :
    policy.land? capacity pointer offset = policy.land? capacity pointer' offset' := by
  unfold land?
  rw [h]
  cases policy with
  | ignore => exact absurd rfl hp
  | _ => rfl

/-- **Moves in one direction add up**, unless moves off the tape are ignored. -/
theorem land?_bind (hp : policy ≠ ignore) (h : pointer < capacity) (d : Direction) (m n : Nat) :
    ((policy.land? capacity pointer (d.offset m)).bind fun index =>
        policy.land? capacity index (d.offset n)) =
      policy.land? capacity pointer (d.offset (m + n)) := by
  by_cases hm : OnTape capacity (pointer + d.offset m)
  · -- Then the second part leads to where the whole does.
    rw [land?_of_onTape hm, Option.bind_some]
    refine land?_congr hp ?_
    rw [Int.toNat_of_nonneg hm.1, Direction.offset_add, Int.add_assoc]
  · -- The whole move leaves the tape where its first part does.
    have hmn : ¬ OnTape capacity (pointer + d.offset (m + n)) := fun ht => hm (ht.of_add h)
    cases policy with
    | ignore => exact absurd rfl hp
    | fatal =>
      rw [land?_fatal_of_not_onTape hm, land?_fatal_of_not_onTape hmn, Option.bind_none]
    | clamp =>
      rw [land?_clamp_of_not_onTape h hm, land?_clamp_of_not_onTape h hmn, Option.bind_some]
      exact land?_clamp_edge (Nat.zero_lt_of_lt h) d n
    | wrap =>
      have hpos : (capacity : Int) ≠ 0 := by omega
      rw [land?_wrap, Option.bind_some, land?_wrap, land?_wrap,
        Int.toNat_of_nonneg (Int.emod_nonneg _ hpos), Int.emod_add_emod, Direction.offset_add,
        Int.add_assoc]

end BoundsPolicy

/-! ## Moves of a machine -/

namespace Machine

variable {policy : BoundsPolicy} {d : Direction} {n index : Nat} {m : Machine w}

theorem move_of_land?_eq_some
    (h : policy.land? m.tape.capacity m.tape.pointer (d.offset n) = some index) :
    ∃ event, m.move policy d n = .done { m with tape := m.tape.seek index } event := by
  unfold move
  rw [BoundsPolicy.move_eq, h]
  exact ⟨_, rfl⟩

theorem move_of_land?_eq_none
    (h : policy.land? m.tape.capacity m.tape.pointer (d.offset n) = none) :
    m.move policy d n = .failed m (.bounds ⟨m.tape.pointer, d⟩) := by
  unfold move
  rw [BoundsPolicy.move_eq, h]

/-- A move that is done places the pointer, and leaves everything else as it is. -/
theorem exists_seek_of_move_done {m' : Machine w} {event : Option Event}
    (h : m.move policy d n = .done m' event) :
    ∃ index, m' = { m with tape := m.tape.seek index } := by
  cases hl : policy.land? m.tape.capacity m.tape.pointer (d.offset n) with
  | some index =>
    obtain ⟨event', hm⟩ := move_of_land?_eq_some hl
    obtain ⟨rfl, -⟩ := Effect.done.inj (hm.symm.trans h)
    exact ⟨index, rfl⟩
  | none => cases (move_of_land?_eq_none hl).symm.trans h

theorem exec_of_op_eq_operator {i : Instruction} (h : i.op = d.operator) (m : Machine w) :
    m.exec policy i = m.move policy d i.count := by
  unfold exec
  rw [h]
  cases d <;> rfl

/-- **What an instruction does** that takes the machine `m` to another: it moves, it reads, it
writes, or it changes the tape and keeps the number of cells. -/
inductive Does (policy : BoundsPolicy) (i : Instruction) (m : Machine w) :
    Machine w → Option Event → Prop
  | move {d : Direction} {m' : Machine w} {event : Option Event} (op : i.op = d.operator)
      (h : m.move policy d i.count = .done m' event) : Does policy i m m' event
  | read {m' : Machine w} {event : Option Event} (op : i.op = .input)
      (h : m.read = .done m' event) : Does policy i m m' event
  | print {m' : Machine w} {event : Option Event} (op : i.op = .output)
      (h : m.print = .done m' event) : Does policy i m m' event
  | change {tape : Tape w} (move : ∀ d : Direction, i.op ≠ d.operator) (read : i.op ≠ .input)
      (print : i.op ≠ .output) (capacity : tape.capacity = m.tape.capacity) :
      Does policy i m { m with tape } none

/-- **What an instruction that is done has done.** -/
theorem does_of_exec_done {i : Instruction} {m' : Machine w} {event : Option Event}
    (h : m.exec policy i = .done m' event) : Does policy i m m' event := by
  cases hop : i.op with
  | right =>
    rw [exec_of_op_eq_operator (d := .right) hop] at h
    exact .move (d := .right) hop h
  | left =>
    rw [exec_of_op_eq_operator (d := .left) hop] at h
    exact .move (d := .left) hop h
  | input =>
    rw [exec, hop] at h
    exact .read hop h
  | output =>
    rw [exec, hop] at h
    exact .print hop h
  | loopStart | loopEnd =>
    rw [exec, hop] at h
    obtain ⟨rfl, rfl⟩ := Effect.done.inj h
    refine .change ?_ (by simp [hop]) (by simp [hop]) rfl
    rintro (_ | _) <;> simp [hop, Direction.operator]
  | inc | dec | clear =>
    rw [exec, hop] at h
    obtain ⟨rfl, rfl⟩ := Effect.done.inj h
    refine .change ?_ (by simp [hop]) (by simp [hop]) (Tape.capacity_modify _ _)
    rintro (_ | _) <;> simp [hop, Direction.operator]

theorem output_of_print_failed {m' : Machine w} {e : RunError} (h : m.print = .failed m' e) :
    ∃ cause, e = .output cause := by
  unfold print at h
  split at h
  · cases h
  · obtain ⟨-, rfl⟩ := Effect.failed.inj h
    exact ⟨_, rfl⟩

theorem bounds_of_move_failed {m' : Machine w} {e : RunError}
    (h : m.move policy d n = .failed m' e) :
    policy = .fatal ∧ ¬ OnTape m.tape.capacity (m.tape.pointer + d.offset n) ∧
      e = .bounds ⟨m.tape.pointer, d⟩ := by
  cases hl : policy.land? m.tape.capacity m.tape.pointer (d.offset n) with
  | some index =>
    obtain ⟨event, hm⟩ := move_of_land?_eq_some hl
    cases hm.symm.trans h
  | none =>
    obtain ⟨hp, ht⟩ := BoundsPolicy.land?_eq_none_iff.mp hl
    obtain ⟨-, rfl⟩ := Effect.failed.inj ((move_of_land?_eq_none hl).symm.trans h)
    exact ⟨hp, ht, rfl⟩

/-- **What instructions fail with.** Either the output refuses a byte, or a move leaves the tape
under the fatal policy and is reported with where it started. -/
theorem cases_of_exec_failed {i : Instruction} {m' : Machine w} {e : RunError}
    (h : m.exec policy i = .failed m' e) :
    (∃ cause, e = .output cause) ∨
      policy = .fatal ∧ ∃ d : Direction, i.op = d.operator ∧ e = .bounds ⟨m.tape.pointer, d⟩ ∧
        ¬ OnTape m.tape.capacity (m.tape.pointer + d.offset i.count) := by
  have hmove {d : Direction} (hop : i.op = d.operator) :
      policy = .fatal ∧ ∃ d : Direction, i.op = d.operator ∧ e = .bounds ⟨m.tape.pointer, d⟩ ∧
        ¬ OnTape m.tape.capacity (m.tape.pointer + d.offset i.count) := by
    rw [exec_of_op_eq_operator hop] at h
    obtain ⟨hp, ht, he⟩ := bounds_of_move_failed h
    exact ⟨hp, d, hop, he, ht⟩
  -- Besides the two moves only the output can fail.
  cases hop : i.op with
  | right =>
    rw [← hop]
    exact Or.inr (hmove (d := .right) hop)
  | left =>
    rw [← hop]
    exact Or.inr (hmove (d := .left) hop)
  | output =>
    rw [exec, hop] at h
    exact Or.inl (output_of_print_failed h)
  | _ =>
    rw [exec, hop] at h
    cases h

end Machine

/-! ## Moves in integer arithmetic -/

/-- The tape `t'` has the cells of `t` and its pointer at `z`. -/
structure Tape.Placed (t : Tape w) (z : Int) (t' : Tape w) : Prop where
  cells : t'.cells = t.cells
  pointer : t'.pointer = z

theorem BoundsPolicy.exists_placed_of_land? {policy : BoundsPolicy} {t : Tape w} {d : Direction}
    {n index : Nat} (h : policy.land? t.capacity t.pointer (d.offset n) = some index) :
    ∃ t', policy.move d n t = .ok (t',
        if OnTape t.capacity (t.pointer + d.offset n) then none else some ⟨t.pointer, d⟩) ∧
      t.Placed index t' := by
  have hlt := lt_of_land? t.pointer_lt_capacity h
  refine ⟨t.seek index, ?_, rfl, congrArg Nat.cast (Tape.pointer_seek_of_lt hlt)⟩
  rw [move_eq, h]

/-- A move of `n` cells goes by integer arithmetic under every policy. -/
structure Tape.MovesExactly (t : Tape w) (d : Direction) (n : Nat) : Prop where
  /-- A move that stays on the tape leads to the sum and is not reported. -/
  stays : OnTape t.capacity (t.pointer + d.offset n) → ∀ policy : BoundsPolicy,
    ∃ t', policy.move d n t = .ok (t', none) ∧ t.Placed (t.pointer + d.offset n) t'
  /-- A move off the tape fails, and its report says where it started. -/
  leaves : ¬ OnTape t.capacity (t.pointer + d.offset n) → t.move d n = .error ⟨t.pointer, d⟩
  /-- The fatal policy passes on the report, and nothing has changed. -/
  fatal : ¬ OnTape t.capacity (t.pointer + d.offset n) → ∀ m : Machine w, m.tape = t →
    m.move .fatal d n = .failed m (.bounds ⟨t.pointer, d⟩)
  ignore : ¬ OnTape t.capacity (t.pointer + d.offset n) →
    BoundsPolicy.ignore.move d n t = .ok (t, some ⟨t.pointer, d⟩)
  clamp : ¬ OnTape t.capacity (t.pointer + d.offset n) →
    ∃ t', BoundsPolicy.clamp.move d n t = .ok (t', some ⟨t.pointer, d⟩) ∧
      t.Placed (d.edge t.capacity) t'
  /-- The remainder is that of the sum, and not negative. -/
  wrap : ¬ OnTape t.capacity (t.pointer + d.offset n) →
    ∃ t', BoundsPolicy.wrap.move d n t = .ok (t', some ⟨t.pointer, d⟩) ∧
      t.Placed ((t.pointer + d.offset n) % t.capacity) t'
  /-- The index of the last cell is found among the machine words. -/
  last : Word.sub? t.capacity 1 = some (Direction.right.edge t.capacity)
  /-- No step on the way around the tape leaves the machine words. -/
  around : ∃ index < t.capacity, BoundsPolicy.around? t.capacity t.pointer n d = some index

/-- **Moves are exact**: however far a move goes, the machine words hold all it is computed from. -/
theorem Tape.movesExactly (t : Tape w) (d : Direction) (n : Nat) : t.MovesExactly d n := by
  refine ⟨?stays, ?leaves, ?fatal, ?ignore, ?clamp, ?wrap, t.sub?_capacity_one,
    t.exists_around? d n⟩
  case stays =>
    intro h policy
    obtain ⟨t', hmove, hplaced⟩ :=
      BoundsPolicy.exists_placed_of_land? (BoundsPolicy.land?_of_onTape h)
    rw [if_pos h] at hmove
    rw [Int.toNat_of_nonneg h.1] at hplaced
    exact ⟨t', hmove, hplaced⟩
  case leaves =>
    intro h
    rw [move_eq, if_neg h]
  case fatal =>
    rintro h m rfl
    exact Machine.move_of_land?_eq_none (BoundsPolicy.land?_fatal_of_not_onTape h)
  case ignore =>
    intro h
    rw [BoundsPolicy.move, move_eq, if_neg h]
    rfl
  case clamp =>
    intro h
    have hland := BoundsPolicy.land?_clamp_of_not_onTape t.pointer_lt_capacity h
    obtain ⟨t', hmove, hplaced⟩ := BoundsPolicy.exists_placed_of_land? hland
    rw [if_neg h] at hmove
    exact ⟨t', hmove, hplaced⟩
  case wrap =>
    intro h
    obtain ⟨t', hmove, hplaced⟩ :=
      BoundsPolicy.exists_placed_of_land? (BoundsPolicy.land?_wrap (d.offset n))
    have hne : (t.capacity : Int) ≠ 0 := Int.natCast_ne_zero.mpr (Nat.ne_of_gt t.capacity_pos)
    rw [if_neg h] at hmove
    rw [Int.toNat_of_nonneg (Int.emod_nonneg _ hne)] at hplaced
    exact ⟨t', hmove, hplaced⟩

/-- Going around a short tape by all but the last machine word. -/
example : BoundsPolicy.around? 4 3 18446744073709551614 .left = some 1 := by decide

end Brainfuck
