import Brainfuck.Proofs.Balance

/-!
# Search for the partners

The search for the loop end of a loop start passes over the block between them. So the loops that
are entered, from the outermost to the innermost, fill the table with the partners that are read
off the tree, and the result is the table that one pass finds.

## Main results

* `JumpTable.loopEnd?_code_append`: the search passes over a block
* `JumpTable.pairFrom_code_append`: entering the loops of a block enters its partners
* `JumpTable.search_eq_resolve`: search finds the table that is found in one pass
-/

namespace Brainfuck.JumpTable

/-- The search passes over a block, all loops of which are ended. -/
theorem loopEnd?_code_append (b : Block) (index depth : Nat) (rest : List Instruction) :
    loopEnd? index depth (b.code ++ rest) = loopEnd? (index + b.size) depth rest := by
  induction b generalizing index depth rest with
  | nil => rfl
  | step i plain after ih =>
    rw [Block.code, List.cons_append, loopEnd?_of_not_isBracket plain, ih, Block.size_step]
    exact congrArg (loopEnd? · depth rest) (by omega)
  | loop body after ihb ihr =>
    rw [Block.code, List.cons_append, List.append_assoc, List.cons_append]
    simp only [loopEnd?, Instruction.single]
    rw [ihb]
    simp only [loopEnd?]
    rw [ihr, Block.size_loop]
    exact congrArg (loopEnd? · depth rest) (by omega)

theorem setIfInBounds_append_cons {front : List Nat} {base : Nat} (h : front.length = base)
    (back : List Nat) (x y : Nat) :
    (front ++ x :: back).toArray.setIfInBounds base y = (front ++ y :: back).toArray := by
  subst h
  simp

/-- The two brackets of a loop, with `m` instructions in it and `n` after it, become partners. -/
theorem setIfInBounds_loop {front back : List Nat} {base : Nat} (h : front.length = base)
    (m n : Nat) :
    ((front ++ (List.range' base (m + n + 2) ++ back)).toArray.setIfInBounds base
        (base + 1 + m)).setIfInBounds (base + 1 + m) base =
      (front ++ [base + 1 + m] ++ (List.range' (base + 1) m ++
        base :: (List.range' (base + 1 + m + 1) n ++ back))).toArray := by
  have hrange : List.range' base (m + n + 2) =
      base :: (List.range' (base + 1) m ++ (base + 1 + m) :: List.range' (base + 1 + m + 1) n) := by
    rw [show m + n + 2 = m + (n + 1) + 1 by omega, List.range'_succ, ← List.range'_append_1,
      List.range'_succ]
  have hstop : (front ++ (base + 1 + m) :: List.range' (base + 1) m).length = base + 1 + m := by
    simp [h]
    omega
  have hset := setIfInBounds_append_cons hstop (List.range' (base + 1 + m + 1) n ++ back)
    (base + 1 + m) base
  rw [hrange, List.cons_append, setIfInBounds_append_cons h]
  simpa using hset

/-- **Entering the loops of a block** replaces the indices of its instructions by their partners,
and leaves all other entries as they are. -/
theorem pairFrom_code_append (b : Block) {front back : List Nat} {base : Nat}
    (h : front.length = base) (rest : List Instruction) :
    pairFrom (front ++ (List.range' base b.size ++ back)).toArray base (b.code ++ rest) =
      pairFrom (front ++ (b.targets base ++ back)).toArray (base + b.size) rest := by
  induction b generalizing front back base rest with
  | nil => rfl
  | step i plain after ih =>
    have hop : i.op ≠ .loopStart := fun hs => plain (Or.inl hs)
    have hafter := @ih (front ++ [base]) back (base + 1) (by simp [h]) rest
    rw [Block.code, List.cons_append, pairFrom_of_op_ne hop, Block.size_step, List.range'_succ,
      Block.targets, show base + (after.size + 1) = base + 1 + after.size by omega]
    simpa using hafter
  | loop body after ihb ihr =>
    -- The loop end is found behind the body, and both entries are set.
    have hstop : loopEnd? (base + 1) 0 (body.code ++ .single .loopEnd :: (after.code ++ rest)) =
        some (base + 1 + body.size) := by
      rw [loopEnd?_code_append]
      rfl
    have hbody := @ihb (front ++ [base + 1 + body.size])
      (base :: (List.range' (base + 1 + body.size + 1) after.size ++ back)) (base + 1)
      (by simp [h]) (.single .loopEnd :: (after.code ++ rest))
    have hafter := @ihr (front ++ (base + 1 + body.size) :: (body.targets (base + 1) ++ [base]))
      back (base + 1 + body.size + 1) (by simp [h]; omega) rest
    rw [Block.code, List.cons_append, List.append_assoc, List.cons_append,
      pairFrom_of_loopEnd? (by rfl) hstop, Block.size_loop, setIfInBounds_loop h, hbody,
      pairFrom_of_op_ne (by decide), Block.targets,
      show base + (body.size + after.size + 2) = base + 1 + body.size + 1 + after.size by omega]
    simpa using hafter

/-- **Search finds the table that is found in one pass**, and fails for the same reason. -/
theorem search_eq_resolve (code : List Instruction) : search code = resolve code := by
  have hmap := map_resolve code
  unfold search
  rw [← hmap]
  cases h : resolve code with
  | error e => rfl
  | ok table =>
    obtain ⟨b, hb⟩ := Block.exists_parse?_of_resolve h
    obtain rfl := Block.parse?_eq_some_iff.mp hb
    obtain rfl := Except.ok.inj (b.resolve_code.symm.trans h)
    -- At the end every entry is the one that is read off the tree.
    have hrange : Array.range b.code.length = (List.range' 0 b.size).toArray := by
      apply Array.toList_inj.mp
      rw [Array.toList_range, List.range_eq_range', Block.size]
    have hpair := @pairFrom_code_append b [] [] 0 rfl []
    simp only [List.nil_append, List.append_nil, pairFrom] at hpair
    rw [hrange, hpair]
    rfl

end Brainfuck.JumpTable
