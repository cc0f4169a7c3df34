/-!
# Machine words

Pointers and capacities are sixty-four-bit words. An operation on words has a result only if the
exact result is a word, so that no result is ever off by a multiple of `2 ^ 64`.

## Main definitions

* `Word.add?`, `Word.sub?`, `Word.mod?`: the operations

## Main results

* `Word.add?_eq_some_iff`, `Word.sub?_eq_some_iff`, `Word.mod?_eq_some_iff`: when they have a
  result, and which
-/

namespace Brainfuck.Word

/-- Words are the numbers below `limit`, which is `2 ^ 64`. -/
def limit : Nat := 18446744073709551616

def add? (a b : Nat) : Option Nat :=
  if a + b < limit then some (a + b) else none

def sub? (a b : Nat) : Option Nat :=
  if b ≤ a then some (a - b) else none

def mod? (a b : Nat) : Option Nat :=
  if b = 0 then none else some (a % b)

theorem add?_eq_some_iff {a b c : Nat} : add? a b = some c ↔ a + b < limit ∧ a + b = c := by
  unfold add?
  split <;> simp <;> omega

theorem sub?_eq_some_iff {a b c : Nat} : sub? a b = some c ↔ a = b + c := by
  unfold sub?
  split <;> simp <;> omega

theorem mod?_eq_some_iff {a b c : Nat} : mod? a b = some c ↔ b ≠ 0 ∧ a % b = c := by
  unfold mod?
  split <;> simp_all

end Brainfuck.Word
