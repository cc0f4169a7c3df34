/-!
# Operators

A program is a row of operators. Eight of them are written with one character each. The ninth,
`clear`, sets the current cell to zero; it has no character of its own and only arises when a
program is optimized.

## Main definitions

* `Operator`: the nine operators
* `Operator.ofChar?`, `Operator.toChar?`: the eight characters
* `Operator.IsBatchable`: the operators whose repetitions add up
* `Operator.IsBracket`: the operators that begin and end loops
* `Operator.spelling`: how an operator is written out, `clear` as the loop it stands for

## Main results

* `Operator.toChar?_eq_some_iff`: reading and writing a character are inverse
* `Operator.mem_primitives`: the primitive operators are those with a character
-/

namespace Brainfuck

/-- One action of the language. -/
inductive Operator
  /-- Add to the current cell. -/
  | inc
  /-- Subtract from the current cell. -/
  | dec
  /-- Move the pointer right. -/
  | right
  /-- Move the pointer left. -/
  | left
  /-- Skip past the matching loop end if the current cell is zero. -/
  | loopStart
  /-- Go back to the matching loop start if the current cell is not zero. -/
  | loopEnd
  /-- Read one byte into the current cell. -/
  | input
  /-- Write the low byte of the current cell. -/
  | output
  /-- Set the current cell to zero. -/
  | clear
  deriving DecidableEq, Repr

namespace Operator

/-- The operators that have a character, in the order in which dialects list their tokens. -/
def primitives : List Operator :=
  [right, left, inc, dec, loopStart, loopEnd, input, output]

/-- The operator that a character stands for; every other character stands for none. -/
def ofChar? : Char → Option Operator
  | '+' => some inc
  | '-' => some dec
  | '>' => some right
  | '<' => some left
  | '[' => some loopStart
  | ']' => some loopEnd
  | ',' => some input
  | '.' => some output
  | _ => none

/-- The character of a primitive operator. -/
def toChar? : Operator → Option Char
  | inc => some '+'
  | dec => some '-'
  | right => some '>'
  | left => some '<'
  | loopStart => some '['
  | loopEnd => some ']'
  | input => some ','
  | output => some '.'
  | clear => none

/-- Repetitions of these operators add up to one counted instruction. -/
def IsBatchable (op : Operator) : Prop :=
  op = inc ∨ op = dec ∨ op = right ∨ op = left

instance (op : Operator) : Decidable op.IsBatchable :=
  inferInstanceAs (Decidable (_ ∨ _))

/-- The two operators that begin and end a loop. -/
def IsBracket (op : Operator) : Prop :=
  op = loopStart ∨ op = loopEnd

instance (op : Operator) : Decidable op.IsBracket :=
  inferInstanceAs (Decidable (_ ∨ _))

/-- Synthetic operators have no character. -/
def IsSynthetic (op : Operator) : Prop :=
  op = clear

instance (op : Operator) : Decidable op.IsSynthetic :=
  inferInstanceAs (Decidable (_ = _))

/-- An operator written with the eight characters; `clear` is written as the loop that counts the
cell down to zero. -/
def spelling : Operator → List Char
  | clear => ['[', '-', ']']
  | op => op.toChar?.toList

/-- `spelling` as a string. -/
def text (op : Operator) : String :=
  String.ofList op.spelling

theorem toChar?_eq_some_iff {op : Operator} {c : Char} :
    op.toChar? = some c ↔ ofChar? c = some op := by
  constructor
  · intro h
    cases op <;> simp only [toChar?, Option.some.injEq, reduceCtorEq] at h <;> subst h <;> rfl
  · intro h
    unfold ofChar? at h
    split at h <;> simp only [Option.some.injEq, reduceCtorEq] at h <;> subst h <;> rfl

theorem IsBracket.not_isBatchable {op : Operator} (h : op.IsBracket) : ¬ op.IsBatchable := by
  rcases h with rfl | rfl <;> decide

theorem mem_primitives {op : Operator} : op ∈ primitives ↔ ¬ op.IsSynthetic := by
  cases op <;> decide

end Operator

end Brainfuck
