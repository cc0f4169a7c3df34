import Brainfuck.Operator

/-!
# Source texts

A source text is any string. Each of the eight operator characters is an operator on its own and
every other character is a comment, so that no text is malformed at this level.

## Main definitions

* `Source.operators`: the operators of a text, in order
* `Source.comments`: the number of comment characters

## Main results

* `Source.length_operators_add_comments`: every character is an operator or a comment
-/

namespace Brainfuck.Source

/-- The operators of a text, in order. -/
def operators (text : String) : List Operator :=
  text.toList.filterMap Operator.ofChar?

/-- The number of characters of a text that are no operator. -/
def comments (text : String) : Nat :=
  text.toList.countP fun c => (Operator.ofChar? c).isNone

theorem length_operators_add_comments (text : String) :
    (operators text).length + comments text = text.toList.length := by
  unfold operators comments
  induction text.toList with
  | nil => rfl
  | cons c cs ih =>
    cases h : Operator.ofChar? c <;> simp [h] <;> omega

end Brainfuck.Source
