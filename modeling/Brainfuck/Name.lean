/-!
# Names

Settings and dialects are chosen by name, and letters of the alphabet `a` to `z` are compared
without their case. No other letters are: `É` and `é` are different.

## Main definitions

* `Name.agree`: two names are the same up to case
* `Name.dropMarks`: a name without the exclamation marks at its end
-/

namespace Brainfuck.Name

/-- Equality of names up to the case of the letters `a` to `z`. -/
def agree (first second : String) : Bool :=
  first.toList.map Char.toLower == second.toList.map Char.toLower

/-- A name without the exclamation marks at its end. -/
def dropMarks (name : String) : String :=
  String.ofList (name.toList.reverse.dropWhile (· == '!')).reverse

end Brainfuck.Name
