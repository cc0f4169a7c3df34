import Brainfuck.Name

/-!
# The bounds of a tape

A pointer move that would leave the tape does not happen and is reported. What follows is up to a
bounds policy.

## Main definitions

* `Direction`: the two directions of a move
* `BoundsError`: the report of a move that would leave the tape
* `BoundsPolicy`: the four policies
-/

namespace Brainfuck

/-- Which way the pointer moves. -/
inductive Direction
  | right
  | left
  deriving DecidableEq, Repr

namespace Direction

/-- The word for a move in this direction. -/
def verb : Direction → String
  | right => "increase"
  | left => "decrease"

/-- The word for leaving the tape in this direction. -/
def excess : Direction → String
  | right => "overflow"
  | left => "underflow"

end Direction

/-- A move that would leave the tape: where it started, and in which direction. -/
structure BoundsError where
  pointer : Nat
  direction : Direction
  deriving DecidableEq, Repr

def BoundsError.message (e : BoundsError) : String :=
  s!"Memory {e.direction.excess} at pointer {e.pointer} " ++
    s!"when trying to {e.direction.verb} memory pointer"

/-- What to do about a move that would leave the tape. -/
inductive BoundsPolicy
  /-- Stop the run. -/
  | fatal
  /-- Go on from the other end of the tape. -/
  | wrap
  /-- Stay at the first or last cell. -/
  | clamp
  /-- Leave the pointer where it is. -/
  | ignore
  deriving DecidableEq, Repr

namespace BoundsPolicy

def all : List BoundsPolicy :=
  [fatal, wrap, clamp, ignore]

def name : BoundsPolicy → String
  | fatal => "fatal"
  | wrap => "wrap"
  | clamp => "clamp"
  | ignore => "ignore"

/-- The policy that is called for by name. -/
def ofName? (name : String) : Option BoundsPolicy :=
  all.find? fun policy => Name.agree policy.name name

theorem mem_all (policy : BoundsPolicy) : policy ∈ all := by
  cases policy <;> decide

end BoundsPolicy

end Brainfuck
