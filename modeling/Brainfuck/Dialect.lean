import Brainfuck.Name
import Brainfuck.Operator

/-!
# Dialects

A dialect spells each of the eight primitive operators with a token of its own. Tokens may be any
texts; they may be shared by several operators, and an empty token spells nothing.

## Main definitions

* `Dialect`: eight tokens
* `Dialect.token?`: the token of an operator
* `Dialect.text`: how a dialect is shown
* `DialectName`: the dialects that have a name
-/

namespace Brainfuck

/-- One token for each primitive operator. -/
structure Dialect where
  right : String
  left : String
  inc : String
  dec : String
  loopStart : String
  loopEnd : String
  input : String
  output : String
  deriving DecidableEq, Repr

namespace Dialect

/-- The token of a primitive operator. -/
def token? (d : Dialect) : Operator → Option String
  | .right => some d.right
  | .left => some d.left
  | .inc => some d.inc
  | .dec => some d.dec
  | .loopStart => some d.loopStart
  | .loopEnd => some d.loopEnd
  | .input => some d.input
  | .output => some d.output
  | .clear => none

/-- The tokens in the order of `Operator.primitives`. -/
def tokens (d : Dialect) : List String :=
  Operator.primitives.filterMap d.token?

/-- The dialect of eight tokens in the order of `Operator.primitives`. -/
def ofTokens? : List String → Option Dialect
  | [right, left, inc, dec, loopStart, loopEnd, input, output] =>
    some { right, left, inc, dec, loopStart, loopEnd, input, output }
  | _ => none

/-- A dialect is shown as its operators with their tokens. -/
def text (d : Dialect) : String :=
  let pairs := (Operator.primitives.zip d.tokens).map fun (op, token) =>
    op.text ++ "='" ++ token ++ "'"
  "Dialect\x7b" ++ ", ".intercalate pairs ++ "\x7d"

/-- The dialect that spells every operator with its character. -/
def brainfuck : Dialect where
  right := ">"
  left := "<"
  inc := "+"
  dec := "-"
  loopStart := "["
  loopEnd := "]"
  input := ","
  output := "."

def trollscript : Dialect where
  right := "ooo"
  left := "ool"
  inc := "olo"
  dec := "oll"
  loopStart := "loo"
  loopEnd := "lol"
  input := "llo"
  output := "lll"

def ook : Dialect where
  right := "Ook. Ook?"
  left := "Ook? Ook."
  inc := "Ook. Ook."
  dec := "Ook! Ook!"
  loopStart := "Ook! Ook."
  loopEnd := "Ook. Ook!"
  input := "Ook! Ook?"
  output := "Ook? Ook!"

/-- Input and output share a token, which stands for output when it is read. -/
def cow : Dialect where
  right := "moO"
  left := "mOo"
  inc := "MoO"
  dec := "MOo"
  loopStart := "MOO"
  loopEnd := "moo"
  input := "Moo"
  output := "Moo"

end Dialect

/-- The dialects that have a name. -/
inductive DialectName
  | brainfuck
  | trollscript
  | ook
  | cow
  deriving DecidableEq, Repr

namespace DialectName

def all : List DialectName :=
  [brainfuck, trollscript, ook, cow]

def dialect : DialectName → Dialect
  | brainfuck => .brainfuck
  | trollscript => .trollscript
  | ook => .ook
  | cow => .cow

/-- The name in full. -/
def text : DialectName → String
  | brainfuck => "Brainfuck"
  | trollscript => "Trollscript"
  | ook => "Ook!"
  | cow => "COW"

/-- The name as one word without marks. -/
def key : DialectName → String
  | brainfuck => "Brainfuck"
  | trollscript => "Trollscript"
  | ook => "Ook"
  | cow => "Cow"

/-- The dialect that is called for by its name, up to case and to exclamation marks at the end. -/
def ofText? (text : String) : Option DialectName :=
  all.find? fun name => Name.agree (Name.dropMarks name.text) (Name.dropMarks text)

theorem mem_all (name : DialectName) : name ∈ all := by
  cases name <;> decide

end DialectName

end Brainfuck
