import Brainfuck.Word

/-!
# Arguments

The arguments of a command are positionals and options, in any order. An option starts with two
dashes. Some options take a value, from the next argument or after an equals sign, and the others
are switches. An argument that starts with a dash and goes on is never the value of the option
before it. Two dashes alone end the options. No option is given twice.

## Main definitions

* `Arguments`: positionals and options
* `Arguments.scan`: sorting out arguments
* `Arguments.size?`: a number given as text
-/

namespace Brainfuck.CommandLine

/-- The options that a command knows. -/
structure Options where
  /-- Options with a value. -/
  valued : List String
  /-- Options without. -/
  switches : List String

/-- Arguments sorted into positionals, options with their values, and switches. -/
structure Arguments where
  positionals : List String
  values : List (String × String)
  switches : List String
  deriving DecidableEq, Repr

namespace Arguments

def addPositional (arg : String) (args : Arguments) : Arguments :=
  { args with positionals := arg :: args.positionals }

/-- Add an option with its value, unless it is there already. -/
def addValue? (name value : String) (args : Arguments) : Option Arguments :=
  if (args.values.lookup name).isSome then none
  else some { args with values := (name, value) :: args.values }

/-- Add a switch, unless it is there already. -/
def addSwitch? (name : String) (args : Arguments) : Option Arguments :=
  if name ∈ args.switches then none else some { args with switches := name :: args.switches }

/-- The name of an option, and the value after the equals sign if there is one. -/
def splitOption (option : List Char) : String × Option String :=
  let name := String.ofList (option.takeWhile (· ≠ '='))
  match option.dropWhile (· ≠ '=') with
  | [] => (name, none)
  | _ :: value => (name, some (String.ofList value))

/-- An argument that starts with a dash and goes on. A dash alone is an argument like any other. -/
def isDashed (arg : String) : Bool :=
  match arg.toList with
  | '-' :: _ :: _ => true
  | _ => false

/-- Sort out arguments; none if an option is unknown, repeated, without its value or with one that
it does not take. -/
def scan (options : Options) : List String → Option Arguments
  | [] => some ⟨[], [], []⟩
  | arg :: rest =>
    match arg.toList with
    | ['-', '-'] => some ⟨rest, [], []⟩
    | '-' :: '-' :: option =>
      match splitOption option with
      | (name, some value) =>
        if name ∈ options.valued then (scan options rest).bind (addValue? name value) else none
      | (name, none) =>
        if name ∈ options.valued then
          match rest with
          | [] => none
          | value :: rest =>
            if isDashed value then none else (scan options rest).bind (addValue? name value)
        else if name ∈ options.switches then (scan options rest).bind (addSwitch? name)
        else none
    | '-' :: _ :: _ => none
    | _ => (scan options rest).map (addPositional arg)

/-- A word written in decimal digits, with a plus sign or without. -/
def size? (text : String) : Option Nat :=
  let digits := match text.toList with
    | '+' :: digits => digits
    | digits => digits
  if digits ≠ [] ∧ digits.all Char.isDigit then
    let value := digits.foldl (fun value c => 10 * value + (c.toNat - '0'.toNat)) 0
    if value < Word.limit then some value else none
  else none

end Arguments

end Brainfuck.CommandLine
