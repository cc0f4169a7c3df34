import Brainfuck.Runner

/-!
# Sessions

A session holds runners. A clone has the configuration of its model and shares its flag, so that
the flags belong to families: a runner made anew starts a family, and its clones join it. Runs take
the flag of their family as they find it and leave it raised if a stream raised it. A text that is
run by itself has nothing to do with the runners of the session.

## Main definitions

* `Session`: the runners and the flags of their families
* `Session.Command`: what can be done in a session
* `Session.perform`: one command

## Main results

* `Session.isRaised_new`: a runner made anew changes no flag
-/

namespace Brainfuck

/-- A runner of a session. -/
structure Session.Member where
  config : Config
  /-- The index of its family. -/
  family : Nat
  deriving DecidableEq, Repr

/-- Runners in the order in which they were made, and the flags of their families. -/
structure Session where
  members : List Session.Member
  flags : List Bool
  deriving DecidableEq, Repr

namespace Session

/-- What can be done in a session. Runners are called by their number. -/
inductive Command
  /-- Make a runner that starts a family. -/
  | new (config : Config)
  /-- Make a runner like another one, in its family. -/
  | clone (number : Nat)
  /-- Raise the flag of a runner. -/
  | cancel (number : Nat)
  /-- Lower the flag of a runner. -/
  | reset (number : Nat)
  | run (number : Nat) (request : Request)
  /-- Run a text by itself, with a configuration of its own. -/
  | runOnce (config : Config) (source : String) (input : Input) (output : Output)

/-- What comes of a command. -/
inductive Reply
  | done
  | transcript (t : Transcript)
  /-- There is no runner of that number. -/
  | noRunner

def empty : Session :=
  ⟨[], []⟩

/-- Whether the flag of a family is raised. -/
def isRaised (s : Session) (family : Nat) : Bool :=
  s.flags.getD family false

/-- For every runner whether its flag is raised. -/
def raised (s : Session) : List Bool :=
  s.members.map fun m => s.isRaised m.family

/-- Set the flag of a family. -/
def setFlag (family : Nat) (raised : Bool) (s : Session) : Session :=
  { s with flags := s.flags.set family raised }

/-- Make a runner that starts a family. -/
def new (config : Config) (s : Session) : Session :=
  { members := s.members ++ [⟨config, s.flags.length⟩]
    flags := s.flags ++ [false] }

/-- The runner of a member, with the flag of its family. -/
def runner (s : Session) (m : Member) : Runner :=
  { config := m.config, cancelled := s.isRaised m.family }

/-- Act on the runner of some number. -/
def withMember (s : Session) (number : Nat) (act : Member → Option (Session × Reply)) :
    Option (Session × Reply) :=
  match s.members[number]? with
  | some m => act m
  | none => some (s, .noRunner)

/-- Perform one command, if it ends within so many rounds. -/
def perform (rounds : Nat) (command : Command) (s : Session) : Option (Session × Reply) :=
  match command with
  | .new config => some (s.new config, .done)
  | .clone number =>
    s.withMember number fun m => some ({ s with members := s.members ++ [m] }, .done)
  | .cancel number => s.withMember number fun m => some (s.setFlag m.family true, .done)
  | .reset number => s.withMember number fun m => some (s.setFlag m.family false, .done)
  | .run number request =>
    s.withMember number fun m =>
      ((s.runner m).serve rounds request).map fun t =>
        (s.setFlag m.family t.cancelled, .transcript t)
  | .runOnce config source input output =>
    (Runner.runOnce config rounds source input output).map fun t => (s, .transcript t)

theorem isRaised_new (config : Config) (s : Session) (family : Nat) :
    (s.new config).isRaised family = s.isRaised family := by
  simp only [isRaised, new, List.getD_eq_getElem?_getD]
  rcases Nat.lt_trichotomy family s.flags.length with h | h | h
  · rw [List.getElem?_append_left h]
  · subst h
    simp
  · rw [List.getElem?_append_right (Nat.le_of_lt h), List.getElem?_eq_none (Nat.le_of_lt h)]
    rw [List.getElem?_eq_none]
    simp
    omega

end Session

end Brainfuck
