import Brainfuck.Proofs.Lockstep
import Brainfuck.Proofs.Movement

/-!
# Machines related part by part

Two machines are related if their tapes, their inputs and their outputs are, each by a relation of
its own. Instructions act on one part at a time, so that it is enough to know of each relation that
the operations on its part respect it.

## Main definitions

* `Machine.Related`: machines related part by part
* `Tape.RespectsCells`, `Tape.RespectsPlaces`: relations of tapes that are respected by changes of
  the current cell, and by moves
* `Input.RespectsReads`: relations of inputs that are respected by reading
* `Output.Writing.Alike`, `Output.Flushing.Alike`: two writes, or two flushes, come to the same

## Main results

* `Machine.exec_of_related`: instructions come to the same on related machines
* `Run.Alike.advance_of_move`, `Run.Alike.advance_of_related`: so do rounds, if brackets find zero
  in both runs or in neither
-/

namespace Brainfuck

variable {w w' : Width}

/-! ## Relations of the parts -/

/-- Related tapes have current cells of one low byte, and stay related if both current cells are
changed by an instruction. -/
structure Tape.RespectsCells (T : Tape w → Tape w' → Prop) : Prop where
  increase {t : Tape w} {t' : Tape w'} (h : T t t') (n : Nat) : T (t.increase n) (t'.increase n)
  decrease {t : Tape w} {t' : Tape w'} (h : T t t') (n : Nat) : T (t.decrease n) (t'.decrease n)
  write {t : Tape w} {t' : Tape w'} (h : T t t') (b : UInt8) :
    T (t.write (Cell.ofByte w b)) (t'.write (Cell.ofByte w' b))
  lowByte {t : Tape w} {t' : Tape w'} (h : T t t') :
    Cell.lowByte t'.current = Cell.lowByte t.current

/-- Related tapes are of one size and have their pointers at one index, and stay related if the
pointers are placed at another one. -/
structure Tape.RespectsPlaces (T : Tape w → Tape w' → Prop) : Prop where
  capacity {t : Tape w} {t' : Tape w'} (h : T t t') : t'.capacity = t.capacity
  pointer {t : Tape w} {t' : Tape w'} (h : T t t') : t'.pointer = t.pointer
  seek {t : Tape w} {t' : Tape w'} (h : T t t') (index : Nat) : T (t.seek index) (t'.seek index)

/-- Reading from related inputs gives one byte and the same requests to stop, and leaves related
inputs. Whether a read fails may differ. -/
def Input.RespectsReads (I : Input → Input → Prop) : Prop :=
  ∀ ⦃a b⦄, I a b → (read b).byte = (read a).byte ∧ (read b).cancelled = (read a).cancelled ∧
    I (read a).rest (read b).rest

/-- Two writes come to the same: both are done, or both fail for one cause, with the same requests to
stop, and the outputs afterwards are related. -/
inductive Output.Writing.Alike (O : Output → Output → Prop) : Writing → Writing → Prop
  | done {o o' : Output} (h : O o o') (cancelled : Bool) :
      Alike O (.done o cancelled) (.done o' cancelled)
  | failed {o o' : Output} (h : O o o') (cause : String) (cancelled : Bool) :
      Alike O (.failed o cause cancelled) (.failed o' cause cancelled)

/-- Two flushes come to the same, and the outputs afterwards are related. -/
structure Output.Flushing.Alike (O : Output → Output → Prop) (x x' : Flushing) : Prop where
  output : O x.output x'.output
  failure : x'.failure = x.failure
  cancelled : x'.cancelled = x.cancelled

theorem Tape.respectsCells_eq : RespectsCells (Eq : Tape w → Tape w → Prop) where
  increase := fun h n => congrArg (increase n) h
  decrease := fun h n => congrArg (decrease n) h
  write := fun h b => congrArg (write (Cell.ofByte w b)) h
  lowByte := fun h => congrArg (Cell.lowByte ∘ current) h.symm

theorem Tape.respectsPlaces_eq : RespectsPlaces (Eq : Tape w → Tape w → Prop) where
  capacity := fun h => congrArg Tape.capacity h.symm
  pointer := fun h => congrArg Tape.pointer h.symm
  seek := fun h index => congrArg (Tape.seek index) h

theorem Input.respectsReads_eq : RespectsReads Eq := by
  rintro a _ rfl
  exact ⟨rfl, rfl, rfl⟩

/-- One output answers all writes in one way. -/
theorem Output.Writing.alike_eq (x : Writing) : Alike Eq x x := by
  cases x with
  | done o cancelled => exact .done rfl cancelled
  | failed o cause cancelled => exact .failed rfl cause cancelled

/-! ## Machines -/

namespace Machine

/-- The machine `m'` is related to `m` in its tape, its input and its output, and their flags are
the same. -/
structure Related (T : Tape w → Tape w' → Prop) (I : Input → Input → Prop)
    (O : Output → Output → Prop) (m : Machine w) (m' : Machine w') : Prop where
  tape : T m.tape m'.tape
  input : I m.input m'.input
  output : O m.output m'.output
  cancelled : m'.cancelled = m.cancelled

variable {T : Tape w → Tape w' → Prop} {I : Input → Input → Prop} {O : Output → Output → Prop}
  {m : Machine w} {m' : Machine w'} {policy policy' : BoundsPolicy} {i : Instruction}

/-- Machines whose pointers are at one index move alike. -/
theorem move_of_related (hT : Tape.RespectsPlaces T) (h : Related T I O m m')
    (policy : BoundsPolicy) (d : Direction) (n : Nat) :
    Effect.Alike (Related T I O) (m.move policy d n) (m'.move policy d n) := by
  have hcapacity := hT.capacity h.tape
  have hpointer := hT.pointer h.tape
  cases hl : policy.land? m.tape.capacity m.tape.pointer (d.offset n) with
  | some index =>
    obtain ⟨event, hm⟩ := move_of_land?_eq_some hl
    rw [← hcapacity, ← hpointer] at hl
    obtain ⟨event', hm'⟩ := move_of_land?_eq_some hl
    rw [hm, hm']
    exact .done ⟨hT.seek h.tape index, h.input, h.output, h.cancelled⟩
  | none =>
    rw [move_of_land?_eq_none hl]
    rw [← hcapacity, ← hpointer] at hl
    rw [move_of_land?_eq_none hl, hpointer]
    exact .failed _ h

theorem read_of_related (hT : Tape.RespectsCells T) (hI : Input.RespectsReads I)
    (h : Related T I O m m') : Effect.Alike (Related T I O) m.read m'.read := by
  obtain ⟨hbyte, hcancelled, hrest⟩ := hI h.input
  unfold read
  dsimp only
  rw [hbyte, hcancelled, h.cancelled]
  exact .done ⟨hT.write h.tape _, hrest, h.output, rfl⟩

theorem print_of_related (hT : Tape.RespectsCells T) (h : Related T I O m m')
    (hO : ∀ b, Output.Writing.Alike O (m.output.write b) (m'.output.write b)) :
    Effect.Alike (Related T I O) m.print m'.print := by
  unfold print
  rw [hT.lowByte h.tape]
  have hwrite := hO (Cell.lowByte m.tape.current)
  generalize m.output.write _ = x at hwrite ⊢
  generalize m'.output.write _ = x' at hwrite ⊢
  cases hwrite with
  | done ho cancelled =>
    exact .done ⟨h.tape, h.input, ho, congrArg (· || cancelled) h.cancelled⟩
  | failed ho cause cancelled =>
    exact .failed _ ⟨h.tape, h.input, ho, congrArg (· || cancelled) h.cancelled⟩

/-- **Instructions come to the same on related machines**, if moves and writes do. -/
theorem exec_of_related (hT : Tape.RespectsCells T) (hI : Input.RespectsReads I)
    (h : Related T I O m m')
    (hmove : ∀ d : Direction, i.op = d.operator → Effect.Alike (Related T I O)
      (m.move policy d i.count) (m'.move policy' d i.count))
    (hO : i.op = .output →
      ∀ b, Output.Writing.Alike O (m.output.write b) (m'.output.write b)) :
    Effect.Alike (Related T I O) (m.exec policy i) (m'.exec policy' i) := by
  cases hop : i.op with
  | right =>
    rw [exec_of_op_eq_operator (d := .right) hop, exec_of_op_eq_operator (d := .right) hop]
    exact hmove .right hop
  | left =>
    rw [exec_of_op_eq_operator (d := .left) hop, exec_of_op_eq_operator (d := .left) hop]
    exact hmove .left hop
  | loopStart =>
    rw [exec_of_isBracket (Or.inl hop), exec_of_isBracket (Or.inl hop)]
    exact .done h
  | loopEnd =>
    rw [exec_of_isBracket (Or.inr hop), exec_of_isBracket (Or.inr hop)]
    exact .done h
  | inc =>
    rw [exec, exec, hop]
    exact .done ⟨hT.increase h.tape _, h.input, h.output, h.cancelled⟩
  | dec =>
    rw [exec, exec, hop]
    exact .done ⟨hT.decrease h.tape _, h.input, h.output, h.cancelled⟩
  | clear =>
    -- A cell is cleared by the byte zero.
    rw [exec, exec, hop]
    exact .done ⟨hT.write h.tape 0, h.input, h.output, h.cancelled⟩
  | input =>
    rw [exec, exec, hop]
    exact read_of_related hT hI h
  | output =>
    rw [exec, exec, hop]
    exact print_of_related hT h (hO hop)

/-- Outputs whose flushes come to the same make a relation that the flush of a machine respects. -/
theorem respectsFlush_related (hO : ∀ ⦃o o'⦄, O o o' → Output.Flushing.Alike O o.flush o'.flush) :
    RespectsFlush (Related T I O) := by
  intro m m' h
  have hflush := hO h.output
  refine ⟨hflush.failure, h.tape, h.input, hflush.output, ?_⟩
  show (m'.cancelled || m'.output.flush.cancelled) = (m.cancelled || m.output.flush.cancelled)
  rw [h.cancelled, hflush.cancelled]

/-- If the outputs are the same, so is the flush. -/
theorem respectsFlush_eq : RespectsFlush (Related T I Eq) := by
  refine respectsFlush_related fun o o' ho => ?_
  subst ho
  exact ⟨rfl, rfl, rfl⟩

end Machine

/-! ## Runs -/

namespace Run

variable {p : Program} {rules : Rules} {T : Tape w → Tape w' → Prop} {I : Input → Input → Prop}
  {O : Output → Output → Prop} {r : Run w} {r' : Run w'}

/-- **Rounds come to the same on related machines**, if moves do, if a bracket that is executed finds
zero in both runs or in neither, and if writes come to the same. -/
theorem Alike.advance_of_move (hcells : Tape.RespectsCells T) (hI : Input.RespectsReads I)
    (h : Alike (Machine.Related T I O) r r')
    (hmove : ∀ (d : Direction) (n : Nat), Machine.Effect.Alike (Machine.Related T I O)
      (r.machine.move rules.policy d n) (r'.machine.move rules.policy d n))
    (hzero : ∀ i, p.instructions[r.pc]? = some i → i.op.IsBracket →
      rules.stops r.machine = false → r'.machine.tape.isZero = r.machine.tape.isZero)
    (hO : ∀ i, p.instructions[r.pc]? = some i → i.op = .output → rules.stops r.machine = false →
      ∀ b, Output.Writing.Alike O (r.machine.output.write b) (r'.machine.output.write b)) :
    Next.Alike (Alike (Machine.Related T I O)) (r.advance p rules) (r'.advance p rules) := by
  have hstops : rules.stops r'.machine = rules.stops r.machine := by
    unfold Rules.stops
    rw [h.machine.cancelled]
  have hjumps (i : Instruction) (hi : p.instructions[r.pc]? = some i)
      (hs : rules.stops r.machine = false) : r'.jumps i.op = r.jumps i.op := by
    by_cases hop : i.op.IsBracket
    · exact jumps_congr (hzero i hi hop hs) i.op
    · unfold jumps
      split
      next hs => exact absurd (Or.inl hs) hop
      next he => exact absurd (Or.inr he) hop
      next => rfl
  have hround : (∃ ending last, r.advance p rules = .ended ending last ∧ False) ∨
      Next.Alike (Alike (Machine.Related T I O)) (r.advance p rules) (r'.advance p rules) :=
    h.advance hstops hjumps fun i hi hs =>
      Or.inr (Machine.exec_of_related hcells hI h.machine
        (fun d _ => hmove d _) fun hop => hO i hi hop hs)
  rcases hround with ⟨_, _, _, hx⟩ | hn
  · exact hx.elim
  · exact hn

/-- Machines whose pointers are at one index move alike, so that only brackets and writes are left
to compare. -/
theorem Alike.advance_of_related (hcells : Tape.RespectsCells T) (hplaces : Tape.RespectsPlaces T)
    (hI : Input.RespectsReads I) (h : Alike (Machine.Related T I O) r r')
    (hzero : ∀ i, p.instructions[r.pc]? = some i → i.op.IsBracket →
      rules.stops r.machine = false → r'.machine.tape.isZero = r.machine.tape.isZero)
    (hO : ∀ i, p.instructions[r.pc]? = some i → i.op = .output → rules.stops r.machine = false →
      ∀ b, Output.Writing.Alike O (r.machine.output.write b) (r'.machine.output.write b)) :
    Next.Alike (Alike (Machine.Related T I O)) (r.advance p rules) (r'.advance p rules) :=
  h.advance_of_move hcells hI (fun d n => Machine.move_of_related hplaces h.machine _ d n) hzero hO

end Run

end Brainfuck
