/-!
# Input streams

An input stream is the finite sequence of what happens when it is read from, one byte at a time;
after the last event every read ends the input. A read takes events until one settles it: it comes
back with a byte, and the end of the input and a failure both count as the byte zero.

The sequence is given beforehand. It stands for a stream as a run meets it, and neither what is
written meanwhile nor a flush of the output changes it.

## Main definitions

* `ReadEvent`: what can happen
* `Input.read`: reading one byte
* `Input.ofBytes`: the stream of some bytes

## Main results

* `Input.rest_read_suffix`: a read takes events from the front alone
-/

namespace Brainfuck

/-- What can happen to a read. -/
inductive ReadEvent
  /-- The read returns a byte. -/
  | byte (b : UInt8)
  /-- The read returns nothing. Later reads may return more. -/
  | endOfInput
  /-- The read fails for good. -/
  | failure (cause : String)
  /-- The read is interrupted and has to be tried again. -/
  | interrupted
  /-- The run is asked to stop while the read waits. -/
  | cancel
  deriving DecidableEq, Repr

/-- What happens to the reads from a stream, in order. -/
abbrev Input := List ReadEvent

namespace Input

/-- What a read comes back with. -/
structure Reading where
  /-- The byte, zero if there was none. -/
  byte : UInt8
  /-- Why the read failed, if it did. -/
  failure : Option String
  /-- Whether the run was asked to stop. -/
  cancelled : Bool
  /-- The events that are left. -/
  rest : Input
  deriving DecidableEq, Repr

/-- The stream of some bytes. -/
def ofBytes (bytes : List UInt8) : Input :=
  bytes.map .byte

/-- Read one byte. -/
def read : Input → Reading
  | [] => ⟨0, none, false, []⟩
  | .byte b :: rest => ⟨b, none, false, rest⟩
  | .endOfInput :: rest => ⟨0, none, false, rest⟩
  | .failure cause :: rest => ⟨0, some cause, false, rest⟩
  | .interrupted :: rest => read rest
  | .cancel :: rest => { read rest with cancelled := true }

theorem rest_read_suffix (input : Input) : (read input).rest <:+ input := by
  fun_induction read input with
  | case1 => exact List.suffix_refl _
  | case2 => exact List.suffix_cons _ _
  | case3 => exact List.suffix_cons _ _
  | case4 => exact List.suffix_cons _ _
  | case5 _ ih => exact ih.trans (List.suffix_cons _ _)
  | case6 _ _ ih => exact ih.trans (List.suffix_cons _ _)

end Input

end Brainfuck
