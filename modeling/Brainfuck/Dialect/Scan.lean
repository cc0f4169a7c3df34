import Brainfuck.Dialect.Conversion

/-!
# Conversion by bytes

A text is stored as bytes, and converting it goes by their numbers: the bytes of a token or of one
character are cut off, and the rest is converted in the same way. A text can only be cut where a
character ends.

## Main definitions

* `Conversion.dropBytes?`: a text without its first bytes
* `Conversion.pieceAt`: the piece at the start of a text
* `Conversion.scan?`: the pieces of a text, cut off by their numbers of bytes
-/

namespace Brainfuck.Conversion

/-- A text without its first `n` bytes; none if the cut would be inside a character or behind the
end. -/
def dropBytes? (n : Nat) (text : String) : Option String :=
  if h : String.Pos.Raw.IsValid text ⟨n⟩ then some (text.sliceFrom (text.pos ⟨n⟩ h)).copy else none

/-- The piece at the start of a text that begins with `c`. -/
def pieceAt (table : List Entry) (c : Char) (text : String) : Piece :=
  match table.find? fun e => text.startsWith (String.ofList e.source) with
  | some e => .token e
  | none => .dropped c

/-- Cut a text into pieces by their numbers of bytes. There is no result if a cut is not possible,
or if it leaves as much as there was, so that the scan would go on forever. -/
def scan? (table : List Entry) (text : String) : Option (List Piece) :=
  match text.toList.head? with
  | none => some []
  | some c =>
    match dropBytes? (byteLength (pieceAt table c text).source) text with
    | none => none
    | some rest =>
      if rest.utf8ByteSize < text.utf8ByteSize then
        (scan? table rest).map (pieceAt table c text :: ·)
      else none
termination_by text.utf8ByteSize

end Brainfuck.Conversion
