import Brainfuck.Dialect.Scan
import Brainfuck.Proofs.Reading

/-!
# Maximal munch

A text is cut into lexemes by maximal munch: where tokens start the rest of the text, the longest of
them is taken, and otherwise one character is dropped. This says nothing of tables or of bytes, and
leaves no choice. A conversion goes by these lexemes, and so does the scan that cuts a text by its
numbers of bytes, which never meets the inside of a character.

## Main definitions

* `Lexeme`: a token or a dropped character
* `Dialect.Munches`: maximal munch

## Main results

* `Conversion.scan?_eq_pieces`: cutting by bytes comes to the same as cutting by characters
* `Dialect.Munches.unique`, `Dialect.Reads.exists_munches`: a text has its lexemes, and no others
* `convert_munches`: a conversion goes by the lexemes of its text
-/

namespace Brainfuck

/-! ## Cutting by bytes -/

namespace Conversion

variable {table : List Entry} {c : Char} {cs ds : List Char}

theorem byteLength_eq (cs : List Char) : byteLength cs = (String.ofList cs).utf8ByteSize := by
  induction cs with
  | nil => rw [String.ofList_nil]; rfl
  | cons c cs ih =>
    have hcons : String.ofList (c :: cs) = String.singleton c ++ String.ofList cs := by
      rw [String.singleton_eq_ofList, ← String.ofList_append, List.singleton_append]
    rw [hcons, String.utf8ByteSize_append, String.utf8ByteSize_singleton, ← ih]
    rfl

/-- The bytes of a front part of a text can be cut off, since a character starts behind them. -/
theorem dropBytes?_append (cs ds : List Char) :
    dropBytes? (byteLength cs) (String.ofList (cs ++ ds)) = some (String.ofList ds) := by
  have hsplit : String.ofList (cs ++ ds) = String.ofList cs ++ String.ofList ds :=
    String.ofList_append
  have hvalid : String.Pos.Raw.IsValid (String.ofList (cs ++ ds)) ⟨byteLength cs⟩ := by
    rw [byteLength_eq]
    exact String.Pos.Raw.isValid_iff_exists_append.mpr ⟨_, _, hsplit, rfl⟩
  have hsplits : ((String.ofList (cs ++ ds)).pos _ hvalid).Splits (String.ofList cs)
      (String.ofList ds) := ⟨hsplit, by rw [String.offset_pos, byteLength_eq]; rfl⟩
  rw [dropBytes?, dif_pos hvalid, (String.Pos.splits _).eq_right hsplits]

/-- A token starts a text by its bytes exactly if it does by its characters. -/
theorem pieceAt_ofList (table : List Entry) (c : Char) (cs : List Char) :
    pieceAt table c (String.ofList cs) =
      match longest? table cs with
      | some e => .token e
      | none => .dropped c := by
  have hsame (e : Entry) :
      (String.ofList cs).startsWith (String.ofList e.source) = e.source.isPrefixOf cs := by
    rw [Bool.eq_iff_iff, String.startsWith_string_iff, String.toList_ofList, String.toList_ofList,
      List.isPrefixOf_iff_prefix]
  have hfind : table.find? (fun e => (String.ofList cs).startsWith (String.ofList e.source)) =
      longest? table cs :=
    congrArg (table.find? ·) (funext hsame)
  cases hl : longest? table cs with
  | some e => rw [pieceAt, hfind, hl]
  | none => rw [pieceAt, hfind, hl]

/-- A scan cuts off the piece at the start of a text and goes on behind it. -/
theorem scan?_of_pieceAt {piece : Piece} (hp : pieceAt table c (String.ofList (c :: cs)) = piece)
    (hs : piece.source ++ ds = c :: cs) (hne : piece.source ≠ []) :
    scan? table (String.ofList (c :: cs)) =
      (scan? table (String.ofList ds)).map (piece :: ·) := by
  have hshorter : (String.ofList ds).utf8ByteSize < (String.ofList (c :: cs)).utf8ByteSize := by
    have hpos := Nat.lt_of_lt_of_le (List.length_pos_iff.mpr hne) (length_le_byteLength _)
    rw [← hs, ← byteLength_eq, ← byteLength_eq, byteLength_append]
    omega
  have hrest : dropBytes? (byteLength piece.source) (String.ofList (c :: cs)) =
      some (String.ofList ds) := by
    rw [← hs, dropBytes?_append]
  rw [scan?, String.toList_ofList, List.head?_cons]
  simp only [hp, hrest, if_pos hshorter]

/-- **Cutting by bytes comes to the same as cutting by characters.** Each cut is where a character
ends, and the scan comes to an end. -/
theorem scan?_eq_pieces (h : ∀ e ∈ table, e.source ≠ []) (cs : List Char) :
    scan? table (String.ofList cs) = some (pieces table cs) := by
  fun_induction pieces table cs with
  | case1 => rw [scan?, String.toList_ofList, List.head?_nil]
  | case2 c cs e he ih =>
    have hne := h e (List.mem_of_find?_eq_some he)
    have hp : pieceAt table c (String.ofList (c :: cs)) = .token e := by rw [pieceAt_ofList, he]
    rw [scan?_of_pieceAt hp (source_append_drop he hne) hne, ih, Option.map_some]
  | case3 c cs he ih =>
    have hp : pieceAt table c (String.ofList (c :: cs)) = .dropped c := by rw [pieceAt_ofList, he]
    have hs : (Piece.dropped c).source ++ cs = c :: cs := rfl
    rw [scan?_of_pieceAt hp hs (List.cons_ne_nil c []), ih, Option.map_some]

end Conversion

/-! ## Lexemes -/

/-- A part of a text: the token of an operator, or a character that is dropped. -/
inductive Lexeme
  | token (op : Operator)
  | dropped (c : Char)
  deriving DecidableEq, Repr

namespace Lexeme

def operator? : Lexeme → Option Operator
  | token op => some op
  | dropped _ => none

def character? : Lexeme → Option Char
  | token _ => none
  | dropped c => some c

/-- The operators whose tokens are among the lexemes. -/
def operators (ls : List Lexeme) : List Operator :=
  ls.filterMap operator?

/-- The characters that are dropped. -/
def comments (ls : List Lexeme) : List Char :=
  ls.filterMap character?

/-- What a conversion from `a` to `b` makes of a lexeme. -/
def piece (a b : Dialect) : Lexeme → Conversion.Piece
  | token op => .token (Conversion.entry a b op)
  | dropped c => .dropped c

theorem countP_isDropped (a b : Dialect) (ls : List Lexeme) :
    (ls.map (piece a b)).countP Conversion.Piece.isDropped = (comments ls).length := by
  induction ls with
  | nil => rfl
  | cons l ls ih =>
    rw [List.map_cons, List.countP_cons, ih]
    cases l <;> rfl

end Lexeme

namespace Dialect

variable {d a : Dialect} {op : Operator} {text : List Char} {ops : List Operator}
  {ls : List Lexeme}

/-- **Maximal munch.** The token that is taken is the longest that starts the rest of the text, and
is that of the last operator which has it. A character is dropped if no token starts the text. -/
inductive Munches (d : Dialect) : List Char → List Lexeme → Prop
  | nil : Munches d [] []
  | token {op : Operator} {rest : List Char} {ls : List Lexeme}
      (begins : d.Begins (d.spelling op ++ rest) op) (munches : Munches d rest ls) :
      Munches d (d.spelling op ++ rest) (.token op :: ls)
  | dropped {c : Char} {cs : List Char} {ls : List Lexeme}
      (none : ∀ op, d.spelling op ≠ [] → ¬ d.spelling op <+: c :: cs)
      (munches : Munches d cs ls) : Munches d (c :: cs) (.dropped c :: ls)

/-- If a token starts a text, an operator is at its start. -/
theorem exists_begins (hne : d.spelling op ≠ []) (hs : d.spelling op <+: text) :
    ∃ op', d.Begins text op' := by
  cases hl : Conversion.longest? (Conversion.table d d) text with
  | some e =>
    obtain ⟨op', hop', -⟩ := Conversion.exists_begins_of_longest? hl
    exact ⟨op', hop'⟩
  | none =>
    obtain ⟨e, hmem, hsame⟩ := Conversion.exists_mem_table (b := d) hne
    have hno := List.find?_eq_none.mp hl e hmem
    rw [hsame] at hno
    exact absurd (List.isPrefixOf_iff_prefix.mpr hs) hno

/-- **A text has its lexemes.** Their tokens are those of the operators that it reads as. -/
theorem Reads.exists_munches (h : d.Reads text ops) :
    ∃ ls, d.Munches text ls ∧ Lexeme.operators ls = ops := by
  induction h with
  | nil => exact ⟨[], .nil, rfl⟩
  | token begins _ ih =>
    obtain ⟨ls, hls, rfl⟩ := ih
    exact ⟨_, .token begins hls, rfl⟩
  | dropped none _ ih =>
    obtain ⟨ls, hls, rfl⟩ := ih
    refine ⟨_, .dropped (fun op hne hs => ?_) hls, rfl⟩
    obtain ⟨op', hop'⟩ := exists_begins hne hs
    exact none op' hop'

namespace Munches

/-- **A text has no other lexemes.** -/
theorem unique (h : d.Munches text ls) {text' : List Char} {ls' : List Lexeme}
    (h' : d.Munches text' ls') (htext : text = text') : ls = ls' := by
  induction h generalizing text' ls' with
  | nil =>
    cases h' with
    | nil => rfl
    | token begins => exact absurd (List.append_eq_nil_iff.mp htext.symm).1 begins.ne_nil
    | dropped => cases htext
  | @token op rest ls begins _ ih =>
    cases h' with
    | nil => exact absurd (List.append_eq_nil_iff.mp htext).1 begins.ne_nil
    | token begins' munches' =>
      obtain rfl := begins.unique (htext ▸ begins')
      rw [ih munches' (List.append_cancel_left htext)]
    | dropped none =>
      -- The token starts the text from which a character would be dropped.
      exact absurd (htext ▸ begins.starts) (none op begins.ne_nil)
  | dropped none _ ih =>
    cases h' with
    | nil => cases htext
    | token begins' => exact absurd (htext ▸ begins'.starts) (none _ begins'.ne_nil)
    | dropped _ munches' =>
      obtain ⟨rfl, rfl⟩ := List.cons.inj htext
      rw [ih munches' rfl]

theorem pieces (h : a.Munches text ls) (b : Dialect) :
    Conversion.pieces (Conversion.table a b) text = ls.map (Lexeme.piece a b) := by
  induction h with
  | nil => rw [Conversion.pieces]; rfl
  | token begins _ ih => rw [Conversion.pieces_of_begins begins, ih]; rfl
  | dropped none _ ih =>
    have hno (op : Operator) : ¬ a.Begins _ op := fun hop => none op hop.ne_nil hop.starts
    rw [Conversion.pieces_of_forall_not_begins hno, ih]
    rfl

/-- The bytes of a text are those of its tokens and those of the characters that are dropped. -/
theorem byteLength_eq (h : d.Munches text ls) :
    Conversion.byteLength text = Conversion.byteLength (d.spell (Lexeme.operators ls)) +
      Conversion.byteLength (Lexeme.comments ls) := by
  induction h with
  | nil => rfl
  | @token op rest ls _ _ ih =>
    have hspell : d.spell (Lexeme.operators (.token op :: ls)) =
        d.spelling op ++ d.spell (Lexeme.operators ls) := rfl
    rw [hspell, Conversion.byteLength_append, Conversion.byteLength_append, ih, Nat.add_assoc]
    rfl
  | @dropped c cs ls _ _ ih =>
    have hcons (ds : List Char) :
        Conversion.byteLength (c :: ds) = c.utf8Size + Conversion.byteLength ds := rfl
    have hcomments : Lexeme.comments (.dropped c :: ls) = c :: Lexeme.comments ls := rfl
    rw [hcomments, hcons, hcons, ih, Nat.add_left_comm]
    rfl

end Munches

end Dialect

/-- **A conversion goes by the lexemes of its text.** A text has one row of lexemes. The scan that
cuts it by its numbers of bytes comes to an end without a cut inside a character, and finds the
pieces from which everything else is told. The tokens are spelled out in the other dialect, and what
is logged are the bytes of the tokens and of the dropped characters, and the number of these. -/
theorem convert_munches (src dst : Dialect) (text : String) :
    ∃ ls : List Lexeme,
      (∀ ls', src.Munches text.toList ls' ↔ ls' = ls) ∧
      Conversion.scan? (Conversion.table src dst) text = some (Conversion.ofText src dst text) ∧
      convert src dst text = String.ofList (dst.spell (Lexeme.operators ls)) ∧
      Conversion.event src dst text (convert src dst text) =
        .converted
          (Conversion.byteLength (src.spell (Lexeme.operators ls)) +
            Conversion.byteLength (Lexeme.comments ls))
          (convert src dst text).utf8ByteSize (Lexeme.comments ls).length := by
  obtain ⟨ops, hops⟩ := src.exists_reads text.toList
  obtain ⟨ls, hls, rfl⟩ := hops.exists_munches
  refine ⟨ls, fun ls' => ⟨fun h => h.unique hls rfl, fun h => h ▸ hls⟩, ?_,
    convert_eq_of_reads hops dst, ?_⟩
  · have hne : ∀ e ∈ Conversion.table src dst, e.source ≠ [] :=
      fun _ => Conversion.source_ne_nil_of_mem_table
    have hscan := Conversion.scan?_eq_pieces hne text.toList
    rwa [String.ofList_toList] at hscan
  · rw [Conversion.event, Conversion.ofText, hls.pieces, Lexeme.countP_isDropped,
      ← hls.byteLength_eq, Conversion.byteLength_eq, String.ofList_toList]

end Brainfuck
