import Brainfuck.Dialect
import Brainfuck.Event

/-!
# Conversion between dialects

A text is converted by longest match: at every place the longest token of the source dialect that
starts the rest of the text is replaced by the token of the same operator in the target dialect. A
character that starts no token is dropped. A token that several operators share stands for the last
of them in the order of `Operator.primitives`.

## Main definitions

* `Conversion.table`: the token pairs of two dialects, the longest first
* `Conversion.pieces`: a text cut into tokens and dropped characters
* `convert`: the converted text
* `equivalent`: a text is what another is converted to

## Main results

* `Conversion.source_ne_nil_of_mem_table`: no entry of a table replaces the empty text
* `Conversion.flatMap_source_ofText`: the pieces make up the text
-/

namespace Brainfuck

namespace Conversion

/-- A token of the source dialect and what it is replaced by. -/
structure Entry where
  source : List Char
  target : List Char
  deriving DecidableEq, Repr

/-- Enter a pair of tokens: a token that has an entry gets the new target, an empty token none. -/
def enter (table : List Entry) (e : Entry) : List Entry :=
  if e.source = [] then table
  else if table.any (·.source = e.source) then
    table.map fun old => if old.source = e.source then e else old
  else table ++ [e]

/-- The number of bytes of a text in UTF-8. -/
def byteLength (cs : List Char) : Nat :=
  cs.foldr (fun c n => c.utf8Size + n) 0

/-- The pairs of non-empty tokens, in the order of `Operator.primitives`. -/
def pairs (src dst : Dialect) : List Entry :=
  ((src.tokens.zip dst.tokens).map fun (s, t) => ⟨s.toList, t.toList⟩).foldl enter []

/-- The pairs of non-empty tokens, the longest source token first. -/
def table (src dst : Dialect) : List Entry :=
  (pairs src dst).mergeSort fun a b => byteLength b.source ≤ byteLength a.source

/-- The first entry whose source token starts the text. -/
def longest? (table : List Entry) (text : List Char) : Option Entry :=
  table.find? fun e => e.source.isPrefixOf text

/-- A part of a text that is converted as a whole. -/
inductive Piece
  | token (e : Entry)
  | dropped (c : Char)
  deriving DecidableEq, Repr

namespace Piece

/-- What a piece was in the text. -/
def source : Piece → List Char
  | token e => e.source
  | dropped c => [c]

/-- What a piece becomes. -/
def target : Piece → List Char
  | token e => e.target
  | dropped _ => []

def isDropped : Piece → Bool
  | token _ => false
  | dropped _ => true

end Piece

/-- Cut a text into the tokens of a table and dropped characters. -/
def pieces (table : List Entry) : List Char → List Piece
  | [] => []
  | c :: cs =>
    match longest? table (c :: cs) with
    -- The token has `c` as its first character, so the rest of it is taken from `cs`.
    | some e => .token e :: pieces table (cs.drop (e.source.length - 1))
    | none => .dropped c :: pieces table cs
termination_by text => text.length
decreasing_by
  · simp only [List.length_drop, List.length_cons]; omega
  · simp

/-- The pieces of a text between two dialects. -/
def ofText (src dst : Dialect) (text : String) : List Piece :=
  pieces (table src dst) text.toList

/-- The event of converting a text into `result`. -/
def event (src dst : Dialect) (text result : String) : Event :=
  .converted text.utf8ByteSize result.utf8ByteSize ((ofText src dst text).countP Piece.isDropped)

theorem source_ne_nil_of_mem_enter {table : List Entry} {new : Entry}
    (h : ∀ e ∈ table, e.source ≠ []) : ∀ e ∈ enter table new, e.source ≠ [] := by
  intro e he
  unfold enter at he
  split at he
  · exact h e he
  · next hnew =>
    split at he
    · obtain ⟨old, hold, rfl⟩ := List.mem_map.1 he
      split
      · exact hnew
      · exact h old hold
    · rcases List.mem_append.1 he with he | he
      · exact h e he
      · exact List.mem_singleton.1 he ▸ hnew

theorem source_ne_nil_of_mem_foldl_enter {news table : List Entry}
    (h : ∀ e ∈ table, e.source ≠ []) : ∀ e ∈ news.foldl enter table, e.source ≠ [] := by
  induction news generalizing table with
  | nil => exact h
  | cons new news ih => exact ih (source_ne_nil_of_mem_enter h)

theorem source_ne_nil_of_mem_table {src dst : Dialect} {e : Entry} (h : e ∈ table src dst) :
    e.source ≠ [] :=
  source_ne_nil_of_mem_foldl_enter (fun _ he => absurd he List.not_mem_nil) e
    (List.mem_mergeSort.1 h)

/-- The token that is found in front of a text, and the text behind it, are that text. -/
theorem source_append_drop {table : List Entry} {e : Entry} {c : Char} {cs : List Char}
    (h : longest? table (c :: cs) = some e) (hne : e.source ≠ []) :
    e.source ++ cs.drop (e.source.length - 1) = c :: cs := by
  have hstart : e.source.isPrefixOf (c :: cs) = true := by
    simpa using List.find?_some h
  obtain ⟨rest, hrest⟩ := List.isPrefixOf_iff_prefix.1 hstart
  obtain ⟨s, ss, hs⟩ := List.exists_cons_of_ne_nil hne
  rw [hs, List.cons_append] at hrest
  obtain ⟨rfl, rfl⟩ := List.cons.inj hrest
  simp [hs]

theorem flatMap_source_pieces {table : List Entry} (h : ∀ e ∈ table, e.source ≠ [])
    (text : List Char) : (pieces table text).flatMap Piece.source = text := by
  fun_induction pieces table text with
  | case1 => rfl
  | case2 c cs e he ih =>
    rw [List.flatMap_cons, ih]
    exact source_append_drop he (h e (List.mem_of_find?_eq_some he))
  | case3 c cs _ ih => simp [Piece.source, ih]

theorem flatMap_source_ofText (src dst : Dialect) (text : String) :
    (ofText src dst text).flatMap Piece.source = text.toList :=
  flatMap_source_pieces (fun _ => source_ne_nil_of_mem_table) text.toList

end Conversion

/-- Convert a text from one dialect into another. -/
def convert (src dst : Dialect) (text : String) : String :=
  String.ofList ((Conversion.ofText src dst text).flatMap Conversion.Piece.target)

/-- Whether `first` is exactly what `second` is converted to. -/
def equivalent (first : String) (firstDialect : Dialect) (second : String)
    (secondDialect : Dialect) : Bool :=
  first == convert secondDialect firstDialect second

end Brainfuck
