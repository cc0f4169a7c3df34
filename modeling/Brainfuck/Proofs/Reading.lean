import Mathlib.Data.List.Induction
import Brainfuck.Dialect.Conversion

/-!
# The operators of a text

A text of any dialect reads as a row of operators: at every place the longest token that starts the
rest of the text is read as the last operator that has this token, and a character that starts no
token is passed over. The operators do not depend on what a text is converted to, and converting a
text spells its operators out in the other dialect.

## Main definitions

* `Dialect.spelling`, `Dialect.spell`: operators written out in a dialect
* `Dialect.Begins`: the operator at the start of a text
* `Dialect.Reads`: a text reads as a row of operators

## Main results

* `Conversion.mem_foldl_enter`: the last of several entries of one token is kept
* `Conversion.longest?_table_eq_some_iff`: the entry found in a table is that of the operator at
  the start of the text
* `Dialect.begins_iff`: which operator is at the start of a text can be decided
* `Dialect.exists_reads`, `Dialect.Reads.mem_primitives`: every text reads as primitive operators
* `convert_eq_of_reads`: converting a text spells its operators out
-/

namespace Brainfuck

namespace Dialect

/-- An operator written out. An operator without a token is spelled with nothing. -/
def spelling (d : Dialect) (op : Operator) : List Char :=
  ((d.token? op).getD "").toList

/-- Operators written out one after the other. -/
def spell (d : Dialect) (ops : List Operator) : List Char :=
  ops.flatMap d.spelling

/-- **The operator at the start of a text**: no longer token starts the text, and no later operator
has the same token. -/
structure Begins (d : Dialect) (text : List Char) (op : Operator) : Prop where
  ne_nil : d.spelling op ≠ []
  starts : d.spelling op <+: text
  longest : ∀ op', d.spelling op' <+: text → (d.spelling op').length ≤ (d.spelling op).length
  last :
    Operator.primitives.reverse.find? (fun op' => d.spelling op' = d.spelling op) = some op

variable {d : Dialect} {op op' : Operator} {text : List Char}

theorem mem_primitives_of_spelling_ne_nil (h : d.spelling op ≠ []) :
    op ∈ Operator.primitives := by
  cases op with
  | clear => exact absurd rfl h
  | _ => decide

/-- Some operator is the last of those with the same token. -/
theorem exists_last (d : Dialect) (hop : op ∈ Operator.primitives) :
    ∃ last, Operator.primitives.reverse.find? (fun op' => d.spelling op' = d.spelling op) =
      some last ∧ d.spelling last = d.spelling op := by
  have hsome : (Operator.primitives.reverse.find? fun op' =>
      d.spelling op' = d.spelling op).isSome :=
    List.find?_isSome.mpr ⟨op, List.mem_reverse.mpr hop, decide_eq_true rfl⟩
  obtain ⟨last, hlast⟩ := Option.isSome_iff_exists.mp hsome
  exact ⟨last, hlast, by simpa using List.find?_some hlast⟩

theorem Begins.mem_primitives (h : d.Begins text op) : op ∈ Operator.primitives :=
  List.mem_reverse.mp (List.mem_of_find?_eq_some h.last)

/-- Only the primitive operators have tokens that could be longer. -/
theorem begins_iff : d.Begins text op ↔
    d.spelling op ≠ [] ∧ d.spelling op <+: text ∧
      (∀ op' ∈ Operator.primitives,
        d.spelling op' <+: text → (d.spelling op').length ≤ (d.spelling op).length) ∧
      Operator.primitives.reverse.find? (fun op' => d.spelling op' = d.spelling op) = some op := by
  constructor
  · exact fun h => ⟨h.ne_nil, h.starts, fun op' _ => h.longest op', h.last⟩
  · rintro ⟨hne, hstarts, hlongest, hlast⟩
    refine ⟨hne, hstarts, fun op' h => ?_, hlast⟩
    by_cases hnil : d.spelling op' = []
    · simp [hnil]
    · exact hlongest op' (mem_primitives_of_spelling_ne_nil hnil) h

instance instDecidableBegins : Decidable (d.Begins text op) :=
  decidable_of_iff' _ begins_iff

instance instDecidableForallNotBegins : Decidable (∀ op, ¬ d.Begins text op) :=
  decidable_of_iff (∀ op ∈ Operator.primitives, ¬ d.Begins text op)
    ⟨fun h op hop => h op hop.mem_primitives hop, fun h op _ => h op⟩

/-- Only one operator is at the start of a text. -/
theorem Begins.unique (h : d.Begins text op) (h' : d.Begins text op') : op = op' := by
  have hlen := Nat.le_antisymm (h'.longest op h.starts) (h.longest op' h'.starts)
  have hprefix := List.prefix_of_prefix_length_le h.starts h'.starts (Nat.le_of_eq hlen)
  have hsame := hprefix.eq_of_length hlen
  have hlast := h.last
  rw [hsame, h'.last] at hlast
  exact (Option.some.inj hlast).symm

end Dialect

/-! ## The entries of a table -/

namespace Conversion

/-- How an operator is converted. -/
def entry (a b : Dialect) (op : Operator) : Entry :=
  ⟨a.spelling op, b.spelling op⟩

theorem pairs_eq (a b : Dialect) :
    pairs a b = (Operator.primitives.map (entry a b)).foldl enter [] := rfl

/-- An entry replaces the one of the same token. -/
theorem mem_enter {table : List Entry} {new e : Entry} (h : ∀ e ∈ table, e.source ≠ []) :
    e ∈ enter table new ↔
      e.source ≠ [] ∧ if new.source = e.source then new = e else e ∈ table := by
  unfold enter
  split
  next hnil =>
    -- An empty token is not entered.
    constructor
    · intro he
      have hne := h e he
      rw [hnil, if_neg hne.symm]
      exact ⟨hne, he⟩
    · rintro ⟨hne, he⟩
      rwa [hnil, if_neg hne.symm] at he
  next hnew =>
    split
    next hany =>
      -- The entry of the same token is replaced.
      obtain ⟨old, hold, hsame⟩ := List.any_eq_true.mp hany
      rw [decide_eq_true_eq] at hsame
      rw [List.mem_map]
      constructor
      · rintro ⟨old', hold', rfl⟩
        by_cases hs : old'.source = new.source
        · simp [hs, hnew]
        · simp [hs, Ne.symm hs, hold', h old' hold']
      · rintro ⟨hne, he⟩
        split at he
        next => exact ⟨old, hold, by rw [if_pos hsame, he]⟩
        next hs => exact ⟨e, he, if_neg (Ne.symm hs)⟩
    next hany =>
      rw [List.mem_append, List.mem_singleton]
      constructor
      · rintro (he | rfl)
        · have hs : new.source ≠ e.source := fun hs =>
            hany (List.any_eq_true.mpr ⟨e, he, decide_eq_true hs.symm⟩)
          exact ⟨h e he, by rwa [if_neg hs]⟩
        · exact ⟨hnew, by rw [if_pos rfl]⟩
      · rintro ⟨-, he⟩
        split at he
        next => exact Or.inr he.symm
        next => exact Or.inl he

/-- **The last of several entries of one token is kept.** -/
theorem mem_foldl_enter {news : List Entry} {e : Entry} :
    e ∈ news.foldl enter [] ↔
      e.source ≠ [] ∧ news.reverse.find? (fun new => new.source = e.source) = some e := by
  induction news using List.reverseRecOn with
  | nil => simp
  | append_singleton news new ih =>
    have hne := @source_ne_nil_of_mem_foldl_enter news [] fun _ he => absurd he List.not_mem_nil
    rw [List.foldl_append, List.foldl_cons, List.foldl_nil, mem_enter hne, List.reverse_concat]
    refine and_congr_right fun hs => ?_
    by_cases hnew : new.source = e.source
    · simp [hnew]
    · simp [hnew, ih, hs]

variable {a b : Dialect} {op : Operator} {e : Entry} {text rest : List Char}

theorem mem_table :
    e ∈ table a b ↔ e.source ≠ [] ∧
      ∃ op, Operator.primitives.reverse.find? (fun op' => a.spelling op' = e.source) = some op ∧
        entry a b op = e := by
  rw [table, List.mem_mergeSort, pairs_eq, mem_foldl_enter, ← List.map_reverse, List.find?_map,
    Option.map_eq_some_iff]
  rfl

/-- Every token has an entry. -/
theorem exists_mem_table (h : a.spelling op ≠ []) : ∃ e ∈ table a b, e.source = a.spelling op := by
  obtain ⟨last, hlast, hsame⟩ :=
    a.exists_last (Dialect.mem_primitives_of_spelling_ne_nil h)
  refine ⟨entry a b last, mem_table.mpr ⟨?_, last, ?_, rfl⟩, hsame⟩
  · rwa [entry, hsame]
  · rw [entry, hsame, hlast]

theorem entry_mem_table (h : a.Begins text op) : entry a b op ∈ table a b :=
  mem_table.mpr ⟨h.ne_nil, op, h.last, rfl⟩

/-! ## The longest token -/

theorem byteLength_append (cs ds : List Char) :
    byteLength (cs ++ ds) = byteLength cs + byteLength ds := by
  unfold byteLength
  induction cs with
  | nil => simp
  | cons c cs ih => rw [List.cons_append, List.foldr_cons, List.foldr_cons, ih, Nat.add_assoc]

theorem length_le_byteLength (cs : List Char) : cs.length ≤ byteLength cs := by
  unfold byteLength
  induction cs with
  | nil => exact Nat.le_refl 0
  | cons c cs ih =>
    have hc := c.utf8Size_pos
    rw [List.length_cons, List.foldr_cons]
    omega

/-- Of two texts that start the same text, the longer in bytes is the longer in characters. -/
theorem length_le_of_byteLength_le {cs ds : List Char} (hc : cs <+: text) (hd : ds <+: text)
    (h : byteLength cs ≤ byteLength ds) : cs.length ≤ ds.length := by
  by_contra hlt
  obtain ⟨more, rfl⟩ := List.prefix_of_prefix_length_le hd hc (Nat.le_of_not_le hlt)
  have hmore := length_le_byteLength more
  rw [byteLength_append] at h
  rw [List.length_append] at hlt
  omega

/-- No token of a table that starts the text is longer than the one found. -/
theorem byteLength_le_of_longest? {e' : Entry} (h : longest? (table a b) text = some e)
    (he' : e' ∈ table a b) (hs : e'.source <+: text) :
    byteLength e'.source ≤ byteLength e.source := by
  have hsorted : (table a b).Pairwise fun x y => byteLength y.source ≤ byteLength x.source := by
    have hp := @List.pairwise_mergeSort Entry
      (fun x y => byteLength y.source ≤ byteLength x.source)
      (by simp only [decide_eq_true_eq]; omega)
      (by simp only [Bool.or_eq_true, decide_eq_true_eq]; omega) (pairs a b)
    simpa [table] using hp
  obtain ⟨-, front, back, hsplit, hfront⟩ := List.find?_eq_some_iff_append.mp h
  rw [hsplit] at hsorted he'
  rcases List.mem_append.mp he' with hmem | hmem
  · -- An entry in front of the one found does not start the text.
    have hno := hfront e' hmem
    rw [List.isPrefixOf_iff_prefix.mpr hs] at hno
    cases hno
  · rcases List.mem_cons.mp hmem with rfl | hmem
    · exact Nat.le_refl _
    · exact (List.pairwise_cons.mp (List.pairwise_append.mp hsorted).2.1).1 e' hmem

theorem exists_begins_of_longest? (h : longest? (table a b) text = some e) :
    ∃ op, a.Begins text op ∧ e = entry a b op := by
  have hstarts : e.source <+: text :=
    List.isPrefixOf_iff_prefix.mp (by simpa using List.find?_some h)
  obtain ⟨hne, op, hlast, rfl⟩ := mem_table.mp (List.mem_of_find?_eq_some h)
  refine ⟨op, ⟨hne, hstarts, fun op' hs => ?_, hlast⟩, rfl⟩
  by_cases hnil : a.spelling op' = []
  · rw [hnil]
    exact Nat.zero_le _
  · obtain ⟨e', hmem, hsame⟩ := exists_mem_table (b := b) hnil
    rw [← hsame] at hs ⊢
    exact length_le_of_byteLength_le hs hstarts (byteLength_le_of_longest? h hmem hs)

/-- **The entry found in a table** is that of the operator at the start of the text. -/
theorem longest?_table_eq_some_iff :
    longest? (table a b) text = some e ↔ ∃ op, a.Begins text op ∧ e = entry a b op := by
  refine ⟨exists_begins_of_longest?, ?_⟩
  rintro ⟨op, hop, rfl⟩
  cases hl : longest? (table a b) text with
  | none =>
    have hno := List.find?_eq_none.mp hl _ (entry_mem_table hop)
    exact absurd (List.isPrefixOf_iff_prefix.mpr hop.starts) hno
  | some e =>
    obtain ⟨op', hop', rfl⟩ := exists_begins_of_longest? hl
    rw [hop'.unique hop]

/-! ## Cutting a text into pieces -/

theorem pieces_of_begins (h : a.Begins (a.spelling op ++ rest) op) :
    pieces (table a b) (a.spelling op ++ rest) =
      .token (entry a b op) :: pieces (table a b) rest := by
  have hl := longest?_table_eq_some_iff (b := b).mpr ⟨op, h, rfl⟩
  obtain ⟨c, cs, hc⟩ := List.exists_cons_of_ne_nil h.ne_nil
  rw [hc, List.cons_append] at hl ⊢
  rw [pieces, hl]
  simp [entry, hc]

theorem pieces_of_forall_not_begins {c : Char} {cs : List Char}
    (h : ∀ op, ¬ a.Begins (c :: cs) op) :
    pieces (table a b) (c :: cs) = .dropped c :: pieces (table a b) cs := by
  have hl : longest? (table a b) (c :: cs) = none := by
    rw [Option.eq_none_iff_forall_ne_some]
    intro e he
    obtain ⟨op, hop, -⟩ := exists_begins_of_longest? he
    exact h op hop
  rw [pieces, hl]

end Conversion

/-! ## The operators of a text -/

namespace Dialect

/-- **A text reads as a row of operators.** -/
inductive Reads (d : Dialect) : List Char → List Operator → Prop
  | nil : Reads d [] []
  | token {op : Operator} {rest : List Char} {ops : List Operator}
      (begins : d.Begins (d.spelling op ++ rest) op) (reads : Reads d rest ops) :
      Reads d (d.spelling op ++ rest) (op :: ops)
  | dropped {c : Char} {cs : List Char} {ops : List Operator}
      (none : ∀ op, ¬ d.Begins (c :: cs) op) (reads : Reads d cs ops) : Reads d (c :: cs) ops

variable {d a : Dialect} {text : List Char} {op : Operator} {ops : List Operator}

/-- The operator at the start of a text is read, and then what follows its token. -/
theorem Reads.of_begins (h : d.Begins text op)
    (hrest : d.Reads (text.drop (d.spelling op).length) ops) : d.Reads text (op :: ops) := by
  obtain ⟨rest, rfl⟩ := h.starts
  rw [List.drop_left] at hrest
  exact .token h hrest

/-- Every text reads as some operators. -/
theorem exists_reads (d : Dialect) (text : List Char) : ∃ ops, d.Reads text ops := by
  by_cases hop : ∃ op, d.Begins text op
  · obtain ⟨op, hop⟩ := hop
    have hlt : (text.drop (d.spelling op).length).length < text.length := by
      have hpos := List.length_pos_iff.mpr hop.ne_nil
      have hle := hop.starts.length_le
      rw [List.length_drop]
      omega
    obtain ⟨ops, hops⟩ := exists_reads d (text.drop (d.spelling op).length)
    exact ⟨op :: ops, .of_begins hop hops⟩
  · cases text with
    | nil => exact ⟨[], .nil⟩
    | cons c cs =>
      obtain ⟨ops, hops⟩ := exists_reads d cs
      exact ⟨ops, .dropped (fun op h => hop ⟨op, h⟩) hops⟩
termination_by text.length
decreasing_by
  · exact hlt
  · simp

theorem Reads.mem_primitives (h : d.Reads text ops) : ∀ op ∈ ops, op ∈ Operator.primitives := by
  induction h with
  | nil => exact fun _ hop => absurd hop List.not_mem_nil
  | token begins _ ih =>
    rw [List.forall_mem_cons]
    exact ⟨begins.mem_primitives, ih⟩
  | dropped _ _ ih => exact ih

theorem Reads.flatMap_target (h : a.Reads text ops) (b : Dialect) :
    (Conversion.pieces (Conversion.table a b) text).flatMap Conversion.Piece.target =
      b.spell ops := by
  induction h with
  | nil => rw [Conversion.pieces]; rfl
  | token begins _ ih => rw [Conversion.pieces_of_begins begins, List.flatMap_cons, ih]; rfl
  | dropped none _ ih =>
    rw [Conversion.pieces_of_forall_not_begins none, List.flatMap_cons, ih]
    rfl

end Dialect

/-- **Converting a text spells its operators out.** -/
theorem convert_eq_of_reads {a : Dialect} {text : String} {ops : List Operator}
    (h : a.Reads text.toList ops) (b : Dialect) :
    convert a b text = String.ofList (b.spell ops) := by
  rw [convert, Conversion.ofText, h.flatMap_target]

end Brainfuck
