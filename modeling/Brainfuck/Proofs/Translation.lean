import Mathlib.Data.List.Nodup
import Brainfuck.Proofs.Reading

/-!
# Converting through another dialect

Operators that are spelled out in a dialect are in general not read back: tokens may be shared, or
run into one another. A dialect is faithful if its tokens are not empty, are distinct and do not
start one another. Then any row of operators is read back, so that a conversion may go through the
dialect on its way to another.

## Main definitions

* `Dialect.Faithful`: the tokens of a dialect can be told apart wherever they stand
* `Dialect.Distinct`: the token of an operator can be told apart wherever it stands

## Main results

* `Dialect.Distinct.begins`: the operator that was written is the one at the start of the text
* `Dialect.reads_spell_of_distinct`: operators that are spelled out are read back
* `Dialect.Reads.filterMap_ofChar?`: a text of characters reads as the operators of its characters
* `convert_convert`: conversions compose through a faithful dialect, and no operator is lost on
  the way to Ook or Trollscript and back
-/

namespace Brainfuck

namespace Dialect

/-- **The tokens of a dialect can be told apart wherever they stand.** -/
structure Faithful (d : Dialect) : Prop where
  ne_empty : ∀ s ∈ d.tokens, s ≠ ""
  nodup : d.tokens.Nodup
  /-- No token starts another. -/
  prefix_free : ∀ s ∈ d.tokens, ∀ t ∈ d.tokens, s.toList <+: t.toList → s = t

theorem faithful_iff {d : Dialect} :
    d.Faithful ↔ (∀ s ∈ d.tokens, s ≠ "") ∧ d.tokens.Nodup ∧
      ∀ s ∈ d.tokens, ∀ t ∈ d.tokens, s.toList <+: t.toList → s = t :=
  ⟨fun h => ⟨h.ne_empty, h.nodup, h.prefix_free⟩, fun h => ⟨h.1, h.2.1, h.2.2⟩⟩

instance (d : Dialect) : Decidable d.Faithful :=
  decidable_of_iff' _ faithful_iff

/-! ## Faithful dialects -/

variable {d : Dialect} {op op' : Operator} {text : List Char} {ops : List Operator}

theorem tokens_eq_map (d : Dialect) :
    d.tokens = Operator.primitives.map fun op => (d.token? op).getD "" := rfl

theorem token_mem_tokens (hop : op ∈ Operator.primitives) : (d.token? op).getD "" ∈ d.tokens := by
  rw [tokens_eq_map]
  exact List.mem_map_of_mem hop

/-! ## Operators that can be told apart -/

/-- **The token of an operator can be told apart wherever it stands**: it starts no other token, and
no later operator has it. -/
structure Distinct (d : Dialect) (op : Operator) : Prop where
  ne_nil : d.spelling op ≠ []
  prefix_free : ∀ op' ∈ Operator.primitives, d.spelling op <+: d.spelling op' →
    d.spelling op' = d.spelling op
  last :
    Operator.primitives.reverse.find? (fun op' => d.spelling op' = d.spelling op) = some op

/-- **The operator that was written** is the one at the start of the text, whatever follows. -/
theorem Distinct.begins (h : d.Distinct op) (rest : List Char) :
    d.Begins (d.spelling op ++ rest) op where
  ne_nil := h.ne_nil
  starts := List.prefix_append _ _
  longest := by
    intro op' hs
    by_cases hnil : d.spelling op' = []
    · rw [hnil]
      exact Nat.zero_le _
    rcases List.prefix_or_prefix_of_prefix hs (List.prefix_append _ rest) with hs | hs
    · exact hs.length_le
    · -- A longer token would have this one at its start.
      have heq := h.prefix_free op' (mem_primitives_of_spelling_ne_nil hnil) hs
      exact Nat.le_of_eq (congrArg List.length heq)
  last := h.last

/-- **Operators that are spelled out are read back** if their tokens can be told apart. -/
theorem reads_spell_of_distinct (hops : ∀ op ∈ ops, d.Distinct op) :
    d.Reads (d.spell ops) ops := by
  induction ops with
  | nil => exact .nil
  | cons op ops ih =>
    obtain ⟨hop, hops⟩ := List.forall_mem_cons.mp hops
    exact .token (hop.begins _) (ih hops)

namespace Faithful

theorem spelling_ne_nil (h : d.Faithful) (hop : op ∈ Operator.primitives) :
    d.spelling op ≠ [] :=
  mt String.toList_eq_nil_iff.mp (h.ne_empty _ (token_mem_tokens hop))

/-- An operator whose token starts that of another is the other. -/
theorem eq_of_prefix (h : d.Faithful) (hop : op ∈ Operator.primitives)
    (hop' : op' ∈ Operator.primitives) (hs : d.spelling op <+: d.spelling op') : op = op' := by
  have htoken := h.prefix_free _ (token_mem_tokens hop) _ (token_mem_tokens hop') hs
  have hnodup := h.nodup
  rw [tokens_eq_map] at hnodup
  exact List.inj_on_of_nodup_map hnodup hop hop' htoken

theorem distinct (h : d.Faithful) (hop : op ∈ Operator.primitives) : d.Distinct op where
  ne_nil := h.spelling_ne_nil hop
  prefix_free := by
    intro op' hop' hs
    rw [h.eq_of_prefix hop hop' hs]
  last := by
    obtain ⟨last, hlast, hsame⟩ := d.exists_last hop
    have hmem := List.mem_reverse.mp (List.mem_of_find?_eq_some hlast)
    rw [hlast, h.eq_of_prefix hmem hop (hsame ▸ List.prefix_refl _)]

theorem begins (h : d.Faithful) (hop : op ∈ Operator.primitives) (rest : List Char) :
    d.Begins (d.spelling op ++ rest) op :=
  (h.distinct hop).begins rest

end Faithful

/-! ## Texts of characters -/

theorem faithful_brainfuck : brainfuck.Faithful := by
  decide

theorem spelling_brainfuck (op : Operator) : brainfuck.spelling op = op.toChar?.toList := by
  cases op <;> rfl

/-- At the start of a text of characters is the operator of the first character. -/
theorem begins_brainfuck_iff {c : Char} {cs : List Char} :
    brainfuck.Begins (c :: cs) op ↔ Operator.ofChar? c = some op := by
  rw [← Operator.toChar?_eq_some_iff]
  constructor
  · intro h
    have hne := h.ne_nil
    have hs := h.starts
    rw [spelling_brainfuck] at hne hs
    cases hc : op.toChar? with
    | none => exact absurd (by rw [hc]; rfl) hne
    | some c' =>
      rw [hc, Option.toList_some, List.cons_prefix_cons] at hs
      rw [hs.1]
  · intro hc
    have hs : brainfuck.spelling op = [c] := by rw [spelling_brainfuck, hc, Option.toList_some]
    have hop : op ∈ Operator.primitives :=
      mem_primitives_of_spelling_ne_nil (hs ▸ List.cons_ne_nil c [])
    have hb := faithful_brainfuck.begins hop cs
    rwa [hs] at hb

/-- **A text of characters reads as the operators of its characters.** -/
theorem Reads.filterMap_ofChar? (h : brainfuck.Reads text ops) :
    text.filterMap Operator.ofChar? = ops := by
  induction h with
  | nil => rfl
  | @token op rest ops begins _ ih =>
    obtain ⟨c, hc⟩ : ∃ c, brainfuck.spelling op = [c] := by
      cases op with
      | clear => exact absurd rfl begins.ne_nil
      | _ => exact ⟨_, rfl⟩
    rw [hc] at begins ⊢
    rw [List.singleton_append, List.filterMap_cons_some (begins_brainfuck_iff.mp begins), ih]
  | @dropped c cs ops none _ ih =>
    have hc : Operator.ofChar? c = .none :=
      Option.eq_none_iff_forall_ne_some.mpr fun op hop => none op (begins_brainfuck_iff.mpr hop)
    rw [List.filterMap_cons_none hc, ih]

/-- The operators of the characters of a text, spelled with characters again. -/
theorem spell_filterMap_ofChar? (text : List Char) :
    brainfuck.spell (text.filterMap Operator.ofChar?) =
      text.filter fun c => (Operator.ofChar? c).isSome := by
  induction text with
  | nil => rfl
  | cons c cs ih =>
    cases hc : Operator.ofChar? c with
    | none => rw [List.filterMap_cons_none hc, ih, List.filter_cons_of_neg (by simp [hc])]
    | some op =>
      rw [List.filterMap_cons_some hc, spell, List.flatMap_cons, spelling_brainfuck,
        Operator.toChar?_eq_some_iff.mpr hc, List.filter_cons_of_pos (by simp [hc]), ← ih]
      rfl

end Dialect

/-! ## Conversions one after the other -/

/-- A text that was converted reads as the text it was converted from if the tokens of its operators
can be told apart. -/
theorem Dialect.Reads.convert_of_distinct {a b : Dialect} {text : String} {ops : List Operator}
    (h : a.Reads text.toList ops) (hb : ∀ op ∈ ops, b.Distinct op) :
    b.Reads (Brainfuck.convert a b text).toList ops := by
  rw [convert_eq_of_reads h, String.toList_ofList]
  exact reads_spell_of_distinct hb

/-- A text that was converted into a faithful dialect reads as the text it was converted from. -/
theorem Dialect.Reads.convert {a b : Dialect} {text : String} {ops : List Operator}
    (h : a.Reads text.toList ops) (hb : b.Faithful) : b.Reads (convert a b text).toList ops :=
  h.convert_of_distinct fun op hop => hb.distinct (h.mem_primitives op hop)

theorem convert_through {b : Dialect} (hb : b.Faithful) (a c : Dialect) (text : String) :
    convert b c (convert a b text) = convert a c text := by
  obtain ⟨ops, hops⟩ := a.exists_reads text.toList
  rw [convert_eq_of_reads (hops.convert hb), convert_eq_of_reads hops]

/-- **Conversions compose through a faithful dialect.** In particular exactly the operator
characters of a text are left, in order, on the way to Ook or Trollscript and back. -/
theorem convert_convert :
    (∀ b : Dialect, b.Faithful → ∀ (a c : Dialect) (text : String),
      convert b c (convert a b text) = convert a c text) ∧
    ∀ b ∈ [Dialect.ook, .trollscript], b.Faithful ∧ ∀ text,
      convert b .brainfuck (convert .brainfuck b text) =
        String.ofList (text.toList.filter fun c => (Operator.ofChar? c).isSome) := by
  refine ⟨fun b hb a c text => convert_through hb a c text, fun b hmem => ?_⟩
  have hb : b.Faithful := by
    revert b
    decide
  refine ⟨hb, fun text => ?_⟩
  obtain ⟨ops, hops⟩ := Dialect.brainfuck.exists_reads text.toList
  rw [convert_through hb, convert_eq_of_reads hops, ← hops.filterMap_ofChar?,
    Dialect.spell_filterMap_ofChar?]

/-- The way through Trollscript, from a dialect with an empty token, a shared one, and one that
starts another. -/
theorem convert_convert_overlapping :
    Dialect.trollscript.Faithful ∧
    convert { Dialect.cow with right := "", inc := "Mo" } .trollscript "MoMoo MOo" = "olollloll" ∧
    convert .trollscript .brainfuck
      (convert { Dialect.cow with right := "", inc := "Mo" } .trollscript "MoMoo MOo") = "+.-" := by
  have hb : Dialect.trollscript.Faithful := by decide
  have hreads : Dialect.Reads { Dialect.cow with right := "", inc := "Mo" } "MoMoo MOo".toList
      [.inc, .output, .dec] :=
    .of_begins (by decide) <| .of_begins (by decide) <| .dropped (by decide) <|
      .of_begins (by decide) .nil
  refine ⟨hb, ?_, (convert_convert.1 _ hb _ _ _).trans ?_⟩
  · rw [convert_eq_of_reads hreads]
    decide
  · rw [convert_eq_of_reads hreads]
    decide

end Brainfuck
