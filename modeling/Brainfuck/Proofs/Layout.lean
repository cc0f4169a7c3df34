import Brainfuck.Proofs.Translation

/-!
# The layout of a text

Operators can be written out with gaps before, between and behind their tokens. If no token of a
dialect starts a longer one, and no character of a gap is the first of a token, then exactly the
operators that were written are read back, whatever the gaps are and even if some are empty. A token
that several operators share is read as the last of them.

## Main definitions

* `Dialect.PrefixFree`: no token starts a longer one
* `Dialect.IsGap`: characters that may stand between tokens
* `Dialect.last`: the operator that a shared token stands for
* `Dialect.layOut`: operators written out with gaps

## Main results

* `Dialect.PrefixFree.distinct_last`: the last operator with a token can be told apart
* `Dialect.PrefixFree.reads_layOut`: the operators that were written are read back
* `convert_layOut`: the layout of a text makes no difference to what it is converted to
-/

namespace Brainfuck

namespace Dialect

/-- **No token starts a longer one**, but for the empty token. -/
def PrefixFree (d : Dialect) : Prop :=
  ∀ s ∈ d.tokens, ∀ t ∈ d.tokens, s ≠ "" → s.toList <+: t.toList → s = t

instance (d : Dialect) : Decidable d.PrefixFree :=
  inferInstanceAs (Decidable (∀ s ∈ d.tokens, ∀ t ∈ d.tokens, s ≠ "" → _ → s = t))

/-- Characters that may stand between tokens: none of them is the first of a token. -/
def IsGap (d : Dialect) (cs : List Char) : Prop :=
  ∀ c ∈ cs, ∀ s ∈ d.tokens, s.toList.head? ≠ some c

instance (d : Dialect) (cs : List Char) : Decidable (d.IsGap cs) :=
  List.decidableBAll (fun c => ∀ s ∈ d.tokens, s.toList.head? ≠ some c) cs

/-- The last of the operators that have the token of `op`. -/
def last (d : Dialect) (op : Operator) : Operator :=
  (Operator.primitives.reverse.find? fun op' => d.spelling op' = d.spelling op).getD op

/-- Operators written out, with a gap in front of them and one behind each. -/
def layOut (d : Dialect) (front : List Char) (written : List (Operator × List Char)) : List Char :=
  front ++ written.flatMap fun (op, gap) => d.spelling op ++ gap

variable {d : Dialect} {op op' : Operator} {front gap text : List Char} {ops : List Operator}
  {written : List (Operator × List Char)}

/-! ## Gaps -/

theorem IsGap.not_begins {c : Char} {cs : List Char} (h : d.IsGap (c :: gap)) (op : Operator) :
    ¬ d.Begins (c :: cs) op := by
  intro hop
  obtain ⟨c', cs', hc⟩ := List.exists_cons_of_ne_nil hop.ne_nil
  have hs := hop.starts
  rw [hc, List.cons_prefix_cons] at hs
  refine h c List.mem_cons_self _ (token_mem_tokens hop.mem_primitives) ?_
  show (d.spelling op).head? = some c
  rw [hc, List.head?_cons, hs.1]

/-- A gap reads as nothing. -/
theorem Reads.gap_append (h : d.Reads text ops) (hgap : d.IsGap gap) :
    d.Reads (gap ++ text) ops := by
  induction gap with
  | nil => exact h
  | cons c gap ih =>
    exact .dropped (fun op => hgap.not_begins op) (ih fun c hc => hgap c (List.mem_cons_of_mem _ hc))

/-! ## Tokens -/

/-- The last operator with a token has this token, and is the last of its own. -/
theorem find?_last (hne : d.spelling op ≠ []) :
    Operator.primitives.reverse.find? (fun op' => d.spelling op' = d.spelling op) =
      some (d.last op) ∧ d.spelling (d.last op) = d.spelling op := by
  obtain ⟨last, hlast, hsame⟩ := d.exists_last (mem_primitives_of_spelling_ne_nil hne)
  rw [Dialect.last, hlast]
  exact ⟨rfl, hsame⟩

namespace PrefixFree

/-- **The last operator with a token** can be told apart wherever it stands. -/
theorem distinct_last (h : d.PrefixFree) (hne : d.spelling op ≠ []) : d.Distinct (d.last op) := by
  obtain ⟨hlast, hsame⟩ := find?_last hne
  refine ⟨by rwa [hsame], fun op' hop' hs => ?_, by rw [hsame, hlast]⟩
  rw [hsame] at hs ⊢
  have hop := mem_primitives_of_spelling_ne_nil hne
  have htoken := h _ (token_mem_tokens hop) _ (token_mem_tokens hop')
    (mt String.toList_eq_nil_iff.mpr hne) hs
  rw [spelling, spelling, htoken]

/-- **The operators that were written are read back**, each as the last with its token. -/
theorem reads_layOut (h : d.PrefixFree) (hfront : d.IsGap front)
    (hwritten : ∀ x ∈ written, d.spelling x.1 ≠ [] ∧ d.IsGap x.2) :
    d.Reads (d.layOut front written) (written.map fun x => d.last x.1) := by
  -- Induction on the operators: a token is taken as a whole, and then the gap behind it is dropped.
  induction written generalizing front with
  | nil => exact Reads.nil.gap_append hfront
  | cons x written ih =>
    obtain ⟨⟨hne, hgap⟩, hwritten⟩ := List.forall_mem_cons.mp hwritten
    have hrest := ih hgap hwritten
    have hbegins := (h.distinct_last hne).begins (d.layOut x.2 written)
    have hreads := (Reads.token hbegins hrest).gap_append hfront
    rwa [(find?_last hne).2, layOut, ← List.append_assoc (d.spelling x.1)] at hreads

end PrefixFree

end Dialect

theorem DialectName.prefixFree (name : DialectName) : name.dialect.PrefixFree := by
  cases name <;> decide

/-- **The layout of a text makes no difference to what it is converted to.** Where no token starts a
longer one, as in the dialects that have a name, the operators that were written are spelled out in
the other dialect, each as the last with its token. -/
theorem convert_layOut :
    (∀ d : Dialect, d.PrefixFree → ∀ (front : List Char) (written : List (Operator × List Char)),
      d.IsGap front → (∀ x ∈ written, d.spelling x.1 ≠ [] ∧ d.IsGap x.2) → ∀ e : Dialect,
      convert d e (String.ofList (d.layOut front written)) =
        String.ofList (e.spell (written.map fun x => d.last x.1))) ∧
    ∀ name : DialectName, name.dialect.PrefixFree := by
  refine ⟨fun d hd front written hfront hwritten e => ?_, DialectName.prefixFree⟩
  have hreads := hd.reads_layOut hfront hwritten
  rw [← String.toList_ofList (l := d.layOut front written)] at hreads
  exact convert_eq_of_reads hreads e

/-- A dialect whose tokens have blanks inside; one of them is empty, and two are the same. -/
theorem convert_layOut_shared :
    Dialect.PrefixFree { Dialect.ook with right := "", input := "Ook? Ook!" } ∧
    Dialect.IsGap { Dialect.ook with right := "", input := "Ook? Ook!" } ['?', ' ', 'k'] ∧
    convert { Dialect.ook with right := "", input := "Ook? Ook!" } .brainfuck
      (String.ofList (Dialect.layOut { Dialect.ook with right := "", input := "Ook? Ook!" }
        ['?', ' ', 'k'] [(.inc, [' ']), (.input, []), (.loopStart, ['?', ' ', 'k'])])) =
      "+.[" := by
  have hd : Dialect.PrefixFree { Dialect.ook with right := "", input := "Ook? Ook!" } := by decide
  have hgap : Dialect.IsGap { Dialect.ook with right := "", input := "Ook? Ook!" }
      ['?', ' ', 'k'] := by decide
  exact ⟨hd, hgap, (convert_layOut.1 _ hd _ _ hgap (by decide) _).trans (by decide)⟩

end Brainfuck
