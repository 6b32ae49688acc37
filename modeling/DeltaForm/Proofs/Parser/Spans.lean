import DeltaForm.Expr.Printer
import DeltaForm.Proofs.Parser.Backtracking
import DeltaForm.Proofs.Parser.Reductions

/-!
# The spans of nodes

The span of a node is taken from a token that was kept, from the node that was read last, or from
where the parser stands, and parentheses widen the span of the node between them. In all of these a
node runs from the start of its first fragment to the end of its last one. So spans nest as trees do
(`Nested`), and the tree of a source without faults runs from its first token to the last one before
the end of the input (`parseSource_spans`).
-/

namespace DeltaForm

/-- The first span lies within the second one. -/
def Span.Within (a b : Span) : Prop := b.start ≤ a.start ∧ a.stop ≤ b.stop

theorem Span.Within.trans {a b c : Span} (h : a.Within b) (h' : b.Within c) : a.Within c :=
  ⟨Nat.le_trans h'.1 h.1, Nat.le_trans h.2 h'.2⟩

namespace Parser

variable {ls taken init : List Lexeme} {fs gs : List Fragment} {f g : Fragment} {c c' : Cursor}
  {stop : Nat} {e : Expr} {span : Span}

/-- A fragment is not empty, starts where a token starts and stops where one stops. What is directly
below it lies within it, one after another in source order, and is nested in turn. -/
inductive Nested (ls : List Lexeme) : Fragment → Prop
  | intro {f : Fragment} (lt : f.span.start < f.span.stop)
    (start : ∃ l ∈ ls, l.span.start = f.span.start) (stop : ∃ l ∈ ls, l.span.stop = f.span.stop)
    (within : ∀ g ∈ f.below, g.span.Within f.span)
    (ordered : (f.below.map Fragment.span).Pairwise Span.Before)
    (below : ∀ g ∈ f.below, Nested ls g) : Nested ls f

theorem nested_token {l : Lexeme} (hl : l ∈ ls) (hlt : l.span.start < l.span.stop) :
    Nested ls (.token l.span) :=
  .intro hlt ⟨l, hl, rfl⟩ ⟨l, hl, rfl⟩ (by simp [Fragment.below]) .nil (by simp [Fragment.below])

/-! ### One reduction -/

theorem below_withSpan : (Fragment.expr (e.withSpan span)).below = (Fragment.expr e).below := by
  cases e <;> rfl

/-- What is below a new tree are the trees among its fragments, or what was below one of them. -/
theorem Reduces.below_eq (h : Reduces c gs f c') :
    f.below = trees gs ∨ ∃ g ∈ gs, f.below = g.below := by
  cases h with
  | param h => exact .inl h.symm
  | node h => exact .inl h.symm
  | @enclosed e _ h =>
    have hmem : .expr e ∈ gs := List.mem_of_mem_filter (h ▸ List.mem_singleton_self _)
    exact .inr ⟨.expr e, hmem, below_withSpan⟩

theorem Reduces.nested (hlaid : Laid gs stop) (hgs : ∀ g ∈ gs, Nested ls g)
    (hstart : startOf gs = some f.span.start) (hstop : stopOf gs = some f.span.stop)
    (hf : Reduces c gs f c') : Nested ls f := by
  have hwithin : ∀ g ∈ gs, g.span.Within f.span := fun g hg => hlaid.within hstart hstop hg
  obtain ⟨first, rest, rfl, hfirst⟩ := exists_cons_of_startOf hstart
  obtain ⟨last, hlast, hstops⟩ := Option.map_eq_some_iff.1 hstop
  have hfirst_mem : first ∈ first :: rest := List.mem_cons_self ..
  obtain ⟨hlt, hstarts, -, -, -, -⟩ := hgs first hfirst_mem
  obtain ⟨-, -, hends, -, -, -⟩ := hgs last (List.mem_of_getLast? hlast)
  have hlt : f.span.start < f.span.stop := by
    have := (hwithin first hfirst_mem).2
    omega
  rw [hfirst] at hstarts
  rw [hstops] at hends
  rcases hf.below_eq with hbelow | ⟨g, hg, hbelow⟩
  · refine .intro hlt hstarts hends ?_ ?_ ?_
    · rw [hbelow]
      exact fun g hg => hwithin g (List.mem_of_mem_filter hg)
    · rw [hbelow]
      exact hlaid.pairwise.sublist (List.filter_sublist.map _)
    · rw [hbelow]
      exact fun g hg => hgs g (List.mem_of_mem_filter hg)
  · -- the tree between parentheses lies within them
    obtain ⟨-, -, -, hinner, hordered, hnested⟩ := hgs g hg
    rw [← hbelow] at hinner hordered hnested
    exact .intro hlt hstarts hends (fun d hd => (hinner d hd).trans (hwithin g hg)) hordered hnested

theorem Builds.nested (hls : Ordered ls) (h : Builds ls fs c) : ∀ f ∈ fs, Nested ls f := by
  induction h with
  | start => simp
  | @shift fs c c' t span h ht ih =>
    refine List.forall_mem_append.2 ⟨ih, List.forall_mem_singleton.2 ?_⟩
    obtain ⟨taken, hcovers⟩ := h.covers
    have hmem : (⟨t, span⟩ : Lexeme) ∈ ls := by simp [hcovers.tokens, ht.rest]
    exact nested_token hmem (hls.lt _ hmem ht.ne_eof)
  | reduce h hstart hstop hf ih =>
    obtain ⟨hfs, hgs⟩ := List.forall_mem_append.1 ih
    refine List.forall_mem_append.2 ⟨hfs, List.forall_mem_singleton.2 ?_⟩
    have hlaid := (h.laid hls).sublist (List.sublist_append_right ..)
    exact hf.nested hlaid hgs hstart hstop

/-! ### The whole tree -/

/-- A list is cut in one way before its first end of the input. -/
theorem eq_of_append_eof {rest : List Lexeme} (h : taken ++ rest = init ++ [⟨.eof, span⟩])
    (htaken : ∀ l ∈ taken, l.token ≠ .eof) (hinit : ∀ l ∈ init, l.token ≠ .eof)
    (hrest : ∀ l ∈ rest.head?, l.token = .eof) : taken = init := by
  induction taken generalizing init with
  | nil =>
    cases init with
    | nil => rfl
    | cons l init =>
      cases h
      exact absurd (hrest l rfl) (hinit l (List.mem_cons_self ..))
  | cons l taken ih =>
    obtain ⟨hl, htaken⟩ := List.forall_mem_cons.1 htaken
    cases init with
    | nil =>
      obtain ⟨rfl, -⟩ := List.cons.inj h
      exact absurd rfl hl
    | cons m init =>
      obtain ⟨rfl, htail⟩ := List.cons.inj h
      rw [ih htail htaken (List.forall_mem_cons.1 hinit).2]

/-- At the end of the input all other tokens have been consumed. -/
theorem Covers.taken_eq (h : Covers ls taken fs c) (heof : c.current.token = .eof)
    (hls : ls = init ++ [⟨.eof, span⟩]) (hinit : ∀ l ∈ init, l.token ≠ .eof) : taken = init := by
  refine eq_of_append_eof (h.tokens.symm.trans hls) h.ne_eof hinit fun l hl => ?_
  obtain ⟨rest, hrest⟩ := List.head?_eq_some_iff.1 hl
  rwa [Cursor.current, hrest] at heof

end Parser

/-- **Spans nest.** The tree of a source without faults runs from the start of the first token to
the end of the last one before the end of the input. Every node and parameter in it starts and stops
with a token, and has what is below it within its span, one after another in source order. -/
theorem parseSource_spans {source : String} {e : Expr} (h : parseSource source = ⟨some e, []⟩) :
    (tokenize source).lexemes.head?.map (·.span.start) = some e.span.start ∧
      (tokenize source).lexemes.dropLast.getLast?.map (·.span.stop) = some e.span.stop ∧
      Parser.Nested (tokenize source).lexemes (.expr e) := by
  have hls := Parser.ordered_tokenize source
  rw [parseSource_of_expr (congrArg Parsed.expr h)] at h
  obtain ⟨c, hexpr, heof⟩ := Parser.parse_eq_ok_iff.1 h
  have hbuilds := Parser.builds_of_expr hls hexpr
  obtain ⟨taken, hcovers⟩ := hbuilds.covers
  obtain ⟨init, span, hlexemes, hinit⟩ := Lexer.tokenize_lexemes source
  have htaken := hcovers.taken_eq heof hlexemes hinit
  refine ⟨?_, ?_, hbuilds.nested hls _ (List.mem_singleton_self _)⟩
  · rw [hcovers.tokens, List.head?_append, Option.map_or, ← hcovers.start]
    rfl
  · rw [hlexemes, List.dropLast_concat, ← htaken, ← hcovers.stop]
    rfl

/-- Parentheses around a callee in a body in braces, and a default. -/
theorem parseSource_spans_parens :
    ∃ e, parseSource " (a, b = c) => { return (f)(b).d; }" = ⟨some e, []⟩ ∧
      e.nodes.map (fun n => (n.print "δ", n.span)) =
        [("(a, b = c) => f(b).d", ⟨1, 35⟩), ("c", ⟨9, 10⟩), ("f(b).d", ⟨24, 32⟩),
          ("f(b)", ⟨24, 30⟩), ("f", ⟨24, 27⟩), ("b", ⟨28, 29⟩), ("d", ⟨31, 32⟩)] ∧
      Parser.Nested (tokenize " (a, b = c) => { return (f)(b).d; }").lexemes (.expr e) := by
  have hcheck : (parseSource " (a, b = c) => { return (f)(b).d; }").expr.any
      (fun e => e.nodes.map (fun n => (n.print "δ", n.span)) =
        [("(a, b = c) => f(b).d", ⟨1, 35⟩), ("c", ⟨9, 10⟩), ("f(b).d", ⟨24, 32⟩),
          ("f(b)", ⟨24, 30⟩), ("f", ⟨24, 27⟩), ("b", ⟨28, 29⟩), ("d", ⟨31, 32⟩)]) = true := by
    decide +kernel
  have hfaults : (parseSource " (a, b = c) => { return (f)(b).d; }").faults = [] := by
    decide +kernel
  cases h : parseSource " (a, b = c) => { return (f)(b).d; }" with
  | mk expr faults =>
    rw [h] at hcheck hfaults
    cases hfaults
    cases expr with
    | none => cases hcheck
    | some e => exact ⟨e, rfl, of_decide_eq_true hcheck, (parseSource_spans h).2.2⟩

end DeltaForm
