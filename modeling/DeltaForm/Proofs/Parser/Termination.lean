import DeltaForm.Proofs.Lexer.Reading
import DeltaForm.Proofs.Parser.Progress

/-!
# Termination of the parser

The parser's recursion is bounded by a depth, and a part that comes to the bound gives up. With more
depth it gives the same answer, unless it gave up (`Extends`); and with the bound that the number of
tokens allows it never gives up. So what the parser does is what its recursion does without a bound.

`Reached tokens c` says that the parser can come to a cursor: `c` is where some part of the parser
ends, run from another such cursor. The end of the input is never consumed, so every such cursor is
at a token of the list.
-/

namespace DeltaForm

namespace Parser

variable {α β : Type}

/-- A step through `advance` consumes one token or stays at the end of the input. -/
theorem ends_advance_any {deep : Prop} {c : Cursor} : Ends deep 0 c (advance c) := by
  by_cases h : c.current.token = .eof
  · obtain ⟨rest, before, next⟩ := c
    cases rest with
    | nil => exact Passes.refl _
    | cons l rest =>
      obtain ⟨t, span⟩ := l
      have ht : t = .eof := h
      subst ht
      exact Passes.refl _
  · exact (ends_advance h).weaken

/-! ### More depth -/

/-- The second step does what the first one does, unless the first gives up. -/
def Extends (s s' : Step α) : Prop := ∀ c, s c = .error .tooDeep ∨ s' c = s c

namespace Extends

variable {s s' s'' : Step α} {next next' : α → Step β}

theorem refl (s : Step α) : Extends s s := fun _ => .inr rfl

theorem trans (h : Extends s s') (h' : Extends s' s'') : Extends s s'' := by
  intro c
  rcases h c with hdeep | heq
  · exact .inl hdeep
  · rcases h' c with hdeep | heq'
    · exact .inl (heq ▸ hdeep)
    · exact .inr (heq'.trans heq)

theorem bind (h : Extends s s') (hnext : ∀ a, Extends (next a) (next' a)) :
    Extends (s >>= next) (s' >>= next') := by
  intro c
  change Step.bind s next c = _ ∨ Step.bind s' next' c = Step.bind s next c
  unfold Step.bind
  rcases h c with hdeep | heq
  · -- nothing comes after a step that gives up
    rw [hdeep]
    exact .inl rfl
  · rw [heq]
    rcases s c with f | ⟨a, c₁⟩
    · exact .inr rfl
    · exact hnext a c₁

/-- The first step is the same on both sides. -/
theorem after (hnext : ∀ a, Extends (next a) (next' a)) : Extends (s >>= next) (s >>= next') :=
  (refl s).bind hnext

/-- Only the first step differs. -/
theorem before (h : Extends s s') : Extends (s >>= next) (s' >>= next) :=
  h.bind fun _ => refl _

end Extends

theorem extends_lookahead {arrow arrow' paren paren' : Step Expr} (harrow : Extends arrow arrow')
    (hparen : Extends paren paren') :
    Extends (lookahead arrow paren) (lookahead arrow' paren') := by
  intro c
  -- the choice depends on the tokens only
  unfold lookahead
  split
  · exact harrow c
  · exact hparen c

/-- One more level of depth extends every part of the parser. -/
structure ExtendsAt (fuel : Nat) : Prop where
  expr : ∀ {least : Nat}, Extends (expr lookahead fuel least) (expr lookahead (fuel + 1) least)
  operators : ∀ {least start : Nat} {left : Expr}, Extends
    (operators lookahead fuel least start left) (operators lookahead (fuel + 1) least start left)
  operand : Extends (operand lookahead fuel) (operand lookahead (fuel + 1))
  paren : Extends (paren lookahead fuel) (paren lookahead (fuel + 1))
  items : ∀ {closing : Token},
    Extends (items lookahead fuel closing) (items lookahead (fuel + 1) closing)
  access : ∀ {left : Expr},
    Extends (access lookahead fuel left) (access lookahead (fuel + 1) left)
  arrow : Extends (arrow lookahead fuel) (arrow lookahead (fuel + 1))
  function : Extends (function lookahead fuel) (function lookahead (fuel + 1))
  params : Extends (params lookahead fuel) (params lookahead (fuel + 1))
  moreParams : Extends (moreParams lookahead fuel) (moreParams lookahead (fuel + 1))
  block : Extends (block lookahead fuel) (block lookahead (fuel + 1))

namespace ExtendsAt

variable {fuel : Nat}

theorem zero : ExtendsAt 0 := by
  constructor <;> intros <;> exact fun c => .inl rfl

theorem expr_succ (ih : ExtendsAt fuel) {least : Nat} :
    Extends (Parser.expr lookahead (fuel + 1) least) (Parser.expr lookahead (fuel + 2) least) := by
  refine .after fun first => ?_
  exact ih.operand.bind fun left => ih.operators

theorem operators_succ (ih : ExtendsAt fuel) {least start : Nat} {left : Expr} :
    Extends (Parser.operators lookahead (fuel + 1) least start left)
      (Parser.operators lookahead (fuel + 2) least start left) := by
  have haccess : Extends
      (Parser.access lookahead fuel left >>= Parser.operators lookahead fuel least start)
      (Parser.access lookahead (fuel + 1) left >>=
        Parser.operators lookahead (fuel + 1) least start) :=
    ih.access.bind fun left => ih.operators
  intro c
  rw [Parser.operators, Parser.operators]
  split
  · split
    · exact .inr rfl
    · exact haccess c
  · split
    · exact .inr rfl
    · exact haccess c
  · split
    · exact .inr rfl
    · exact haccess c
  · split
    · exact .inr rfl
    · refine Extends.after (fun _ => ?_) c
      refine ih.expr.bind fun consequent => ?_
      refine .after fun _ => ?_
      refine ih.expr.bind fun alternate => ?_
      exact .after fun node => ih.operators
  · split
    · exact .inr rfl
    · split
      · exact .inr rfl
      · refine Extends.after (fun _ => ?_) c
        refine ih.expr.bind fun right => ?_
        exact .after fun node => ih.operators

theorem operand_succ (ih : ExtendsAt fuel) :
    Extends (Parser.operand lookahead (fuel + 1)) (Parser.operand lookahead (fuel + 2)) := by
  intro c
  rw [Parser.operand, Parser.operand]
  split
  · refine Extends.after (fun _ => ?_) c
    exact ih.expr.before
  · split
    · exact extends_lookahead ih.arrow ih.paren c
    · refine Extends.after (fun _ => ?_) c
      exact ih.items.before
    · exact ih.function c
    · split
      · exact ih.arrow c
      · exact .inr rfl
    · exact .inr rfl

theorem paren_succ (ih : ExtendsAt fuel) :
    Extends (Parser.paren lookahead (fuel + 1)) (Parser.paren lookahead (fuel + 2)) := by
  refine .after fun opening => ?_
  exact ih.expr.before

theorem items_succ (ih : ExtendsAt fuel) {closing : Token} :
    Extends (Parser.items lookahead (fuel + 1) closing)
      (Parser.items lookahead (fuel + 2) closing) := by
  intro c
  rw [Parser.items, Parser.items]
  split
  · exact .inr rfl
  · refine ih.expr.bind (fun e => ?_) c
    refine .after fun more => ?_
    split
    · exact ih.items.before
    · exact .refl _

theorem access_succ (ih : ExtendsAt fuel) {left : Expr} :
    Extends (Parser.access lookahead (fuel + 1) left)
      (Parser.access lookahead (fuel + 2) left) := by
  intro c
  rw [Parser.access, Parser.access]
  split
  · refine Extends.after (fun _ => ?_) c
    exact ih.items.before
  · refine Extends.after (fun _ => ?_) c
    exact ih.expr.before
  · exact .inr rfl

theorem arrow_succ (ih : ExtendsAt fuel) :
    Extends (Parser.arrow lookahead (fuel + 1)) (Parser.arrow lookahead (fuel + 2)) := by
  intro c
  rw [Parser.arrow, Parser.arrow]
  refine Extends.bind ?_ (fun ps => ?_) c
  · split
    · exact ih.params
    · exact .refl _
  · refine .after fun _ => ?_
    refine .after fun next => ?_
    refine Extends.before ?_
    split
    · exact ih.block
    · exact ih.expr

theorem function_succ (ih : ExtendsAt fuel) :
    Extends (Parser.function lookahead (fuel + 1)) (Parser.function lookahead (fuel + 2)) := by
  refine .after fun start => ?_
  refine .after fun next => ?_
  refine .after fun name => ?_
  refine ih.params.bind fun ps => ?_
  exact ih.block.before

theorem params_succ (ih : ExtendsAt fuel) :
    Extends (Parser.params lookahead (fuel + 1)) (Parser.params lookahead (fuel + 2)) :=
  .after fun _ => ih.moreParams

theorem moreParams_succ (ih : ExtendsAt fuel) :
    Extends (Parser.moreParams lookahead (fuel + 1)) (Parser.moreParams lookahead (fuel + 2)) := by
  intro c
  rw [Parser.moreParams, Parser.moreParams]
  split
  · exact .inr rfl
  · refine Extends.after (fun name => ?_) c
    refine .bind ?_ fun default => ?_
    · refine .after fun assigned => ?_
      split
      · exact ih.expr.before
      · exact .refl _
    · refine .after fun stop => ?_
      refine .after fun more => ?_
      split
      · exact ih.moreParams.before
      · exact .refl _

theorem block_succ (ih : ExtendsAt fuel) :
    Extends (Parser.block lookahead (fuel + 1)) (Parser.block lookahead (fuel + 2)) := by
  refine .after fun opening => ?_
  refine .after fun next => ?_
  split
  · exact .refl _
  · refine .after fun word => ?_
    refine .after fun next => ?_
    refine Extends.before ?_
    split
    · exact .refl _
    · exact .refl _
    · exact ih.expr
  · exact .refl _

end ExtendsAt

theorem extendsAt (fuel : Nat) : ExtendsAt fuel := by
  induction fuel with
  | zero => exact .zero
  | succ fuel ih =>
    exact ⟨ih.expr_succ, ih.operators_succ, ih.operand_succ, ih.paren_succ, ih.items_succ,
      ih.access_succ, ih.arrow_succ, ih.function_succ, ih.params_succ, ih.moreParams_succ,
      ih.block_succ⟩

/-! ### Runs of the parser -/

/-- The parts of the parser that move its cursor, past tokens through `advance` and to the next
number of a node through `finish`. -/
inductive Part
  | advance
  | finish (span : Span) (node : Site → Expr)
  | expr (least : Nat)
  | operators (least start : Nat) (left : Expr)
  | operand
  | paren
  | items (closing : Mark)
  | access (left : Expr)
  | arrow
  | function
  | params
  | moreParams
  | block

namespace Part

/-- What a part reads. -/
def Result : Part → Type
  | advance => Span
  | items _ => List Expr
  | params | moreParams => List Param
  | _ => Expr

/-- The step of a part, with a depth. -/
def run (fuel : Nat) : (p : Part) → Step p.Result
  | advance => Parser.advance
  | finish span node => Parser.finish span node
  | expr least => Parser.expr lookahead fuel least
  | operators least start left => Parser.operators lookahead fuel least start left
  | operand => Parser.operand lookahead fuel
  | paren => Parser.paren lookahead fuel
  | items closing => Parser.items lookahead fuel (.mark closing)
  | access left => Parser.access lookahead fuel left
  | arrow => Parser.arrow lookahead fuel
  | function => Parser.function lookahead fuel
  | params => Parser.params lookahead fuel
  | moreParams => Parser.moreParams lookahead fuel
  | block => Parser.block lookahead fuel

variable {fuel fuel' : Nat} {c : Cursor}

theorem extends_succ (p : Part) : Extends (p.run fuel) (p.run (fuel + 1)) := by
  have h := extendsAt fuel
  cases p with
  | advance => exact .refl _
  | finish span node => exact .refl _
  | expr least => exact h.expr
  | operators least start left => exact h.operators
  | operand => exact h.operand
  | paren => exact h.paren
  | items closing => exact h.items
  | access left => exact h.access
  | arrow => exact h.arrow
  | function => exact h.function
  | params => exact h.params
  | moreParams => exact h.moreParams
  | block => exact h.block

theorem extends_of_le (p : Part) (h : fuel ≤ fuel') : Extends (p.run fuel) (p.run fuel') := by
  induction h with
  | refl => exact .refl _
  | step _ ih => exact ih.trans p.extends_succ

theorem ends (p : Part) (fuel : Nat) (c : Cursor) :
    Ends (fuel < 8 * c.rest.length + 5) 0 c (p.run fuel c) := by
  have h := progressTo selects_lookahead fuel
  cases p with
  | advance => exact ends_advance_any
  | finish span node => exact ends_finish
  | expr least => exact (h.expr.imp (by omega)).weaken
  | operators least start left => exact h.operators.imp (by omega)
  | operand => exact (h.operand.imp (by omega)).weaken
  | paren => exact (h.paren.imp (by omega)).weaken
  | items closing => exact (h.items (by simp)).weaken
  | access left => exact (h.access.imp (by omega)).weaken
  | arrow => exact (h.arrow.imp (by omega)).weaken
  | function => exact (h.function.imp (by omega)).weaken
  | params => exact (h.params.imp (by omega)).weaken
  | moreParams => exact (h.moreParams.imp (by omega)).weaken
  | block => exact (h.block.imp (by omega)).weaken

/-- A part does not give up with a depth that the number of tokens allows. -/
theorem run_ne_tooDeep (p : Part) (h : 8 * c.rest.length + 5 ≤ fuel) :
    p.run fuel c ≠ .error .tooDeep := by
  intro hdeep
  have hends := p.ends fuel c
  rw [hdeep] at hends
  exact absurd h (Nat.not_le.2 hends)

/-- Nor does it give another answer with a greater one. -/
theorem run_eq_of_le (p : Part) (h : 8 * c.rest.length + 5 ≤ fuel) (hle : fuel ≤ fuel') :
    p.run fuel' c = p.run fuel c :=
  (p.extends_of_le hle c).resolve_left (p.run_ne_tooDeep h)

end Part

/-- A cursor that the parser comes to on a list of tokens: its start, or the end of a part of the
parser that is run, with any depth, from such a cursor. -/
inductive Reached (tokens : List Lexeme) : Cursor → Prop
  | start : Reached tokens ⟨tokens, 0, 0⟩
  | run {c c' : Cursor} {p : Part} {r : p.Result} {fuel : Nat} (h : Reached tokens c)
    (hrun : p.run fuel c = .ok (r, c')) : Reached tokens c'

/-- The index of the next token. -/
def Cursor.position (tokens : List Lexeme) (c : Cursor) : Nat := tokens.length - c.rest.length

/-- The end of the input is the last token, whose index is `n`, and no other. -/
structure EofAt (tokens : List Lexeme) (n : Nat) : Prop where
  length : tokens.length = n + 1
  eof_iff : ∀ i l, tokens[i]? = some l → (l.token = .eof ↔ i = n)

theorem eofAt_concat {init : List Lexeme} {span : Span} (h : ∀ l ∈ init, l.token ≠ .eof) :
    EofAt (init ++ [⟨.eof, span⟩]) init.length := by
  refine ⟨by simp, fun i l hl => ?_⟩
  rcases Nat.lt_trichotomy i init.length with hlt | rfl | hgt
  · rw [List.getElem?_append_left hlt] at hl
    exact iff_of_false (h l (List.mem_of_getElem? hl)) (Nat.ne_of_lt hlt)
  · rw [List.getElem?_concat_length] at hl
    cases hl
    exact iff_of_true rfl rfl
  · have hnone : (init ++ [⟨.eof, span⟩])[i]? = none :=
      List.getElem?_eq_none (by rw [List.length_append]; exact hgt)
    cases hnone.symm.trans hl

/-- The tokens of every source are of this form. -/
theorem exists_eofAt_tokenize (source : String) : ∃ n, EofAt (tokenize source).lexemes n := by
  obtain ⟨init, span, heq, hne⟩ := Lexer.tokenize_lexemes source
  exact ⟨init.length, heq ▸ eofAt_concat hne⟩

/-- The next token is the one with index `i`. -/
def Cursor.IsAt (tokens : List Lexeme) (i : Nat) (c : Cursor) : Prop :=
  i < tokens.length ∧ c.rest = tokens.drop i

section Position

variable {tokens : List Lexeme} {n i k : Nat} {c c' : Cursor}

theorem Cursor.IsAt.position_eq (h : c.IsAt tokens i) : c.position tokens = i := by
  obtain ⟨hi, hrest⟩ := h
  rw [Cursor.position, hrest, List.length_drop]
  omega

theorem Cursor.IsAt.current (h : c.IsAt tokens i) : tokens[i]? = some c.current := by
  obtain ⟨hi, hrest⟩ := h
  rw [Cursor.current, hrest, List.drop_eq_getElem_cons hi, List.headD_cons,
    List.getElem?_eq_getElem hi]

/-- What is consumed before the end of the input leaves the end of the input. -/
theorem Cursor.IsAt.passes (h : c.IsAt tokens i) (hn : EofAt tokens n) (hpass : Passes k c c') :
    ∃ j, i + k ≤ j ∧ c'.IsAt tokens j := by
  obtain ⟨hi, hrest⟩ := h
  obtain ⟨taken, htaken, hne, hk⟩ := hpass
  refine ⟨i + taken.length, by omega, ?_, ?_⟩
  · by_contra hlt
    -- the token at `n` would be among those consumed
    have hlength := hn.length
    have hlt : n - i < taken.length := by omega
    have hend : tokens[n]? = some taken[n - i] := calc
      tokens[n]? = (tokens.drop i)[n - i]? := by
        rw [List.getElem?_drop, Nat.add_sub_cancel' (by omega)]
      _ = (taken ++ c'.rest)[n - i]? := by rw [← hrest, htaken]
      _ = taken[n - i]? := List.getElem?_append_left hlt
      _ = some taken[n - i] := List.getElem?_eq_getElem hlt
    exact hne _ (List.getElem_mem hlt) ((hn.eof_iff n _ hend).2 rfl)
  · rw [← List.drop_drop, ← hrest, htaken, List.drop_left]

theorem Reached.isAt (h : Reached tokens c) (hn : EofAt tokens n) : ∃ i, c.IsAt tokens i := by
  induction h with
  | start => exact ⟨0, by rw [hn.length]; omega, rfl⟩
  | @run c c' p r fuel _ hrun ih =>
    -- what the part consumes leaves the end of the input
    obtain ⟨i, hi⟩ := ih
    have hends := p.ends fuel c
    rw [hrun] at hends
    obtain ⟨j, -, hj⟩ := hi.passes hn hends
    exact ⟨j, hj⟩

end Position

theorem parse_answers (tokens : List Lexeme) :
    (parseTokens tokens).expr.isSome = true ∨ (parseTokens tokens).faults ≠ [] := by
  have hbound : 8 * tokens.length + 5 ≤ depthBound tokens := by
    rw [depthBound]
    omega
  have hdeep : (Part.expr 0).run (depthBound tokens) ⟨tokens, 0, 0⟩ ≠ .error .tooDeep :=
    Part.run_ne_tooDeep _ hbound
  unfold parseTokens parse
  split
  · split
    · exact .inl rfl
    · exact .inl rfl
  · exact .inr (by simp)
  · rename_i h
    exact absurd h hdeep

/-- The parser ends on every list of tokens, well formed or not. It gives a tree or a fault; and
wherever it comes, it is at a token of the list, and every part of it ends there: with the depth
bound of the list and every greater one, it gives one and the same answer. An expression takes at
least one token, and a fault is of a token from there on. -/
theorem parse_terminates {tokens : List Lexeme} {n : Nat} (hn : EofAt tokens n) :
    ((parseTokens tokens).expr.isSome = true ∨ (parseTokens tokens).faults ≠ []) ∧
    ∀ c, Reached tokens c →
      (c.position tokens ≤ n ∧ c.rest = tokens.drop (c.position tokens)) ∧
      (∀ p : Part, ∃ r, r ≠ .error .tooDeep ∧
        ∀ fuel, depthBound tokens ≤ fuel → p.run fuel c = r) ∧
      (∀ fuel least e c', expr lookahead fuel least c = .ok (e, c') →
        c.position tokens < c'.position tokens) ∧
      ∀ (p : Part) fuel f, p.run fuel c = .error (.fault f) →
        ∃ i, c.position tokens ≤ i ∧ tokens[i]? = some f.found := by
  refine ⟨parse_answers tokens, fun c hc => ?_⟩
  obtain ⟨i, hi⟩ := hc.isAt hn
  rw [hi.position_eq]
  have hlength := hn.length
  refine ⟨⟨by have := hi.1; omega, hi.2⟩, fun p => ?_, fun fuel least e c' hexpr => ?_,
    fun p fuel f hfault => ?_⟩
  · have hbound : 8 * c.rest.length + 5 ≤ depthBound tokens := by
      rw [depthBound, hi.2, List.length_drop]
      omega
    exact ⟨_, p.run_ne_tooDeep hbound, fun fuel hfuel => p.run_eq_of_le hbound hfuel⟩
  · have hends : Ends _ 1 c (expr lookahead fuel least c) :=
      (progressTo selects_lookahead fuel).expr
    rw [hexpr] at hends
    obtain ⟨j, hij, hj⟩ := hi.passes hn hends
    rw [hj.position_eq]
    exact hij
  · have hends := p.ends fuel c
    rw [hfault] at hends
    obtain ⟨c', hpass, hfound⟩ := hends
    obtain ⟨j, hij, hj⟩ := hi.passes hn hpass
    exact ⟨j, hij, hfound ▸ hj.current⟩

/-- The tokens of a call without its end. -/
def unclosedCall : List Lexeme := (tokenize "f(a,").lexemes

/-- On a call without its end the parser does not go past the end of the input. -/
theorem parse_terminates_unclosedCall :
    ∃ n, EofAt unclosedCall n ∧
      ((parseTokens unclosedCall).expr.isSome = true ∨ (parseTokens unclosedCall).faults ≠ []) ∧
      ∀ c, Reached unclosedCall c → c.position unclosedCall ≤ n := by
  obtain ⟨n, hn⟩ := exists_eofAt_tokenize "f(a,"
  have h := parse_terminates hn
  exact ⟨n, hn, h.1, fun c hc => (h.2 c hc).1.1⟩

end Parser

end DeltaForm
