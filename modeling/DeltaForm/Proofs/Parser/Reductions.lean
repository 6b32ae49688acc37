import DeltaForm.Proofs.Lexer.Tiling
import DeltaForm.Proofs.Parser.Paths
import DeltaForm.Proofs.Tree
import DeltaForm.Program

/-!
# Shifts and reductions

What the parser does when it succeeds is a sequence of shifts and reductions. It keeps a list of
fragments of the source, in the order in which they stand there: tokens that it has consumed and
trees that it has finished. A shift consumes a token and puts it at the end of the list. A reduction
puts one tree in the place of the last fragments: a node or a parameter over the trees among them,
or the tree that stands between two parentheses. In all of these the new tree runs from the start of
the first of the fragments to the end of the last one.

`Builds ls fs c` says that shifts and reductions lead from the tokens `ls` to the fragments `fs` and
to a cursor. Each part of the parser goes on from one such state to another (`addsAt`), so what one
shift and one reduction preserve holds of everything that the parser accepts.
-/

namespace DeltaForm

namespace Parser

/-! ### Fragments -/

/-- A fragment of a source: a token, or a finished tree. -/
inductive Fragment
  | token (span : Span)
  | expr (e : Expr)
  | param (p : Param)

namespace Fragment

/-- The place of a fragment. -/
def span : Fragment → Span
  | token s => s
  | expr e => e.span
  | param p => p.span

/-- Whether a fragment is a tree. -/
def isTree : Fragment → Bool
  | token _ => false
  | _ => true

/-- The trees directly below a fragment, in source order. A function has its parameters below it,
and a parameter has its default. -/
def below : Fragment → List Fragment
  | token _ => []
  | expr (.function _ _ ps body _) => ps.map param ++ [expr body]
  | expr e => e.parts.map expr
  | param p => p.default?.toList.map expr

end Fragment

/-- The trees among fragments. -/
def trees (fs : List Fragment) : List Fragment := fs.filter Fragment.isTree

/-- Where the first fragment starts. -/
def startOf (fs : List Fragment) : Option Nat := fs.head?.map (·.span.start)

/-- Where the last fragment stops. -/
def stopOf (fs : List Fragment) : Option Nat := fs.getLast?.map (·.span.stop)

variable {fs gs hs : List Fragment} {f g : Fragment} {a b : Nat}

@[simp]
theorem trees_append : trees (fs ++ gs) = trees fs ++ trees gs := List.filter_append ..

@[simp]
theorem startOf_append : startOf (fs ++ gs) = (startOf fs).or (startOf gs) := by
  rw [startOf, List.head?_append, Option.map_or]
  rfl

@[simp]
theorem stopOf_append : stopOf (fs ++ gs) = (stopOf gs).or (stopOf fs) := by
  rw [stopOf, List.getLast?_append, Option.map_or]
  rfl

@[simp]
theorem startOf_singleton : startOf [f] = some f.span.start := rfl

@[simp]
theorem stopOf_singleton : stopOf [f] = some f.span.stop := rfl

theorem exists_cons_of_startOf (h : startOf fs = some a) :
    ∃ first rest, fs = first :: rest ∧ first.span.start = a := by
  obtain ⟨first, hfirst, ha⟩ := Option.map_eq_some_iff.1 h
  obtain ⟨rest, rfl⟩ := List.head?_eq_some_iff.1 hfirst
  exact ⟨first, rest, rfl, ha⟩

theorem exists_concat_of_stopOf (h : stopOf fs = some b) :
    ∃ init last, fs = init ++ [last] ∧ last.span.stop = b := by
  obtain ⟨last, hlast, hb⟩ := Option.map_eq_some_iff.1 h
  obtain ⟨init, rfl⟩ := List.getLast?_eq_some_iff.1 hlast
  exact ⟨init, last, rfl, hb⟩

/-! ### The machine -/

variable {ls : List Lexeme} {c c₀ c₁ c' : Cursor} {t : Token} {span : Span} {e left : Expr}

/-- The ways to make one tree of fragments. A node takes the next number. -/
inductive Reduces (c : Cursor) (gs : List Fragment) : Fragment → Cursor → Prop
  | param {p : Param} (h : trees gs = (Fragment.param p).below) : Reduces c gs (.param p) c
  | node {e : Expr} (h : trees gs = (Fragment.expr e).below) (hid : e.site.id = some c.next) :
    Reduces c gs (.expr e) c.counted
  /-- A tree in parentheses. -/
  | enclosed {e : Expr} {s : Span} (h : trees gs = [.expr e]) :
    Reduces c gs (.expr (e.withSpan s)) c

/-- Shifts and reductions lead from the tokens `ls` to fragments and a cursor. -/
inductive Builds (ls : List Lexeme) : List Fragment → Cursor → Prop
  | start : Builds ls [] ⟨ls, 0, 0⟩
  | shift {fs : List Fragment} {c c' : Cursor} {t : Token} {span : Span} (h : Builds ls fs c)
    (ht : Takes t span c c') : Builds ls (fs ++ [.token span]) c'
  | reduce {fs gs : List Fragment} {f : Fragment} {c c' : Cursor} (h : Builds ls (fs ++ gs) c)
    (hstart : startOf gs = some f.span.start) (hstop : stopOf gs = some f.span.stop)
    (hf : Reduces c gs f c') : Builds ls (fs ++ [f]) c'

theorem Reduces.rest_eq (h : Reduces c gs f c') : c'.rest = c.rest := by
  cases h <;> rfl

theorem Reduces.before_eq (h : Reduces c gs f c') : c'.before = c.before := by
  cases h <;> rfl

/-! ### Order -/

/-- Tokens stand one after another, and only the end of the input is empty. -/
structure Ordered (ls : List Lexeme) : Prop where
  pairwise : (ls.map Lexeme.span).Pairwise Span.Before
  lt : ∀ l ∈ ls, l.token ≠ .eof → l.span.start < l.span.stop

theorem ordered_tokenize (source : String) : Ordered (tokenize source).lexemes := by
  refine ⟨Lexer.pairwise_spans_tokenize source, fun l hl hne => ?_⟩
  rw [Lexer.lexemes_tokenize, List.mem_append, List.mem_singleton] at hl
  rcases hl with hl | rfl
  · exact (Lexer.bounds_of_mem_lexemes hl).1
  · exact absurd rfl hne

/-- What has been consumed: the fragments cover the tokens up to the cursor. -/
structure Covers (ls taken : List Lexeme) (fs : List Fragment) (c : Cursor) : Prop where
  tokens : ls = taken ++ c.rest
  ne_eof : ∀ l ∈ taken, l.token ≠ .eof
  start : startOf fs = taken.head?.map (·.span.start)
  stop : stopOf fs = taken.getLast?.map (·.span.stop)
  before : c.before = (stopOf fs).getD 0

theorem Builds.covers (h : Builds ls fs c) : ∃ taken, Covers ls taken fs c := by
  induction h with
  | start => exact ⟨[], rfl, by simp, rfl, rfl, rfl⟩
  | @shift fs c c' t span _ ht ih =>
    obtain ⟨taken, hcovers⟩ := ih
    refine ⟨taken ++ [⟨t, span⟩], ?_, ?_, ?_, ?_, ?_⟩
    · rw [hcovers.tokens, ht.rest, List.append_assoc]
      rfl
    · exact List.forall_mem_append.2 ⟨hcovers.ne_eof, List.forall_mem_singleton.2 ht.ne_eof⟩
    · rw [startOf_append, hcovers.start, List.head?_append, Option.map_or]
      rfl
    · rw [stopOf_append, List.getLast?_concat]
      rfl
    · rw [stopOf_append]
      exact ht.before
  | @reduce fs gs f c c' _ hstart hstop hf ih =>
    -- the new tree starts and stops where the fragments did
    obtain ⟨taken, hcovers⟩ := ih
    have hstart' : startOf (fs ++ [f]) = startOf (fs ++ gs) := by
      rw [startOf_append, startOf_append, hstart, startOf_singleton]
    have hstop' : stopOf (fs ++ [f]) = stopOf (fs ++ gs) := by
      rw [stopOf_append, stopOf_append, hstop, stopOf_singleton]
    refine ⟨taken, ?_, hcovers.ne_eof, ?_, ?_, ?_⟩
    · rw [hf.rest_eq, hcovers.tokens]
    · rw [hstart', hcovers.start]
    · rw [hstop', hcovers.stop]
    · rw [hf.before_eq, hstop', hcovers.before]

/-- Fragments stand one after another before `stop`, and none of them is empty. -/
structure Laid (fs : List Fragment) (stop : Nat) : Prop where
  pairwise : (fs.map Fragment.span).Pairwise Span.Before
  lt : ∀ f ∈ fs, f.span.start < f.span.stop
  le : ∀ f ∈ fs, f.span.stop ≤ stop

namespace Laid

variable {stop : Nat}

theorem sublist (h : Laid gs stop) (hsub : fs.Sublist gs) : Laid fs stop :=
  ⟨h.pairwise.sublist (hsub.map _), fun f hf => h.lt f (hsub.mem hf),
    fun f hf => h.le f (hsub.mem hf)⟩

/-- The fragments lie between the start of the first and the end of the last one. -/
theorem within (h : Laid gs stop) (hstart : startOf gs = some a) (hstop : stopOf gs = some b)
    (hg : g ∈ gs) : a ≤ g.span.start ∧ g.span.stop ≤ b := by
  constructor
  · obtain ⟨first, rest, rfl, rfl⟩ := exists_cons_of_startOf hstart
    rcases List.mem_cons.1 hg with rfl | hg
    · exact Nat.le_refl _
    · exact Nat.le_of_lt (List.rel_of_pairwise_cons h.pairwise (List.mem_map_of_mem hg)).1
  · obtain ⟨init, last, rfl, rfl⟩ := exists_concat_of_stopOf hstop
    have hpairwise := h.pairwise
    rw [List.map_append, List.pairwise_append] at hpairwise
    rcases List.mem_append.1 hg with hg | hg
    · have hbefore := hpairwise.2.2 _ (List.mem_map_of_mem hg) _ (List.mem_singleton_self _)
      have hlt := h.lt last (List.mem_append_right _ (List.mem_singleton_self _))
      exact Nat.le_of_lt (Nat.lt_of_le_of_lt hbefore.2 hlt)
    · obtain rfl := List.mem_singleton.1 hg
      exact Nat.le_refl _

theorem concat (h : Laid fs stop) (hbefore : ∀ g ∈ fs, g.span.Before f.span)
    (hlt : f.span.start < f.span.stop) (hle : f.span.stop ≤ b) (hb : stop ≤ b) :
    Laid (fs ++ [f]) b := by
  refine ⟨?_, List.forall_mem_append.2 ⟨h.lt, List.forall_mem_singleton.2 hlt⟩,
    List.forall_mem_append.2 ⟨fun g hg => Nat.le_trans (h.le g hg) hb,
      List.forall_mem_singleton.2 hle⟩⟩
  rw [List.map_append, List.pairwise_append]
  refine ⟨h.pairwise, List.pairwise_singleton _ _, ?_⟩
  simpa using hbefore

/-- A tree in the place of the last fragments. -/
theorem reduce (h : Laid (fs ++ gs) stop) (hstart : startOf gs = some f.span.start)
    (hstop : stopOf gs = some f.span.stop) : Laid (fs ++ [f]) stop := by
  have hpairwise := h.pairwise
  rw [List.map_append, List.pairwise_append] at hpairwise
  obtain ⟨first, rest, rfl, hfirst⟩ := exists_cons_of_startOf hstart
  obtain ⟨last, hlast, hf⟩ := Option.map_eq_some_iff.1 hstop
  have hlast := List.mem_append_right fs (List.mem_of_getLast? hlast)
  have hgs := h.sublist (List.sublist_append_right ..)
  have hwithin := hgs.within hstart hstop (List.mem_cons_self ..)
  have hlt := h.lt first (List.mem_append_right _ (List.mem_cons_self ..))
  refine concat (h.sublist (List.sublist_append_left ..)) ?_ ?_ ?_ (Nat.le_refl _)
  · intro g hg
    have hbefore := hpairwise.2.2 _ (List.mem_map_of_mem hg) _ (List.mem_cons_self ..)
    unfold Span.Before at hbefore ⊢
    rwa [hfirst] at hbefore
  · omega
  · rw [← hf]
    exact h.le last hlast

end Laid

/-- The next token stands after everything that has been consumed. -/
theorem Covers.before_le {taken : List Lexeme} {l : Lexeme} (h : Covers ls taken fs c)
    (hls : Ordered ls) (hl : l ∈ c.rest) : c.before ≤ l.span.start := by
  have hpairwise := hls.pairwise
  rw [h.tokens, List.map_append, List.pairwise_append] at hpairwise
  rw [h.before, h.stop]
  cases hlast : taken.getLast? with
  | none => exact Nat.zero_le _
  | some last =>
    have hmem := List.mem_of_getLast? hlast
    exact (hpairwise.2.2 _ (List.mem_map_of_mem hmem) _ (List.mem_map_of_mem hl)).2

theorem Builds.laid (hls : Ordered ls) (h : Builds ls fs c) : Laid fs c.before := by
  induction h with
  | start => exact ⟨.nil, by simp, by simp⟩
  | @shift fs c c' t span h ht ih =>
    obtain ⟨taken, hcovers⟩ := h.covers
    have hmem : (⟨t, span⟩ : Lexeme) ∈ c.rest := by simp [ht.rest]
    have hle : c.before ≤ span.start := hcovers.before_le hls hmem
    have hlt : span.start < span.stop :=
      hls.lt ⟨t, span⟩ (by simp [hcovers.tokens, hmem]) ht.ne_eof
    rw [ht.before]
    refine ih.concat (fun g hg => ?_) hlt (Nat.le_refl _) (by omega)
    have hstop := Nat.le_trans (ih.le g hg) hle
    exact ⟨Nat.lt_of_lt_of_le (ih.lt g hg) hstop, hstop⟩
  | reduce _ hstart hstop hf ih =>
    rw [hf.before_eq]
    exact ih.reduce hstart hstop

/-! ### The parts of the parser -/

/-- Going on from `fs` at `c`, shifts and reductions lead to the fragments `gs` after them, which
cover what was consumed. -/
structure Adds (ls : List Lexeme) (fs : List Fragment) (c : Cursor) (gs : List Fragment)
    (c' : Cursor) : Prop where
  builds : Builds ls (fs ++ gs) c'
  start : startOf gs = some c.current.span.start
  stop : stopOf gs = some c'.before

namespace Adds

theorem shift (h : Builds ls fs c) (ht : Takes t span c c') : Adds ls fs c [.token span] c' :=
  ⟨h.shift ht, by rw [ht.current]; rfl, by rw [ht.before]; rfl⟩

theorem trans (h : Adds ls fs c gs c₁) (h' : Adds ls (fs ++ gs) c₁ hs c') :
    Adds ls fs c (gs ++ hs) c' := by
  refine ⟨?_, ?_, ?_⟩
  · rw [← List.append_assoc]
    exact h'.builds
  · rw [startOf_append, h.start, Option.some_or]
  · rw [stopOf_append, h'.stop, Option.some_or]

theorem takes (h : Adds ls fs c gs c₁) (ht : Takes t span c₁ c') :
    Adds ls fs c (gs ++ [.token span]) c' :=
  h.trans (shift h.builds ht)

/-- One tree in the place of the fragments, from where they started to where they stop. -/
theorem reduce (h : Adds ls fs c gs c₁) (hspan : f.span = ⟨c.current.span.start, c₁.before⟩)
    (hf : Reduces c₁ gs f c') : Adds ls fs c [f] c' := by
  have hstart : f.span.start = c.current.span.start := by rw [hspan]
  have hstop : f.span.stop = c₁.before := by rw [hspan]
  refine ⟨h.builds.reduce ?_ ?_ hf, ?_, ?_⟩
  · rw [h.start, hstart]
  · rw [h.stop, hstop]
  · rw [startOf_singleton, hstart]
  · rw [stopOf_singleton, hstop, hf.before_eq]

theorem node (h : Adds ls fs c gs c') (hid : e.site.id = some c'.next)
    (hspan : e.span = ⟨c.current.span.start, c'.before⟩)
    (hbelow : trees gs = (Fragment.expr e).below) : Adds ls fs c [.expr e] c'.counted :=
  h.reduce hspan (.node hbelow hid)

theorem start_eq (h : Adds ls fs c [f] c') : f.span.start = c.current.span.start :=
  Option.some_inj.1 h.start

theorem stop_eq (h : Adds ls fs c [f] c') : f.span.stop = c'.before :=
  Option.some_inj.1 h.stop

/-- What is added stands within what was consumed. -/
theorem within (hls : Ordered ls) (h : Adds ls fs c gs c') (hg : g ∈ gs) :
    c.current.span.start ≤ g.span.start ∧ g.span.stop ≤ c'.before :=
  ((h.builds.laid hls).sublist (List.sublist_append_right ..)).within h.start h.stop hg

end Adds

theorem below_node {op : Connective} {site : Site} {right : Expr} :
    (Fragment.expr (op.node site left right)).below = [.expr left, .expr right] := by
  cases op <;> rfl

theorem site_node {op : Connective} {site : Site} {right : Expr} :
    (op.node site left right).site = site := by
  cases op <;> rfl

theorem below_leaf {node : Site → Expr} {site : Site} (h : leaf? t = some node) :
    (Fragment.expr (node site)).below = [] ∧ (node site).site = site := by
  cases t with
  | word | mark | eof => cases h
  | _ =>
    cases h
    exact ⟨rfl, rfl⟩

/-- What each part of the parser adds to the fragments when it succeeds. -/
structure AddsAt (σ : Strategy) (ls : List Lexeme) (fuel : Nat) : Prop where
  expr : ∀ {least : Nat} {c c' : Cursor} {e : Expr} {fs : List Fragment}, Builds ls fs c →
    expr σ fuel least c = .ok (e, c') → Adds ls fs c [.expr e] c'
  operators : ∀ {least : Nat} {left e : Expr} {c₀ c c' : Cursor} {fs : List Fragment},
    Adds ls fs c₀ [.expr left] c →
    operators σ fuel least c₀.current.span.start left c = .ok (e, c') →
    Adds ls fs c₀ [.expr e] c'
  operand : ∀ {c c' : Cursor} {e : Expr} {fs : List Fragment}, Builds ls fs c →
    operand σ fuel c = .ok (e, c') → Adds ls fs c [.expr e] c'
  paren : ∀ {c c' : Cursor} {e : Expr} {fs : List Fragment}, Builds ls fs c →
    paren σ fuel c = .ok (e, c') → Adds ls fs c [.expr e] c'
  items : ∀ {m : Mark} {c c' : Cursor} {es : List Expr} {fs : List Fragment}, Builds ls fs c →
    items σ fuel (.mark m) c = .ok (es, c') →
    ∃ gs, Adds ls fs c gs c' ∧ trees gs = es.map .expr
  access : ∀ {left e : Expr} {c₀ c c' : Cursor} {fs : List Fragment},
    Adds ls fs c₀ [.expr left] c → access σ fuel left c = .ok (e, c') →
    Adds ls fs c₀ [.expr e] c'
  arrow : ∀ {c c' : Cursor} {e : Expr} {fs : List Fragment}, Builds ls fs c →
    arrow σ fuel c = .ok (e, c') → Adds ls fs c [.expr e] c'
  function : ∀ {c c' : Cursor} {e : Expr} {fs : List Fragment}, Builds ls fs c →
    function σ fuel c = .ok (e, c') → Adds ls fs c [.expr e] c'
  params : ∀ {c c' : Cursor} {ps : List Param} {fs : List Fragment}, Builds ls fs c →
    params σ fuel c = .ok (ps, c') → ∃ gs, Adds ls fs c gs c' ∧ trees gs = ps.map .param
  moreParams : ∀ {c c' : Cursor} {ps : List Param} {fs : List Fragment}, Builds ls fs c →
    moreParams σ fuel c = .ok (ps, c') → ∃ gs, Adds ls fs c gs c' ∧ trees gs = ps.map .param
  block : ∀ {c c' : Cursor} {e : Expr} {fs : List Fragment}, Builds ls fs c →
    block σ fuel c = .ok (e, c') → ∃ gs, Adds ls fs c gs c' ∧ trees gs = [.expr e]

namespace AddsAt

variable {σ : Strategy} {fuel : Nat}

theorem zero : AddsAt σ ls 0 := by
  constructor <;> intros <;> contradiction

theorem expr_succ (ih : AddsAt σ ls fuel) {least : Nat} (hc : Builds ls fs c)
    (h : Parser.expr σ (fuel + 1) least c = .ok (e, c')) : Adds ls fs c [.expr e] c' := by
  obtain ⟨left, c₁, hleft, hrest⟩ := expr_eq_ok_iff.1 h
  exact ih.operators (ih.operand hc hleft) hrest

theorem operators_succ (ih : AddsAt σ ls fuel) {least : Nat} (hleft : Adds ls fs c₀ [.expr left] c)
    (h : Parser.operators σ (fuel + 1) least c₀.current.span.start left c = .ok (e, c')) :
    Adds ls fs c₀ [.expr e] c' := by
  cases operators_eq_ok_iff.1 h with
  | stop => exact hleft
  | access _ _ hleft' hrest => exact ih.operators (ih.access hleft hleft') hrest
  | conditional _ hquestion ha hcolon hb hrest =>
    have hquestion := hleft.takes hquestion
    have ha := hquestion.trans (ih.expr hquestion.builds ha)
    have hcolon := ha.takes hcolon
    have hb := ih.expr hcolon.builds hb
    refine ih.operators ((hcolon.trans hb).node rfl ?_ rfl) hrest
    exact congrArg _ hb.stop_eq
  | connective _ _ ht hr hrest =>
    have ht := hleft.takes ht
    have hr := ih.expr ht.builds hr
    refine ih.operators ((ht.trans hr).node ?_ ?_ ?_) hrest
    · rw [site_node]
    · rw [Expr.span, site_node]
      exact congrArg _ hr.stop_eq
    · rw [below_node]
      rfl

theorem operand_succ (hσ : σ.Selects) (ih : AddsAt σ ls fuel) (hc : Builds ls fs c)
    (h : Parser.operand σ (fuel + 1) c = .ok (e, c')) : Adds ls fs c [.expr e] c' := by
  cases operand_eq_ok_iff.1 h with
  | unary _ ht he =>
    have hop := Adds.shift hc ht
    have he := ih.expr hop.builds he
    refine (hop.trans he).node rfl ?_ rfl
    rw [ht.current, ← he.stop_eq]
    rfl
  | opening _ he =>
    -- the strategy takes one of the two ways
    rcases hσ (Parser.arrow σ fuel) (Parser.paren σ fuel) c with hway | hway
    · exact ih.arrow hc (hway.symm.trans he)
    · exact ih.paren hc (hway.symm.trans he)
  | array ht hes =>
    have hopen := Adds.shift hc ht
    obtain ⟨gs, hgs, htrees⟩ := ih.items hopen.builds hes
    refine (hopen.trans hgs).node rfl ?_ ?_
    · rw [ht.current]
      rfl
    · rw [trees_append, htrees]
      rfl
  | function _ he => exact ih.function hc he
  | arrow _ _ he => exact ih.arrow hc he
  | leaf hleaf ht =>
    refine (Adds.shift hc ht).node ?_ ?_ (below_leaf hleaf).1.symm
    · rw [(below_leaf hleaf).2]
    · rw [Expr.span, (below_leaf hleaf).2, ht.current, ht.before]

theorem paren_succ (ih : AddsAt σ ls fuel) (hc : Builds ls fs c)
    (h : Parser.paren σ (fuel + 1) c = .ok (e, c')) : Adds ls fs c [.expr e] c' := by
  obtain ⟨opening, c₁, inner, c₂, closing, hopen, he, hclose, rfl⟩ := paren_eq_ok_iff.1 h
  have hopen' := Adds.shift hc hopen
  have hinner := (hopen'.trans (ih.expr hopen'.builds he)).takes hclose
  refine hinner.reduce ?_ (.enclosed rfl)
  rw [hopen.current, hclose.before]
  exact Expr.span_withSpan

theorem items_succ (ih : AddsAt σ ls fuel) {m : Mark} {es : List Expr} (hc : Builds ls fs c)
    (h : Parser.items σ (fuel + 1) (.mark m) c = .ok (es, c')) :
    ∃ gs, Adds ls fs c gs c' ∧ trees gs = es.map .expr := by
  cases items_eq_ok_iff.1 h with
  | nil hclose => exact ⟨_, .shift hc hclose, rfl⟩
  | last _ _ he _ hclose => exact ⟨_, (ih.expr hc he).takes hclose, rfl⟩
  | more _ _ he hcomma hes =>
    have he := (ih.expr hc he).takes hcomma
    obtain ⟨gs, hgs, htrees⟩ := ih.items he.builds hes
    refine ⟨_, he.trans hgs, ?_⟩
    rw [trees_append, htrees]
    rfl

theorem access_succ (ih : AddsAt σ ls fuel) (hleft : Adds ls fs c₀ [.expr left] c)
    (h : Parser.access σ (fuel + 1) left c = .ok (e, c')) : Adds ls fs c₀ [.expr e] c' := by
  have hstart : left.span.start = c₀.current.span.start := hleft.start_eq
  cases access_eq_ok_iff.1 h with
  | call ht hargs =>
    have hopen := hleft.takes ht
    obtain ⟨gs, hgs, htrees⟩ := ih.items hopen.builds hargs
    refine (hopen.trans hgs).node rfl ?_ ?_
    · exact congrArg (Span.mk · _) hstart
    · rw [trees_append, htrees]
      rfl
  | computed ht hp hclose =>
    have hopen := hleft.takes ht
    have hp := (hopen.trans (ih.expr hopen.builds hp)).takes hclose
    refine hp.node rfl ?_ rfl
    rw [← hstart, hclose.before]
    rfl
  | @named name t dot span c₁ c₂ hdot _ ht =>
    have hdot := hleft.takes hdot
    have hspan : (Expr.ident ⟨some c₂.next, span⟩ name).span =
        ⟨c₁.current.span.start, c₂.before⟩ := by
      rw [ht.current, ht.before]
      rfl
    have hname := (Adds.shift hdot.builds ht).node rfl hspan rfl
    refine (hdot.trans hname).node rfl ?_ rfl
    rw [← hstart, ← hname.stop_eq]
    rfl

theorem arrowParams (ih : AddsAt σ ls fuel) {ps : List Param} (hc : Builds ls fs c)
    (h : ArrowParams σ fuel c ps c') : ∃ gs, Adds ls fs c gs c' ∧ trees gs = ps.map .param := by
  cases h with
  | params _ hps => exact ih.params hc hps
  | @name name span _ hname =>
    refine ⟨[.param (.required name span)], (Adds.shift hc hname).reduce ?_ (.param rfl), rfl⟩
    rw [hname.current, hname.before]
    rfl

theorem arrowBody (ih : AddsAt σ ls fuel) (hc : Builds ls fs c) (h : ArrowBody σ fuel c e c') :
    ∃ gs, Adds ls fs c gs c' ∧ trees gs = [.expr e] := by
  cases h with
  | block _ he => exact ih.block hc he
  | expr _ he => exact ⟨_, ih.expr hc he, rfl⟩

theorem arrow_succ (hls : Ordered ls) (ih : AddsAt σ ls fuel) (hc : Builds ls fs c)
    (h : Parser.arrow σ (fuel + 1) c = .ok (e, c')) : Adds ls fs c [.expr e] c' := by
  obtain ⟨ps, c₁, span, c₂, body, c₃, hps, harrow, hbody, rfl, rfl⟩ := arrow_eq_ok_iff.1 h
  obtain ⟨gs, hgs, hparams⟩ := ih.arrowParams hc hps
  have harrow := hgs.takes harrow
  obtain ⟨hs, hhs, htrees⟩ := ih.arrowBody harrow.builds hbody
  -- a body in braces ends before the function does
  have hle : body.span.stop ≤ c₃.before := by
    have hmem : .expr body ∈ hs := List.mem_of_mem_filter (htrees ▸ List.mem_singleton_self _)
    exact (hhs.within hls hmem).2
  refine (harrow.trans hhs).node rfl ?_ ?_
  · exact congrArg _ (Nat.max_eq_right hle)
  · rw [trees_append, trees_append, hparams, htrees, List.append_assoc]
    rfl

theorem function_succ (ih : AddsAt σ ls fuel) (hc : Builds ls fs c)
    (h : Parser.function σ (fuel + 1) c = .ok (e, c')) : Adds ls fs c [.expr e] c' := by
  obtain ⟨word, c₁, name, c₂, ps, c₃, body, c₄, hword, hname, hps, hbody, rfl, rfl⟩ :=
    function_eq_ok_iff.1 h
  obtain ⟨gs, hgs, hnothing⟩ : ∃ gs, Adds ls fs c gs c₂ ∧ trees gs = [] := by
    cases hname with
    | some hname => exact ⟨_, (Adds.shift hc hword).takes hname, rfl⟩
    | none => exact ⟨_, .shift hc hword, rfl⟩
  obtain ⟨hs, hhs, hparams⟩ := ih.params hgs.builds hps
  have hhead := hgs.trans hhs
  obtain ⟨is, his, htrees⟩ := ih.block hhead.builds hbody
  refine (hhead.trans his).node rfl ?_ ?_
  · rw [hword.current]
    rfl
  · rw [trees_append, trees_append, hnothing, hparams, htrees]
    rfl

theorem params_succ (ih : AddsAt σ ls fuel) {ps : List Param} (hc : Builds ls fs c)
    (h : Parser.params σ (fuel + 1) c = .ok (ps, c')) :
    ∃ gs, Adds ls fs c gs c' ∧ trees gs = ps.map .param := by
  obtain ⟨span, c₁, hopen, hps⟩ := params_eq_ok_iff.1 h
  have hopen := Adds.shift hc hopen
  obtain ⟨gs, hgs, htrees⟩ := ih.moreParams hopen.builds hps
  refine ⟨_, hopen.trans hgs, ?_⟩
  rw [trees_append, htrees]
  rfl

theorem param (ih : AddsAt σ ls fuel) {p : Param} (hc : Builds ls fs c)
    (h : ParamPath σ fuel c p c') : Adds ls fs c [.param p] c' := by
  cases h with
  | required hname =>
    refine (Adds.shift hc hname).reduce ?_ (.param rfl)
    rw [hname.current, hname.before]
    rfl
  | optional hname hassign hd =>
    have hassign := (Adds.shift hc hname).takes hassign
    refine (hassign.trans (ih.expr hassign.builds hd)).reduce ?_ (.param rfl)
    rw [hname.current]
    rfl

theorem moreParams_succ (ih : AddsAt σ ls fuel) {ps : List Param} (hc : Builds ls fs c)
    (h : Parser.moreParams σ (fuel + 1) c = .ok (ps, c')) :
    ∃ gs, Adds ls fs c gs c' ∧ trees gs = ps.map .param := by
  cases moreParams_eq_ok_iff.1 h with
  | nil hclose => exact ⟨_, .shift hc hclose, rfl⟩
  | last hp hclose => exact ⟨_, (ih.param hc hp).takes hclose, rfl⟩
  | more hp hcomma hps =>
    have hp := (ih.param hc hp).takes hcomma
    obtain ⟨gs, hgs, htrees⟩ := ih.moreParams hp.builds hps
    refine ⟨_, hp.trans hgs, ?_⟩
    rw [trees_append, htrees]
    rfl

/-- The word `return` and what stands after it. -/
theorem returned (ih : AddsAt σ ls fuel) {word : Span} (hc : Builds ls fs c)
    (hret : Takes (.word .ret) word c c₁) (h : ReturnedPath σ fuel word c₁ e c') :
    ∃ gs, Adds ls fs c gs c' ∧ trees gs = [.expr e] := by
  have hword := Adds.shift hc hret
  cases h with
  | nothing =>
    -- the word itself becomes the tree
    refine ⟨_, hword.node rfl ?_ rfl, rfl⟩
    rw [hret.current, hret.before]
    rfl
  | expr _ _ he => exact ⟨_, hword.trans (ih.expr hword.builds he), rfl⟩

theorem block_succ (hls : Ordered ls) (ih : AddsAt σ ls fuel) (hc : Builds ls fs c)
    (h : Parser.block σ (fuel + 1) c = .ok (e, c')) :
    ∃ gs, Adds ls fs c gs c' ∧ trees gs = [.expr e] := by
  cases block_eq_ok_iff.1 h with
  | @empty opening closing c₁ c₂ hopen hclose =>
    -- the join of the braces runs from the first to the second, as they stand in this order
    have hbraces := (Adds.shift hc hopen).takes hclose
    have hopening := (hbraces.within hls (List.mem_cons_self ..)).2
    have hclosing := (hbraces.within hls (List.mem_append_right _ (List.mem_singleton_self _))).1
    rw [hopen.current] at hclosing
    rw [hclose.before] at hopening
    refine ⟨_, hbraces.node rfl ?_ rfl, rfl⟩
    rw [hopen.current, hclose.before]
    exact congrArg₂ Span.mk (Nat.min_eq_left hclosing) (Nat.max_eq_right hopening)
  | @ret _ _ _ _ _ c₂ c₃ c₄ _ hopen hret he hsemi hclose =>
    have hopen := Adds.shift hc hopen
    obtain ⟨gs, hgs, htrees⟩ := ih.returned hopen.builds hret he
    have hreturn := hopen.trans hgs
    cases hsemi with
    | semi hsemi =>
      refine ⟨_, (hreturn.takes hsemi).takes hclose, ?_⟩
      simp only [trees_append, htrees]
      rfl
    | none =>
      refine ⟨_, hreturn.takes hclose, ?_⟩
      simp only [trees_append, htrees]
      rfl

end AddsAt

theorem addsAt {σ : Strategy} (hσ : σ.Selects) (hls : Ordered ls) (fuel : Nat) :
    AddsAt σ ls fuel := by
  induction fuel with
  | zero => exact .zero
  | succ fuel ih =>
    exact ⟨ih.expr_succ, ih.operators_succ, ih.operand_succ hσ, ih.paren_succ, ih.items_succ,
      ih.access_succ, ih.arrow_succ hls, ih.function_succ, ih.params_succ, ih.moreParams_succ,
      ih.block_succ hls⟩

/-- The tree of a list of tokens is what shifts and reductions make of all that was consumed. -/
theorem builds_of_expr {fuel least : Nat} (hls : Ordered ls)
    (h : expr lookahead fuel least ⟨ls, 0, 0⟩ = .ok (e, c)) : Builds ls [.expr e] c :=
  ((addsAt selects_lookahead hls fuel).expr .start h).builds

theorem exists_expr_of_parseTokens (h : (parseTokens ls).expr = some e) :
    ∃ c, expr lookahead (depthBound ls) 0 ⟨ls, 0, 0⟩ = .ok (e, c) := by
  unfold parseTokens parse at h
  split at h
  · rename_i e' c hexpr
    split at h
    · cases h
      exact ⟨c, hexpr⟩
    · cases h
      exact ⟨c, hexpr⟩
  · cases h
  · cases h

end Parser

/-- A source with a tree has no fault in its tokens. -/
theorem parseSource_of_expr {source : String} {e : Expr} (h : (parseSource source).expr = some e) :
    parseSource source = parseTokens (tokenize source).lexemes := by
  simp only [parseSource] at h ⊢
  split
  · rfl
  · rename_i hfaults
    rw [if_neg hfaults] at h
    cases h

end DeltaForm
