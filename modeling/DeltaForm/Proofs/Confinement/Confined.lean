import DeltaForm.Proofs.Confinement.Grades
import DeltaForm.Proofs.Lifting.Shape

/-!
# Confined producers

A **producer** is a tree with the type of functions that yield states. Lifting takes every name for
a plain value, so it cannot know a producer, or a state, again once it is bound to a name that is
then read like any other. A tree is **confined** (`Expr.Confined`) if this does not happen in it:

* no producer is handed on to where its type is lost: as an operand of `&&`, `||` or `??`, as an
  item of an array, as an argument, as what a function yields, or as a branch that a state chooses;
* no default of a parameter is a producer or a state;
* a producer does not call itself by the name under which it sees itself;
* no delta expression is `ns[ns]`, which is the runtime itself.

A name may stand for a producer or a state as long as it is read in delta expressions `ns[x]` only
(`Expr.OnlyInDeltas`), since these have the type of producers. So arguments, defaults and functions
bound to such a name are exempt.

The main statement, `Lifts.graded`, is that the lifted form of a confined tree has a grade, and one
that says what the type of the tree says.
-/

namespace DeltaForm

namespace Expr

variable (ns : String)

/-- Whether a node reads a name as one of its parts, and not in a delta expression. -/
def readsPlainly (x : String) (e : Expr) : Bool :=
  (e.stripDelta? ns).isNone && e.children.any fun c => c.ident? = some x

/-- The name is read in delta expressions only. -/
def OnlyInDeltas (x : String) (e : Expr) : Prop :=
  e.ident? ≠ some x ∧ e.Everywhere fun s => s.readsPlainly ns x = false

instance (x : String) (e : Expr) : Decidable (e.OnlyInDeltas ns x) :=
  inferInstanceAs (Decidable (_ ∧ Everywhere (fun s => s.readsPlainly ns x = false) e))

/-- The arguments of a call that can be read plainly by what is called. -/
def passed (f : Expr) (args : List Expr) : List Expr :=
  match f with
  | function _ _ ps _ _ =>
    ((ps.zip args).filter fun pa => ¬ f.OnlyInDeltas ns pa.1.name).map Prod.snd
  | _ => args

/-- The parts of a node that it hands on to where their types are lost. -/
def handedOn : Expr → List Expr
  | logical _ _ l r => [l, r]
  | call _ f args => passed ns f args
  | conditional _ t c a => if t.typeOf? ns = some .state then [c, a] else []
  | array _ es => es
  | function _ _ _ body _ => [body]
  | _ => []

/-- The defaults of the parameters that a function reads plainly. -/
def plainDefaults (e : Expr) : List Expr :=
  match e with
  | function _ _ ps _ _ =>
    (ps.filter fun p => ¬ e.OnlyInDeltas ns p.name).filterMap Param.default?
  | _ => []

/-- The name under which a producer sees itself. -/
def producerName? (e : Expr) : Option String :=
  match e with
  | function _ name _ _ _ => if e.typeOf? ns = some .toState then name else none
  | _ => none

/-- Whether a node is the delta expression of the namespace. -/
def isRuntime : Expr → Bool
  | member _ (ident _ x) (ident _ y) true => x = ns && y = ns
  | _ => false

/-- What is asked of each node of a confined tree. -/
structure ConfinedAt (e : Expr) : Prop where
  handedOn : ∀ o ∈ e.handedOn ns, o.typeOf? ns ≠ some .toState
  defaults : ∀ d ∈ e.plainDefaults ns, d.typeOf? ns ≠ some .toState ∧ d.typeOf? ns ≠ some .state
  self : ∀ x ∈ e.producerName? ns, e.OnlyInDeltas ns x
  runtime : e.isRuntime ns = false

instance (e : Expr) : Decidable (e.ConfinedAt ns) :=
  decidable_of_iff
    ((∀ o ∈ e.handedOn ns, o.typeOf? ns ≠ some .toState) ∧
      (∀ d ∈ e.plainDefaults ns,
        d.typeOf? ns ≠ some .toState ∧ d.typeOf? ns ≠ some .state) ∧
      (∀ x ∈ e.producerName? ns, e.OnlyInDeltas ns x) ∧ e.isRuntime ns = false)
    ⟨fun ⟨h, hd, hs, hr⟩ => ⟨h, hd, hs, hr⟩, fun ⟨h, hd, hs, hr⟩ => ⟨h, hd, hs, hr⟩⟩

/-- No node hands a producer on to where its type is lost: through `&&`, `||` or `??`, an array, an
argument, what a function yields, or a branch that a state chooses. Defaults that are read plainly
are neither producers nor states, producers see themselves in delta expressions only, and `ns[ns]`
does not occur. -/
def Confined (e : Expr) : Prop := e.Everywhere (ConfinedAt ns)

instance (e : Expr) : Decidable (e.Confined ns) :=
  inferInstanceAs (Decidable (Everywhere (ConfinedAt ns) e))

end Expr

variable {ns : String} {P : Scope}

namespace Expr

variable {e c : Expr} {x : String}

theorem OnlyInDeltas.child (h : e.OnlyInDeltas ns x) (hd : e.stripDelta? ns = none)
    (hc : c ∈ e.children) : c.OnlyInDeltas ns x := by
  refine ⟨?_, h.2.child hc⟩
  have hx := h.2.here
  rw [readsPlainly, hd, Option.isNone_none, Bool.true_and, List.any_eq_false] at hx
  simpa using hx c hc

/-- The object of a delta expression is part of the node between them. -/
theorem OnlyInDeltas.hop {site os hs : Site} {inner p : Expr}
    (h : (member site (member os inner (ident hs ns) false) p true).OnlyInDeltas ns x) :
    inner.OnlyInDeltas ns x := by
  have hbetween : (member os inner (ident hs ns) false).OnlyInDeltas ns x :=
    ⟨by simp [ident?], h.2.child (by simp [children])⟩
  exact hbetween.child rfl (by simp [children])

end Expr

/-- All names that a tree reads plainly are in the scope. -/
def Scope.Covers (ns : String) (P : Scope) (e : Expr) : Prop := ∀ x, ¬ P x → e.OnlyInDeltas ns x

namespace Scope

theorem Covers.child {e c : Expr} (h : P.Covers ns e) (hd : e.stripDelta? ns = none)
    (hc : c ∈ e.children) : P.Covers ns c :=
  fun x hx => (h x hx).child hd hc

theorem Covers.bind {e : Expr} {x : String} {loose : Bool} (h : P.Covers ns e)
    (hx : loose = true → e.OnlyInDeltas ns x) : (P.bind x loose).Covers ns e := by
  intro y hy
  rw [Scope.bind] at hy
  split at hy
  · rename_i hyx
    exact hyx ▸ hx (by simpa using hy)
  · exact h y hy

end Scope

/-! ### The grades of types -/

/-- What the type of a lifted tree says of its values. -/
def Ty.grade (t : Ty) : Grade :=
  if t = .state then .state else if t = .toState then .any else .plain

namespace Ty

theorem grade_of_ne {t : Ty} (hs : t ≠ .state) (ht : t ≠ .toState) : t.grade = .plain := by
  rw [grade, if_neg hs, if_neg ht]

theorem grade_state : grade .state = .state := rfl

end Ty

/-- The grade of a function literal tells which of its parameters it reads in delta expressions
only. -/
def Expr.FitsLiteral (ns : String) (e : Expr) (g : Grade) : Prop :=
  match e with
  | function _ _ ps _ _ => ∃ loose direct, g = .function loose direct ∧
      List.Forall₂ (fun p l => e.OnlyInDeltas ns p.name → l = true) ps loose
  | _ => True

/-- The lifted form of a tree has a grade in the scope, and one that says what its type says. -/
def Lifted.HasGrade (ns : String) (P : Scope) (e : Expr) (l : Lifted) : Prop :=
  ∃ g, l.expr.Graded ns P g ∧ g.Le l.ty.grade ∧ e.FitsLiteral ns g

/-- Trees and their lifted forms, which have grades. -/
abbrev Lifts.Operands (ns : String) (P : Scope) : List Expr → List Lifted → Prop :=
  List.Forall₂ fun e l => Lifts ns e l ∧ l.HasGrade ns P e

/-- Grades that resolved operands may have: those that are no producers are plain. -/
abbrev PlainUnlessProducer (ns : String) : List Expr → List Grade → Prop :=
  List.Forall₂ fun e g => e.typeOf? ns ≠ some .toState → g.Le .plain

theorem PlainUnlessProducer.le_plain {es : List Expr} {gs : List Grade}
    (h : PlainUnlessProducer ns es gs) (hes : ∀ e ∈ es, e.typeOf? ns ≠ some .toState) :
    ∀ g ∈ gs, g.Le .plain := by
  induction h with
  | nil => simp
  | cons hg _ ih =>
    rw [List.forall_mem_cons] at hes ⊢
    exact ⟨hg hes.1, ih hes.2⟩

/-- Arguments suit the parameters of a function literal if none that it reads plainly is a
producer. -/
theorem PlainUnlessProducer.suit {f : Expr} {ps : List Param} {loose : List Bool}
    {args : List Expr} {gs : List Grade} (h : PlainUnlessProducer ns args gs)
    (hps : List.Forall₂ (fun p l => f.OnlyInDeltas ns p.name → l = true) ps loose)
    (hargs : ∀ pa ∈ ps.zip args, ¬ f.OnlyInDeltas ns pa.1.name →
      pa.2.typeOf? ns ≠ some .toState) : Grade.Suit gs loose := by
  induction hps generalizing args gs with
  | nil => cases gs <;> trivial
  | @cons p l ps loose hp _ ih =>
    cases h with
    | nil => trivial
    | @cons a g args gs hg hgs =>
      rw [List.zip_cons_cons, List.forall_mem_cons] at hargs
      refine ⟨?_, ih hgs hargs.2⟩
      by_cases hx : f.OnlyInDeltas ns p.name
      · rw [hp hx]
        exact .any
      · exact (hg (hargs.1 hx)).of_plain l

namespace Lifted

variable {e : Expr} {l : Lifted} {es : List Expr} {ls : List Lifted}

/-- An operand as the runtime resolves it. -/
theorem HasGrade.operand (h : l.HasGrade ns P e) :
    ∃ g, (∀ {as gs}, Expr.GradedOperands ns P as gs →
        Expr.GradedOperands ns P (l.asState :: as) (g :: gs)) ∧
      (l.ty ≠ .toState → g.Le .plain) ∧ e.FitsLiteral ns g := by
  obtain ⟨g, hg, hle, hlit⟩ := h
  by_cases hs : l.ty = .state
  · rw [hs, Ty.grade_state] at hle
    cases hle
    refine ⟨.plain, fun has => ?_, fun _ => .refl, ?_⟩
    · rw [asState_of_eq hs]
      exact .state hg has
    · -- A function literal has no state type.
      cases e with
      | function =>
        obtain ⟨_, _, hne, -⟩ := hlit
        cases hne
      | _ => trivial
  · refine ⟨g, fun has => ?_, fun ht => ?_, hlit⟩
    · rw [asState_of_ne hs]
      exact .success hg has
    · rwa [Ty.grade_of_ne hs ht] at hle

theorem gradedOperands (h : Lifts.Operands ns P es ls) :
    ∃ gs, Expr.GradedOperands ns P (ls.map asState) gs ∧ PlainUnlessProducer ns es gs := by
  induction h with
  | nil => exact ⟨[], .nil, .nil⟩
  | cons h _ ih =>
    obtain ⟨g, hg, hle, -⟩ := h.2.operand
    obtain ⟨gs, hgs, hles⟩ := ih
    exact ⟨g :: gs, hg hgs, .cons (by rwa [h.1.typeOf?_eq, ne_eq, Option.some_inj]) hles⟩

/-- Operands that nothing has to wait for. -/
theorem gradedList (h : Lifts.Operands ns P es ls) (hs : ∀ l ∈ ls, l.ty ≠ .state) :
    ∃ gs, Expr.GradedList ns P (ls.map expr) gs ∧ PlainUnlessProducer ns es gs := by
  induction h with
  | nil => exact ⟨[], .nil, .nil⟩
  | cons h _ ih =>
    rw [List.forall_mem_cons] at hs
    obtain ⟨he, g, hg, hle, -⟩ := h
    obtain ⟨gs, hgs, hles⟩ := ih hs.2
    refine ⟨g :: gs, .cons hg hgs, .cons (fun ht => ?_) hles⟩
    rw [he.typeOf?_eq, ne_eq, Option.some_inj] at ht
    rwa [Ty.grade_of_ne hs.1 ht] at hle

/-! ### Nodes -/

theorem hasGrade_operation {span : Span} {name : String} {op : Native} {plain : Expr}
    (hop : Native.ofOperator? name = some op) (h : Lifts.Operands ns P es ls)
    (hhandles : ∀ gs, PlainUnlessProducer ns es gs → op.Handles true gs)
    (hplain : (∀ l ∈ ls, l.ty ≠ .state) → plain.Graded ns P .plain)
    (hlit : ∀ g, e.FitsLiteral ns g) : (operation span name ls plain).HasGrade ns P e := by
  cases hw : waits ls with
  | true =>
    obtain ⟨gs, hgs, hles⟩ := gradedOperands h
    rw [operation_of_waits hw]
    exact ⟨.state, .operator hop hgs (hhandles gs hles), .refl, hlit _⟩
  | false =>
    rw [operation_of_not_waits hw]
    exact ⟨.plain, hplain (waits_eq_false_iff.1 hw), .refl, hlit _⟩

/-- A callee accepts the arguments of a call that hands no producer on, and if it is plain, so is
the result. -/
theorem exists_accepts_of_confinedAt {site : Site} {f : Expr} {args : List Expr} {g : Grade}
    {gs : List Grade} (hc : (Expr.call site f args).ConfinedAt ns) (hf : f.FitsLiteral ns g)
    (hgs : PlainUnlessProducer ns args gs) :
    ∃ direct, g.Accepts gs direct ∧ (g.Le .plain → direct = true) := by
  have hargs := hc.handedOn
  cases f with
  | function _ _ ps =>
    obtain ⟨loose, direct, rfl, hps⟩ := hf
    refine ⟨direct, .function (hgs.suit hps fun pa hpa hx => ?_), fun h => by cases h; rfl⟩
    refine hargs _ (List.mem_map.2 ⟨pa, List.mem_filter.2 ⟨hpa, ?_⟩, rfl⟩)
    exact decide_eq_true hx
  | _ => exact g.exists_accepts (hgs.le_plain hargs)

theorem hasGrade_application {site : Site} {f : Expr} {args : List Expr} {lf : Lifted}
    (hc : (Expr.call site f args).ConfinedAt ns) (hty : lf.ty.IsLifted)
    (hf : lf.HasGrade ns P f) (hargs : Lifts.Operands ns P args ls) :
    (application site lf ls).HasGrade ns P (.call site f args) := by
  cases hw : waits (lf :: ls) with
  | true =>
    obtain ⟨g, hg, hle, hlit⟩ := hf.operand
    obtain ⟨gs, hgs, hles⟩ := gradedOperands hargs
    obtain ⟨direct, haccepts, hdirect⟩ := exists_accepts_of_confinedAt hc hlit hles
    rw [application_of_waits hw]
    refine ⟨.state, .depend (hg hgs) haccepts fun h => ?_, .refl, trivial⟩
    exact hdirect (hle (by simpa using h))
  | false =>
    have hs := waits_eq_false_iff.1 hw
    rw [List.forall_mem_cons] at hs
    obtain ⟨g, hg, hle, hlit⟩ := hf
    obtain ⟨gs, hgs, hles⟩ := gradedList hargs hs.2
    obtain ⟨direct, haccepts, hdirect⟩ := exists_accepts_of_confinedAt hc hlit hles
    by_cases ht : lf.ty = .toState
    · rw [application_of_toState hw ht]
      exact ⟨.state, .wrap hg hgs haccepts, .refl, trivial⟩
    · rw [Ty.grade_of_ne hs.1 ht] at hle
      rw [hdirect hle] at haccepts
      have hreturns : lf.ty.returns = .value := by
        rcases hty with h | h | h | h
        · rw [h]; rfl
        · exact absurd h hs.1
        · rw [h]; rfl
        · exact absurd h ht
      rw [application_of_ne hw ht, hreturns]
      exact ⟨.plain, .call hg hgs haccepts, .refl, trivial⟩

/-- A branch of a conditional has the grade of the conditional's type. -/
theorem HasGrade.branch {ty : Ty} (h : l.HasGrade ns P e) (hs : ty ≠ .state → l.ty ≠ .state)
    (ht : l.ty = .toState → ty = .toState) :
    ∃ g, (Lifted.branch ty l).Graded ns P g ∧ g.Le ty.grade := by
  obtain ⟨g, hg, hle, -⟩ := h
  by_cases hty : ty = .state
  · have ht : l.ty ≠ .toState := fun h => by
      have := hty.symm.trans (ht h)
      cases this
    rw [branch_of_eq hty, hty, Ty.grade_state]
    by_cases hs : l.ty = .state
    · rw [asState_of_eq hs]
      rw [hs] at hle
      exact ⟨g, hg, hle⟩
    · rw [Ty.grade_of_ne hs ht] at hle
      rw [asState_of_ne hs]
      exact ⟨.state, .success hg hle, .refl⟩
  · rw [branch_of_ne hty]
    refine ⟨g, hg, ?_⟩
    by_cases hty' : ty = .toState
    · rw [hty']
      exact .any
    · rw [Ty.grade_of_ne (hs hty) fun h => hty' (ht h)] at hle
      rwa [Ty.grade_of_ne hty hty']

/-- A delayed branch, as the runtime resolves it: a function without parameters. -/
theorem gradedOperands_delayed {body : Expr} {g : Grade} {ty : Ty} {as : List Expr}
    {gs : List Grade} (hbody : body.Graded ns P g) (hg : g.Le ty.grade) (hty : ty ≠ .toState)
    (has : Expr.GradedOperands ns P as gs) :
    ∃ direct, Expr.GradedOperands ns P (delayed body :: as) (.function [] direct :: gs) := by
  by_cases hs : ty = .state
  · rw [hs] at hg
    exact ⟨false, .success (.function .nil hbody hg) has⟩
  · rw [Ty.grade_of_ne hs hty] at hg
    exact ⟨true, .success (.function .nil hbody hg) has⟩

theorem ty_of_branchTy_toState {span : Span} {c a : Lifted}
    (h : branchTy span c a = .ok .toState) : c.ty = .toState := by
  unfold branchTy at h
  split at h
  · exact Except.ok.inj h
  · split at h
    · cases h
    · unfold Ty.concat at h
      split at h <;> cases h

theorem hasGrade_choose {site : Site} {t c a : Expr} {lt lc la : Lifted} {ty : Ty}
    (hconfined : (Expr.conditional site t c a).ConfinedAt ns)
    (hty : branchTy site.span lc la = .ok ty) (ht : Lifts ns t lt) (hlc : Lifts ns c lc)
    (hgt : lt.HasGrade ns P t) (hgc : lc.HasGrade ns P c) (hga : la.HasGrade ns P a) :
    (choose site ty lt lc la).HasGrade ns P (.conditional site t c a) := by
  obtain ⟨gc, hc, hlec⟩ := hgc.branch (fun h => (branchTy_ne hty h).1)
    fun h => branchTy_of_toState hty (.inl h)
  obtain ⟨ga, ha, hlea⟩ := hga.branch (fun h => (branchTy_ne hty h).2)
    fun h => branchTy_of_toState hty (.inr h)
  by_cases hs : lt.ty = .state
  · -- The runtime chooses, so neither branch is a producer.
    have hne : ty ≠ .toState := by
      rintro rfl
      refine hconfined.handedOn c ?_ (hlc.typeOf?_eq.trans ?_)
      · rw [Expr.handedOn, if_pos (ht.typeOf?_eq.trans (congrArg some hs))]
        exact List.mem_cons_self
      · rw [ty_of_branchTy_toState hty]
    obtain ⟨da, hoperands⟩ := gradedOperands_delayed ha hlea hne .nil
    obtain ⟨dc, hoperands⟩ := gradedOperands_delayed hc hlec hne hoperands
    obtain ⟨g, hg, hle, -⟩ := hgt
    rw [hs] at hle
    cases hle
    rw [choose_of_eq hs]
    refine ⟨.state, .operator rfl (.state hg hoperands) ?_, .refl, trivial⟩
    exact ⟨rfl, _, _, _, _, _, rfl⟩
  · rw [choose_of_ne hs]
    exact ⟨ty.grade, .conditional hc hlec ha hlea, .refl, trivial⟩

end Lifted

/-! ### Functions -/

/-- The parameters of a function take any value if the function reads them in delta expressions
only, and plain values otherwise. -/
theorem Lifts.gradedParams {e : Expr} {ps qs : List Param}
    (h : List.Forall₂ (Param.Lifts fun d l => ∃ _ : Lifts ns d l,
      ∀ {P : Scope}, d.Confined ns → P.Covers ns d → l.HasGrade ns P d) ps qs)
    (hps : ∀ x span d, Param.optional x span d ∈ ps → d.Confined ns ∧
      (∀ P : Scope, P.Covers ns e → P.Covers ns d) ∧
      (¬ e.OnlyInDeltas ns x → d.typeOf? ns ≠ some .toState ∧ d.typeOf? ns ≠ some .state))
    (hP : P.Covers ns e) :
    ∃ loose Q, Expr.GradedParams ns P qs loose Q ∧ Q.Covers ns e ∧
      List.Forall₂ (fun p l => e.OnlyInDeltas ns p.name → l = true) ps loose := by
  induction h generalizing P with
  | nil => exact ⟨[], P, .nil, hP, .nil⟩
  | cons hp _ ih =>
    have ih := fun {P : Scope} => @ih P fun x span d hd => hps x span d (List.mem_cons_of_mem _ hd)
    have hbind (x : String) : (P.bind x (decide (e.OnlyInDeltas ns x))).Covers ns e :=
      hP.bind of_decide_eq_true
    cases hp with
    | @required x span =>
      obtain ⟨loose, Q, hqs, hQ, hloose⟩ := ih (hbind x)
      exact ⟨_ :: loose, Q, .required hqs, hQ, .cons decide_eq_true hloose⟩
    | @optional x span d l hd =>
      obtain ⟨loose, Q, hqs, hQ, hloose⟩ := ih (hbind x)
      obtain ⟨hconfined, hcovers, htype⟩ := hps x span d List.mem_cons_self
      obtain ⟨hd, hgrade⟩ := hd
      obtain ⟨g, hg, hle, -⟩ := hgrade hconfined (hcovers P hP)
      refine ⟨_ :: loose, Q, .optional hg ?_ hqs, hQ, .cons decide_eq_true hloose⟩
      by_cases hx : e.OnlyInDeltas ns x
      · rw [decide_eq_true hx]
        exact .any
      · obtain ⟨ht, hs⟩ := htype hx
        rw [hd.typeOf?_eq, ne_eq, Option.some_inj] at ht hs
        rw [Ty.grade_of_ne hs ht] at hle
        exact hle.of_plain _

theorem Lifts.hasGrade_function {site : Site} {name : Option String} {ps qs : List Param}
    {body : Expr} {arrow : Bool} {l : Lifted}
    (hc : (Expr.function site name ps body arrow).Confined ns)
    (hP : P.Covers ns (.function site name ps body arrow))
    (hps : List.Forall₂ (Param.Lifts (Lifts ns)) ps qs) (hbody : Lifts ns body l)
    (ihps : List.Forall₂ (Param.Lifts fun d l => ∃ _ : Lifts ns d l,
      ∀ {P : Scope}, d.Confined ns → P.Covers ns d → l.HasGrade ns P d) ps qs)
    (ihbody : ∀ {P : Scope}, body.Confined ns → P.Covers ns body → l.HasGrade ns P body) :
    Lifted.HasGrade ns P (.function site name ps body arrow)
      ⟨if l.ty.isState then .toState else .valueToValue,
        .function site name qs l.expr arrow⟩ := by
  set e := Expr.function site name ps body arrow with he
  have hlifts : Lifts ns e _ := .function hps hbody
  -- A producer may not read its own name plainly, and to any other function it is a plain value.
  have hself : (P.withSelf name !l.ty.isState).Covers ns e := by
    cases name with
    | none => exact hP
    | some x =>
      refine hP.bind fun hl => hc.here.self x ?_
      rw [Expr.producerName?, if_pos]
      · rfl
      · rw [← he, hlifts.typeOf?_eq, if_pos (by simpa using hl)]
  have hdefaults : ∀ x span d, Param.optional x span d ∈ ps → d.Confined ns ∧
      (∀ P : Scope, P.Covers ns e → P.Covers ns d) ∧
      (¬ e.OnlyInDeltas ns x → d.typeOf? ns ≠ some .toState ∧ d.typeOf? ns ≠ some .state) := by
    intro x span d hd
    have hchild : d ∈ e.children := Expr.mem_children_of_mem_params hd
    refine ⟨hc.child hchild, fun P hP => hP.child rfl hchild, fun hx => hc.here.defaults d ?_⟩
    exact List.mem_filterMap.2 ⟨_, List.mem_filter.2 ⟨hd, decide_eq_true hx⟩, rfl⟩
  obtain ⟨loose, Q, hqs, hQ, hloose⟩ := gradedParams ihps hdefaults hself
  have hchild : body ∈ e.children := by simp [he, Expr.children]
  obtain ⟨g, hg, hle, -⟩ := ihbody (hc.child hchild) (hQ.child rfl hchild)
  by_cases hs : l.ty = .state
  · rw [hs] at hle hqs ⊢
    exact ⟨.function loose false, .function hqs hg hle, .any, loose, false, rfl, hloose⟩
  · have ht : l.ty ≠ .toState := by
      have := hc.here.handedOn body List.mem_cons_self
      rwa [hbody.typeOf?_eq, ne_eq, Option.some_inj] at this
    rw [Ty.grade_of_ne hs ht] at hle
    rw [Ty.isState_eq_false_iff.2 hs] at hqs ⊢
    exact ⟨.function loose true, .function hqs hg hle, .direct, loose, true, rfl, hloose⟩

/-! ### Lifted trees -/

theorem Lifts.operands {es : List Expr} {ls : List Lifted}
    (h : List.Forall₂ (fun e l => ∃ _ : Lifts ns e l,
      ∀ {P : Scope}, e.Confined ns → P.Covers ns e → l.HasGrade ns P e) es ls)
    (hes : ∀ e ∈ es, e.Confined ns ∧ P.Covers ns e) : Operands ns P es ls := by
  induction h with
  | nil => exact .nil
  | cons h _ ih =>
    rw [List.forall_mem_cons] at hes
    obtain ⟨he, hgrade⟩ := h
    exact .cons ⟨he, hgrade hes.1.1 hes.1.2⟩ (ih hes.2)

/-- Access to a property by its name, for `e.p` and for the delta expression `e.ns[p]`. -/
theorem Lifts.hasGrade_namedMember {site : Site} {o p e : Expr} {l : Lifted} (ho : Lifts ns o l)
    (hgo : l.HasGrade ns P o) (hlit : ∀ g, e.FitsLiteral ns g) :
    (Lifted.namedMember site l p).HasGrade ns P e := by
  have hkey : Lifts.Operands ns P [o, .string (.synthetic p.span) (p.ident?.getD "")]
      [l, ⟨.value, .string (.synthetic p.span) (p.ident?.getD "")⟩] :=
    .cons ⟨ho, hgo⟩ (.cons ⟨.leaf rfl, .plain, .literal rfl, .refl, trivial⟩ .nil)
  refine Lifted.hasGrade_operation Native.ofOperator?_member hkey (fun _ _ => rfl) ?_ hlit
  obtain ⟨g, hg, -⟩ := hgo
  exact fun _ => .member hg

/-- **The lifted form of a confined tree has a grade that says what its type says,** in every scope
that has all names that the tree reads plainly. -/
theorem Lifts.graded {e : Expr} {l : Lifted} (h : Lifts ns e l) (hc : e.Confined ns)
    (hP : P.Covers ns e) : l.HasGrade ns P e := by
  induction h using Lifts.induction generalizing P with
  | @leaf e h =>
    cases e with
    | ident _ x =>
      have hx : P x := by
        by_contra hx
        exact (hP x hx).1 rfl
      exact ⟨.plain, .plainName hx, .refl, trivial⟩
    | number | string | bool | null | undefined => exact ⟨.plain, .literal rfl, .refl, trivial⟩
    | _ => cases h
  | @unary site op e l he ih =>
    have hmem : e ∈ (Expr.unary site op e).children := List.mem_cons_self
    have hoperands : Operands ns P [e] [l] :=
      .cons ⟨he, ih (hc.child hmem) (hP.child rfl hmem)⟩ .nil
    exact Lifted.hasGrade_operation (Native.ofOperator?_unary op) hoperands (fun _ _ => rfl)
      (fun _ => .unary) fun _ => trivial
  | @binary site op a b l r ha hb iha ihb =>
    have hoperands : Operands ns P [a, b] [l, r] :=
      operands (.cons ⟨ha, iha⟩ (.cons ⟨hb, ihb⟩ .nil)) fun c hmem =>
        ⟨hc.child hmem, hP.child rfl hmem⟩
    exact Lifted.hasGrade_operation (Native.ofOperator?_binary op) hoperands (fun _ _ => rfl)
      (fun _ => .binary) fun _ => trivial
  | @logical site op a b l r ha hb iha ihb =>
    have hoperands : Operands ns P [a, b] [l, r] :=
      operands (.cons ⟨ha, iha⟩ (.cons ⟨hb, ihb⟩ .nil)) fun c hmem =>
        ⟨hc.child hmem, hP.child rfl hmem⟩
    refine Lifted.hasGrade_operation (Native.ofOperator?_logical op) hoperands
      (fun gs hgs => ⟨rfl, hgs.le_plain hc.here.handedOn⟩) (fun hs => ?_) fun _ => trivial
    obtain ⟨gs, hlist, hgs⟩ := Lifted.gradedList hoperands hs
    have hplain := hgs.le_plain hc.here.handedOn
    obtain _ | ⟨hl, _ | ⟨hr, _⟩⟩ := hlist
    exact .logical hl (hplain _ (by simp)) hr (hplain _ (by simp))
  | @call site f args lf ls hf hargs ihf ihargs =>
    have hmem : f ∈ (Expr.call site f args).children := List.mem_cons_self
    refine Lifted.hasGrade_application hc.here hf.ty_isLifted
      (ihf (hc.child hmem) (hP.child rfl hmem)) (operands ihargs fun c hmem => ?_)
    have hmem : c ∈ (Expr.call site f args).children := List.mem_cons_of_mem _ hmem
    exact ⟨hc.child hmem, hP.child rfl hmem⟩
  | @conditional site t c a lt lc la ty ht hlc hla hty iht ihc iha =>
    have hparts : ∀ b ∈ [t, c, a], b.Confined ns ∧ P.Covers ns b :=
      fun b hmem => ⟨hc.child hmem, hP.child rfl hmem⟩
    simp only [List.forall_mem_cons] at hparts
    obtain ⟨hpt, hpc, hpa, -⟩ := hparts
    exact Lifted.hasGrade_choose hc.here hty ht hlc (iht hpt.1 hpt.2) (ihc hpc.1 hpc.2)
      (iha hpa.1 hpa.2)
  | @array site es ls hes ih =>
    have hoperands : Operands ns P es ls := operands ih fun c hmem =>
      ⟨hc.child hmem, hP.child rfl hmem⟩
    refine Lifted.hasGrade_operation Native.ofOperator?_array hoperands
      (fun gs hgs => ⟨rfl, hgs.le_plain hc.here.handedOn⟩) (fun hs => ?_) fun _ => trivial
    obtain ⟨gs, hlist, hgs⟩ := Lifted.gradedList hoperands hs
    exact .array hlist (hgs.le_plain hc.here.handedOn)
  | @named site o p l ho ih =>
    have hmem : o ∈ (Expr.member site o p false).children := List.mem_cons_self
    exact hasGrade_namedMember ho (ih (hc.child hmem) (hP.child rfl hmem)) fun _ => trivial
  | @var site os ps name =>
    have hne : name ≠ ns := by
      have := hc.here.runtime
      simpa [Expr.isRuntime] using this
    exact ⟨.any, .name hne, .refl, trivial⟩
  | @hop site os hs ps inner name l ho ih =>
    have hbetween := hc.child (c := .member os inner (.ident hs ns) false) (by simp [Expr.children])
    have hinner := ih (hbetween.child (by simp [Expr.children])) fun x hx => (hP x hx).hop
    have hnamed : (Lifted.namedMember site l (.ident ps name)).HasGrade ns P
        (.member site inner (.ident ps name) false) :=
      hasGrade_namedMember ho hinner fun _ => trivial
    -- As a producer it may be called only, and that fails if it is a state.
    obtain ⟨g, hg, -⟩ := hnamed
    exact ⟨g, hg, .any, trivial⟩
  | @computed site o p l r hd ho hp iho ihp =>
    have hd : (Expr.member site o p true).stripDelta? ns = none := by simp [Expr.stripDelta?, hd]
    have hoperands : Operands ns P [o, p] [l, r] :=
      operands (.cons ⟨ho, iho⟩ (.cons ⟨hp, ihp⟩ .nil)) fun c hmem =>
        have hmem : c ∈ (Expr.member site o p true).children := by simpa [Expr.children] using hmem
        ⟨hc.child hmem, hP.child hd hmem⟩
    refine Lifted.hasGrade_operation Native.ofOperator?_member hoperands (fun _ _ => rfl)
      (fun _ => ?_) fun _ => trivial
    obtain _ | ⟨⟨-, g, hg, -⟩, -⟩ := hoperands
    exact .member hg
  | function hps hbody ihps ihbody => exact hasGrade_function hc hP hps hbody ihps ihbody

end DeltaForm
