import DeltaForm.Proofs.Lifting.Direct

/-!
# Where states stand in lifted trees

A tree is **state-shaped** if it builds a state wherever it is evaluated: a resolved state, a
deferred call, a waiting call, or a conditional between two such trees. A state should only meet the
dependency runtime, so no state-shaped tree should be an operand, a callee, a test or an object of
an ordinary node, nor inside a resolved state (`Expr.StatesWait`).

Lifting types `o.ns[m]` as a function whatever the type of `o`. If `o` is a state, the lifted tree
is a waiting call all the same: it **hides** a state (`Expr.hidesState`). The main statement,
`statesWait_lift_iff`, is that these trees are the only ones that can bring a state into a plain
place, and that they do so in every place but the branches of conditionals, the bodies of functions
and the defaults of parameters.
-/

namespace DeltaForm

namespace Expr

/-- Whether a tree builds a state wherever it is evaluated. -/
def isStateShaped : Expr → Bool
  | success .. | wrap .. | depend .. => true
  | conditional _ _ c a => c.isStateShaped && a.isStateShaped
  | _ => false

/-- The parts of a node whose values are used at once, or stored in a resolved state. A waiting call
resolves its parts first, and a branch, a body or a default is handed on. -/
def plainPlaces : Expr → List Expr
  | unary _ _ e => [e]
  | binary _ _ l r => [l, r]
  | logical _ _ l r => [l, r]
  | call _ f args => f :: args
  | conditional _ t _ _ => [t]
  | array _ es => es
  | member _ o p computed => if computed then [o, p] else [o]
  | success _ v => [v]
  | wrap _ f args => f :: args
  | _ => []

/-- No state-shaped tree stands in a plain place. -/
def StatesWait (e : Expr) : Prop :=
  e.Everywhere fun s => ∀ o ∈ s.plainPlaces, o.isStateShaped = false

variable (ns : String)

/-- Whether a tree has the type of a function and builds a state: a delta expression that reads a
property of a state, or a conditional between two such trees. -/
def hidesState : Expr → Bool
  | conditional _ t c a => t.typeOf? ns != some .state && c.hidesState && a.hidesState
  | e => e.hopsFromState ns

/-- No tree that hides a state stands in a plain place. -/
def NoStateHidden (e : Expr) : Prop :=
  e.Everywhere fun s => ∀ o ∈ s.plainPlaces, o.hidesState ns = false

end Expr

/-! ### Shapes -/

variable {ns : String}

theorem Lifted.operation_ty_isState {span : Span} {name : String} {os : List Lifted}
    {plain : Expr} : (operation span name os plain).ty.isState = waits os := by
  cases hw : waits os with
  | true => rw [operation_of_waits hw]; rfl
  | false => rw [operation_of_not_waits hw]; rfl

theorem Lifted.operation_isStateShaped {span : Span} {name : String} {os : List Lifted}
    {plain : Expr} (h : plain.isStateShaped = false) :
    (operation span name os plain).expr.isStateShaped =
      (operation span name os plain).ty.isState := by
  cases hw : waits os with
  | true => rw [operation_of_waits hw]; rfl
  | false => rw [operation_of_not_waits hw, h]; rfl

theorem Lifted.asState_isStateShaped {l : Lifted}
    (h : l.ty = .state → l.expr.isStateShaped = true) : l.asState.isStateShaped = true := by
  by_cases hs : l.ty = .state
  · rw [asState_of_eq hs]
    exact h hs
  · rw [asState_of_ne hs]
    rfl

theorem Lifted.choose_isStateShaped {site : Site} {ty : Ty} {t c a : Lifted} {hc ha : Bool}
    (hty : branchTy site.span c a = .ok ty)
    (hcs : c.expr.isStateShaped = (c.ty.isState || hc))
    (has : a.expr.isStateShaped = (a.ty.isState || ha)) :
    (choose site ty t c a).expr.isStateShaped =
      ((choose site ty t c a).ty.isState || (!t.ty.isState && hc && ha)) := by
  by_cases ht : t.ty = .state
  · rw [choose_of_eq ht, ht]
    rfl
  · rw [choose_of_ne ht]
    by_cases hs : ty = .state
    · simp only [branch_of_eq hs, Expr.isStateShaped]
      rw [asState_isStateShaped fun h => by rw [hcs, h]; rfl,
        asState_isStateShaped fun h => by rw [has, h]; rfl, hs]
      rfl
    · obtain ⟨hc', ha'⟩ := branchTy_ne hty hs
      simp [branch_of_ne hs, Expr.isStateShaped, hcs, has, Ty.isState_eq_false_iff.2 ht,
        Ty.isState_eq_false_iff.2 hs, Ty.isState_eq_false_iff.2 hc',
        Ty.isState_eq_false_iff.2 ha']

/-- **The shape of a lifted tree:** it is that of a state if it has the state type or hides a
state. -/
theorem Lifts.isStateShaped_eq {e : Expr} {l : Lifted} (h : Lifts ns e l) :
    l.expr.isStateShaped = (l.ty.isState || e.hidesState ns) := by
  induction h using Lifts.induction with
  | @leaf e h => cases e <;> first | rfl | cases h
  | unary | binary | logical | array | named =>
    simp only [Expr.hidesState, Expr.hopsFromState, Bool.or_false]
    exact Lifted.operation_isStateShaped rfl
  | computed hd =>
    simp only [Expr.hidesState, Expr.hopsFromState, hd, Bool.or_false]
    exact Lifted.operation_isStateShaped rfl
  | var =>
    simp [Expr.hidesState, Expr.hopsFromState, Expr.deltaOf?, Expr.isStateShaped, Ty.toState,
      Ty.isState]
  | @hop _ _ _ _ _ _ l ho _ =>
    rw [Lifted.namedMember, Lifted.operation_isStateShaped rfl, Lifted.operation_ty_isState]
    simp only [Expr.hidesState, Expr.hopsFromState, Expr.deltaOf?, ↓reduceIte, ho.typeOf?_eq]
    cases l with
    | mk ty _ => cases ty <;> rfl
  | @call site _ _ l ls hf _ ih _ =>
    simp only [Expr.hidesState, Expr.hopsFromState, Bool.or_false]
    cases hw : Lifted.waits (l :: ls) with
    | true => rw [Lifted.application_of_waits hw]; rfl
    | false =>
      by_cases hc : l.ty = .toState
      · rw [Lifted.application_of_toState hw hc]
        rfl
      · rw [Lifted.application_of_ne hw hc]
        have hne := Lifted.waits_eq_false_iff.1 hw l List.mem_cons_self
        rcases hf.ty_isLifted with h | h | h | h
        · rw [h]; rfl
        · exact absurd h hne
        · rw [h]; rfl
        · exact absurd h hc
  | @conditional _ _ _ _ lt _ _ _ ht _ _ hty _ ihc iha =>
    rw [Lifted.choose_isStateShaped hty ihc iha, Expr.hidesState, ht.typeOf?_eq]
    cases lt with
    | mk ty _ => cases ty <;> rfl
  | function _ _ _ _ =>
    simp only [Expr.hidesState, Expr.hopsFromState, Bool.or_false, Expr.isStateShaped]
    split <;> rfl

theorem Lifts.ty_of_hidesState {e : Expr} {l : Lifted} (h : Lifts ns e l)
    (hh : e.hidesState ns = true) : l.ty = .toState := by
  induction h using Lifts.induction with
  | @leaf e h => cases e <;> first | cases hh | cases h
  | unary | binary | logical | call | array | named | function => cases hh
  | computed hd => simp [Expr.hidesState, Expr.hopsFromState, hd] at hh
  | var => rfl
  | hop => rfl
  | @conditional _ _ _ _ lt lc la _ ht _ _ hty _ ihc iha =>
    simp only [Expr.hidesState, ht.typeOf?_eq, Bool.and_eq_true] at hh
    have ht : lt.ty ≠ .state := by simpa using hh.1.1
    rw [Lifted.choose_of_ne ht]
    simp only [Lifted.branchTy, ihc hh.1.2, iha hh.2, ↓reduceIte, Except.ok.injEq] at hty
    exact hty.symm

theorem Lifts.hidesState_eq_false {e : Expr} {l : Lifted} (h : Lifts ns e l)
    (hs : l.ty ≠ .toState) : e.hidesState ns = false :=
  Bool.eq_false_iff.2 fun hh => hs (h.ty_of_hidesState hh)

/-! ### Plain places -/

theorem Expr.statesWait_iff {e : Expr} :
    e.StatesWait ↔
      (∀ o ∈ e.plainPlaces, o.isStateShaped = false) ∧ ∀ c ∈ e.children, c.StatesWait :=
  everywhere_iff

theorem Expr.noStateHidden_iff {e : Expr} :
    e.NoStateHidden ns ↔
      (∀ o ∈ e.plainPlaces, o.hidesState ns = false) ∧ ∀ c ∈ e.children, c.NoStateHidden ns :=
  everywhere_iff

/-- A node all of whose parts are in plain places. -/
theorem Expr.statesWait_of_places {e : Expr} (h : e.plainPlaces = e.children) :
    e.StatesWait ↔ ∀ c ∈ e.children, c.isStateShaped = false ∧ c.StatesWait := by
  rw [statesWait_iff, h]
  exact forall₂_and.symm

theorem Expr.noStateHidden_of_places {e : Expr} (h : e.plainPlaces = e.children) :
    e.NoStateHidden ns ↔ ∀ c ∈ e.children, c.hidesState ns = false ∧ c.NoStateHidden ns := by
  rw [noStateHidden_iff, h]
  exact forall₂_and.symm

theorem Expr.statesWait_of_leaf {e : Expr} (h : e.children = []) (hp : e.plainPlaces = []) :
    e.StatesWait := by
  rw [statesWait_iff, h, hp]
  simp

theorem Expr.noStateHidden_of_leaf {e : Expr} (h : e.children = []) (hp : e.plainPlaces = []) :
    e.NoStateHidden ns := by
  rw [noStateHidden_iff, h, hp]
  simp

theorem Expr.noStateHidden_named {site : Site} {o p : Expr} :
    (Expr.member site o p false).NoStateHidden ns ↔
      o.hidesState ns = false ∧ o.NoStateHidden ns := by
  rw [noStateHidden_of_places rfl]
  simp [children]

theorem Expr.noStateHidden_conditional {site : Site} {t c a : Expr} :
    (Expr.conditional site t c a).NoStateHidden ns ↔
      t.hidesState ns = false ∧ t.NoStateHidden ns ∧ c.NoStateHidden ns ∧ a.NoStateHidden ns := by
  rw [noStateHidden_iff]
  simp only [plainPlaces, children, List.forall_mem_cons]
  simp

theorem Expr.noStateHidden_function {site : Site} {name : Option String} {ps : List Param}
    {body : Expr} {arrow : Bool} :
    (Expr.function site name ps body arrow).NoStateHidden ns ↔
      (∀ d ∈ ps.filterMap Param.default?, d.NoStateHidden ns) ∧ body.NoStateHidden ns := by
  rw [noStateHidden_iff]
  simp only [plainPlaces, children, List.forall_mem_append, List.forall_mem_singleton]
  simp

theorem Expr.noStateHidden_ident {site : Site} {name : String} :
    (Expr.ident site name).NoStateHidden ns :=
  noStateHidden_of_leaf rfl rfl

theorem Expr.statesWait_depend {site : Site} {lifted : Bool} {f : Expr} {args : List Expr} :
    (Expr.depend site lifted f args).StatesWait ↔ f.StatesWait ∧ ∀ a ∈ args, a.StatesWait := by
  rw [statesWait_iff]
  simp [plainPlaces, children]

theorem Expr.statesWait_function {site : Site} {name : Option String} {ps : List Param}
    {body : Expr} {arrow : Bool} :
    (Expr.function site name ps body arrow).StatesWait ↔
      (∀ d ∈ ps.filterMap Param.default?, d.StatesWait) ∧ body.StatesWait := by
  rw [statesWait_iff]
  simp only [plainPlaces, children, List.forall_mem_append, List.forall_mem_singleton]
  simp

namespace Lifted

theorem statesWait_asState_of_ne {l : Lifted} (h : l.ty ≠ .state) :
    l.asState.StatesWait ↔ l.expr.isStateShaped = false ∧ l.expr.StatesWait := by
  rw [asState_of_ne h, Expr.statesWait_of_places rfl]
  simp [Expr.children]

theorem statesWait_map_asState {os : List Lifted} (h : ∀ o ∈ os, o.ty ≠ .state) :
    (∀ o ∈ os, o.asState.StatesWait) ↔
      ∀ e ∈ os.map expr, e.isStateShaped = false ∧ e.StatesWait := by
  rw [List.forall_mem_map]
  exact forall₂_congr fun o ho => statesWait_asState_of_ne (h o ho)

/-- An operator has no state in a plain place if none of its operands, made states, has. -/
theorem statesWait_operation {span : Span} {name : String} {os : List Lifted} {plain : Expr}
    (hplain : plain.StatesWait ↔
      ∀ e ∈ os.map expr, e.isStateShaped = false ∧ e.StatesWait) :
    (operation span name os plain).expr.StatesWait ↔ ∀ o ∈ os, o.asState.StatesWait := by
  cases hw : waits os with
  | true =>
    rw [operation_of_waits hw, depend, Expr.statesWait_depend, List.forall_mem_map]
    exact and_iff_right (Expr.statesWait_of_leaf rfl rfl)
  | false =>
    rw [operation_of_not_waits hw, hplain, statesWait_map_asState (waits_eq_false_iff.1 hw)]

theorem statesWait_namedMember {site : Site} {object : Lifted} {p : Expr} :
    (namedMember site object p).expr.StatesWait ↔ object.asState.StatesWait := by
  have hkey (name : String) : (asState ⟨.value, .string (.synthetic p.span) name⟩).StatesWait := by
    rw [statesWait_asState_of_ne (by simp)]
    exact ⟨rfl, Expr.statesWait_of_leaf rfl rfl⟩
  rw [namedMember, statesWait_operation, List.forall_mem_cons, List.forall_mem_singleton,
    and_iff_left (hkey _)]
  have hleaf (name : String) : (Expr.string (.synthetic p.span) name).StatesWait :=
    Expr.statesWait_of_leaf rfl rfl
  rw [Expr.statesWait_of_places rfl]
  simp [Expr.children, Expr.isStateShaped, hleaf]

theorem statesWait_application {site : Site} {callee : Lifted} {args : List Lifted} :
    (application site callee args).expr.StatesWait ↔
      ∀ o ∈ callee :: args, o.asState.StatesWait := by
  cases hw : waits (callee :: args) with
  | true =>
    rw [application_of_waits hw, depend, Expr.statesWait_depend, List.forall_mem_map,
      List.forall_mem_cons]
  | false =>
    rw [statesWait_map_asState (waits_eq_false_iff.1 hw)]
    by_cases hc : callee.ty = .toState
    · rw [application_of_toState hw hc, Expr.statesWait_of_places rfl]
      rfl
    · rw [application_of_ne hw hc, Expr.statesWait_of_places rfl]
      rfl

theorem statesWait_delayed {body : Expr} : (delayed body).StatesWait ↔ body.StatesWait := by
  rw [delayed, Expr.statesWait_of_places rfl, Expr.children, List.forall_mem_singleton,
    Expr.statesWait_function]
  simp [Expr.isStateShaped]

theorem statesWait_choose {site : Site} {ty : Ty} {t c a : Lifted} :
    (choose site ty t c a).expr.StatesWait ↔
      (t.ty ≠ .state → t.expr.isStateShaped = false) ∧ t.expr.StatesWait ∧
        (branch ty c).StatesWait ∧ (branch ty a).StatesWait := by
  by_cases ht : t.ty = .state
  · rw [choose_of_eq ht, depend, Expr.statesWait_depend]
    have hchoice : (Expr.choice (.synthetic site.span)).StatesWait :=
      Expr.statesWait_of_leaf rfl rfl
    simp [hchoice, statesWait_delayed, ht]
  · rw [choose_of_ne ht, Expr.statesWait_iff]
    simp [Expr.plainPlaces, Expr.children, ht]

end Lifted

/-- What is to be shown of a tree and its lifted form, put for an operand: made a state, it has no
state in a plain place exactly if the source tree has none there and hides none. -/
theorem Lifts.statesWait_asState {e : Expr} {l : Lifted} (h : Lifts ns e l)
    (ih : l.expr.StatesWait ↔ e.NoStateHidden ns) :
    l.asState.StatesWait ↔ e.hidesState ns = false ∧ e.NoStateHidden ns := by
  by_cases hs : l.ty = .state
  · have hh : e.hidesState ns = false := h.hidesState_eq_false (by simp [hs, Ty.toState])
    rw [Lifted.asState_of_eq hs, ih]
    exact (and_iff_right hh).symm
  · rw [Lifted.statesWait_asState_of_ne hs, ih, h.isStateShaped_eq,
      Ty.isState_eq_false_iff.2 hs, Bool.false_or]

theorem Lifts.statesWait_operands {es : List Expr} {ls : List Lifted}
    (h : List.Forall₂ (fun e l => ∃ _ : Lifts ns e l, l.expr.StatesWait ↔ e.NoStateHidden ns)
      es ls) :
    (∀ l ∈ ls, l.asState.StatesWait) ↔ ∀ e ∈ es, e.hidesState ns = false ∧ e.NoStateHidden ns := by
  induction h with
  | nil => simp
  | cons he _ ih =>
    obtain ⟨he, ihe⟩ := he
    rw [List.forall_mem_cons, List.forall_mem_cons, he.statesWait_asState ihe, ih]

theorem Lifts.statesWait_params {ps qs : List Param}
    (h : List.Forall₂
      (Param.Lifts fun e l => ∃ _ : Lifts ns e l, l.expr.StatesWait ↔ e.NoStateHidden ns) ps qs) :
    (∀ d ∈ qs.filterMap Param.default?, d.StatesWait) ↔
      ∀ d ∈ ps.filterMap Param.default?, d.NoStateHidden ns := by
  induction h with
  | nil => simp
  | cons hp _ ih =>
    cases hp with
    | required => simpa [Param.default?] using ih
    | optional he =>
      obtain ⟨_, ihe⟩ := he
      simp only [List.filterMap_cons, Param.default?, List.forall_mem_cons, ihe, ih]

/-- A branch that hides a state fits to branches of its own type only. -/
theorem Lifted.branchTy_of_toState {span : Span} {c a : Lifted} {ty : Ty}
    (h : branchTy span c a = .ok ty) (hf : c.ty = .toState ∨ a.ty = .toState) : ty = .toState := by
  unfold branchTy at h
  split at h
  · rename_i heq
    cases h
    exact hf.elim id (heq ▸ ·)
  · rcases hf with hf | hf <;> simp [hf, Ty.isFunction, Ty.toState] at h

theorem Lifts.statesWait_branch {e : Expr} {l : Lifted} (h : Lifts ns e l) {ty : Ty}
    (hty : l.ty = .toState → ty = .toState) (ih : l.expr.StatesWait ↔ e.NoStateHidden ns) :
    (Lifted.branch ty l).StatesWait ↔ e.NoStateHidden ns := by
  by_cases hs : ty = .state
  · have hh : e.hidesState ns = false :=
      h.hidesState_eq_false fun hl => by simp [hs, Ty.toState] at hty; exact hty hl
    rw [Lifted.branch_of_eq hs, h.statesWait_asState ih]
    exact and_iff_right hh
  · rw [Lifted.branch_of_ne hs, ih]

theorem Lifts.test_isStateShaped_iff {e : Expr} {l : Lifted} (h : Lifts ns e l) :
    (l.ty ≠ .state → l.expr.isStateShaped = false) ↔ e.hidesState ns = false := by
  by_cases hs : l.ty = .state
  · simp [hs, h.hidesState_eq_false (by simp [hs, Ty.toState])]
  · simp [hs, h.isStateShaped_eq, Ty.isState_eq_false_iff.2 hs]

/-- **A lifted tree has a state in a plain place exactly if the source tree hides one there.** -/
theorem Lifts.statesWait_iff {e : Expr} {l : Lifted} (h : Lifts ns e l) :
    l.expr.StatesWait ↔ e.NoStateHidden ns := by
  induction h using Lifts.induction with
  | @leaf e h =>
    cases e with
    | number | string | bool | null | undefined | ident =>
      exact iff_of_true (Expr.statesWait_of_leaf rfl rfl) (Expr.noStateHidden_of_leaf rfl rfl)
    | _ => cases h
  | unary he ih =>
    rw [Lifted.statesWait_operation (Expr.statesWait_of_places rfl),
      statesWait_operands (.cons ⟨he, ih⟩ .nil), Expr.noStateHidden_of_places rfl]
    rfl
  | binary ha hb iha ihb =>
    rw [Lifted.statesWait_operation (Expr.statesWait_of_places rfl),
      statesWait_operands (.cons ⟨ha, iha⟩ (.cons ⟨hb, ihb⟩ .nil)),
      Expr.noStateHidden_of_places rfl]
    rfl
  | logical ha hb iha ihb =>
    rw [Lifted.statesWait_operation (Expr.statesWait_of_places rfl),
      statesWait_operands (.cons ⟨ha, iha⟩ (.cons ⟨hb, ihb⟩ .nil)),
      Expr.noStateHidden_of_places rfl]
    rfl
  | call hf _ ihf ihargs =>
    rw [Lifted.statesWait_application, statesWait_operands (.cons ⟨hf, ihf⟩ ihargs),
      Expr.noStateHidden_of_places rfl]
    rfl
  | array _ ih =>
    rw [Lifted.statesWait_operation (Expr.statesWait_of_places rfl), statesWait_operands ih,
      Expr.noStateHidden_of_places rfl]
    rfl
  | named ho ih =>
    rw [Lifted.statesWait_namedMember, ho.statesWait_asState ih, Expr.noStateHidden_named]
  | computed _ ho hp iho ihp =>
    rw [Lifted.computedMember, Lifted.statesWait_operation (Expr.statesWait_of_places rfl),
      statesWait_operands (.cons ⟨ho, iho⟩ (.cons ⟨hp, ihp⟩ .nil)),
      Expr.noStateHidden_of_places rfl]
    rfl
  | var =>
    refine iff_of_true (Expr.statesWait_of_leaf rfl rfl) ?_
    rw [Expr.noStateHidden_of_places rfl]
    simp [Expr.children, Expr.hidesState, Expr.hopsFromState, Expr.noStateHidden_ident]
  | @hop site os hs ps inner name _ ho ih =>
    have hplaces := @Expr.noStateHidden_of_places ns
      (.member site (.member os inner (.ident hs ns) false) (.ident ps name) true) rfl
    rw [Lifted.statesWait_namedMember, ho.statesWait_asState ih, hplaces]
    simp [Expr.children, Expr.hidesState, Expr.hopsFromState, Expr.noStateHidden_ident,
      Expr.noStateHidden_named]
  | conditional ht hc ha hty iht ihc iha =>
    rw [Lifted.statesWait_choose, ht.test_isStateShaped_iff, iht,
      hc.statesWait_branch (fun h => Lifted.branchTy_of_toState hty (.inl h)) ihc,
      ha.statesWait_branch (fun h => Lifted.branchTy_of_toState hty (.inr h)) iha,
      Expr.noStateHidden_conditional]
  | function _ _ ihps ihbody =>
    rw [Expr.statesWait_function, statesWait_params ihps, ihbody, Expr.noStateHidden_function]

/-- **States stay out of plain places exactly if none is hidden there.** -/
theorem statesWait_lift_iff {e : Expr} {l : Lifted} (hform : e.LambdaForm)
    (h : e.lift ns = .ok l) : l.expr.StatesWait ↔ e.NoStateHidden ns :=
  (Lifts.of_lift hform h).statesWait_iff

namespace Sample

/-- `(x ? δ[f](x) : x) + x`. -/
def stateSum : Expr :=
  .binary site .add (.conditional site (.ident site "x") stateCall (.ident site "x"))
    (.ident site "x")

/-- `δ[f](x).δ[m]()`. -/
def hiddenCall : Expr :=
  .call site (.member site (.member site stateCall (.ident site "δ") false) (.ident site "m") true)
    []

end Sample

/-- A sum waits for its operand, so no state is in a plain place. -/
theorem statesWait_lift_sum :
    ∃ l, Sample.stateSum.LambdaForm ∧ Sample.stateSum.lift "δ" = .ok l ∧ l.expr.StatesWait := by
  have hform : Sample.stateSum.LambdaForm := by
    simp [Expr.LambdaForm, Expr.everywhere_iff_forall, Expr.children, Expr.isRuntimeForm,
      Sample.stateSum, Sample.stateCall]
  have hnone : Sample.stateSum.NoStateHidden "δ" := by
    simp [Expr.NoStateHidden, Expr.everywhere_iff_forall, Expr.children, Expr.plainPlaces,
      Expr.hidesState, Expr.hopsFromState, Expr.deltaOf?, Sample.stateSum, Sample.stateCall]
  have hlift : Sample.stateSum.lift "δ" = .ok _ := rfl
  exact ⟨_, hform, hlift, (statesWait_lift_iff hform hlift).2 hnone⟩

/-- A method of a state is called although it is a state itself. -/
theorem not_statesWait_lift_hop :
    ∃ l, Sample.hiddenCall.LambdaForm ∧ Sample.hiddenCall.lift "δ" = .ok l ∧
      ¬ l.expr.StatesWait := by
  have hform : Sample.hiddenCall.LambdaForm := by
    simp [Expr.LambdaForm, Expr.everywhere_iff_forall, Expr.children, Expr.isRuntimeForm,
      Sample.hiddenCall, Sample.stateCall]
  exact ⟨_, hform, rfl, fun h => absurd (h.here _ (.head _)) (by decide)⟩

end DeltaForm
