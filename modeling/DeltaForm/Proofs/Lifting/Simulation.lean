import DeltaForm.Proofs.Lifting.Delivery
import DeltaForm.Proofs.Operators

/-!
# Lifting preserves meaning

Every lifted tree delivers what direct evaluation of its source tree yields (`Lifts.delivers`).
There is one rule for each kind of node that can wait; all other nodes are delivered as resolved
states. So resolution of what a lifted tree evaluates to yields what direct evaluation of its source
yields (`direct_of_lift`).

The other direction is not to be had: the runtime has both operands of `&&`, `||` and `??` resolved,
and may fail where direct evaluation does not look.
-/

namespace DeltaForm

open Run (Follows Gives)

variable {ns : String} {R : Meaning} {x : Expr} {env : Env}

/-! ### Operators that wait -/

section Operators

variable {site s s' : Site} {a b y : Expr}

theorem delivers_unary {op : UnaryOp} (h : Delivers (direct ns · · a) x) :
    Delivers (direct ns · · (.unary site op a))
      (.depend s true (.operator s' op.operatorName) [x]) := by
  refine delivers_operation (Native.ofOperator?_unary op) ?_
  intro i j k env a b c m d ss ws w hbc hss hws hw
  obtain ⟨v, ls, rfl, hdrawn, hgives⟩ := h.single hbc hss hws
  cases hw
  refine ⟨ls ++ [], by simpa using hdrawn, ?_⟩
  exact hgives.bind (Run.gives_pure fun f => Value.unary_rename op v)

theorem delivers_binary {op : BinaryOp} (ha : Delivers (direct ns · · a) x)
    (hb : Delivers (direct ns · · b) y) :
    Delivers (direct ns · · (.binary site op a b))
      (.depend s true (.operator s' op.symbol) [x, y]) := by
  refine delivers_operation (Native.ofOperator?_binary op) ?_
  intro i j k env a b c m d ss ws w hbc hss hws hw
  obtain ⟨v, v', ls, ls', rfl, hdrawn, hgives, hgives'⟩ := ha.pair hb hbc hss hws
  obtain ⟨i, rfl, hresult⟩ := Follows.gives (k := 0)
    (fun _ _ => Run.follows_ofExcept fun f hf => Value.binary_rename hf op v v') hw
  have hall := hdrawn.append (Drawn.late i) hbc
  rw [List.append_assoc] at hall
  exact ⟨_, hall, hgives.bind (hgives'.bind hresult)⟩

/-- The runtime has both operands resolved. Direct evaluation leaves the second one alone if the
first one decides. -/
theorem delivers_logical {op : LogicalOp} (ha : Delivers (direct ns · · a) x)
    (hb : Delivers (direct ns · · b) y) :
    Delivers (direct ns · · (.logical site op a b))
      (.depend s true (.operator s' op.symbol) [x, y]) := by
  refine delivers_operation (Native.ofOperator?_logical op) ?_
  intro i j k env a b c m d ss ws w hbc hss hws hw
  obtain ⟨v, v', ls, ls', rfl, hdrawn, hgives, hgives'⟩ := ha.pair hb hbc hss hws
  obtain ⟨rfl, rfl⟩ : (if v.decides op then v else v') = w ∧ m = d := by
    cases hw
    exact ⟨rfl, rfl⟩
  cases hdecides : v.decides op with
  | true =>
    refine ⟨ls ++ [], by simpa using hdrawn.left, hgives.bind ?_⟩
    simp only [Value.decides_rename, hdecides, ↓reduceIte]
    exact Run.gives_pure fun f => rfl
  | false =>
    refine ⟨ls ++ ls', hdrawn, hgives.bind ?_⟩
    simp only [Value.decides_rename, hdecides]
    exact hgives'

theorem delivers_array {es xs : List Expr}
    (h : List.Forall₂ (fun e x => Delivers (direct ns · · e) x) es xs) :
    Delivers (direct ns · · (.array site es)) (.depend s true (.operator s' arrayOperator) xs) := by
  refine delivers_operation Native.ofOperator?_array ?_
  intro i j k env a b c m d ss ws w hbc hss hws hw
  obtain ⟨ls, hdrawn, hgives⟩ := delivers_list h hbc hss hws
  have hfresh : Follows Value.rename (Run.fresh (.array · ws)) fun f =>
      Run.fresh (.array · (Value.renameList f ws)) := Run.follows_fresh fun f l => rfl
  obtain ⟨i, rfl, hresult⟩ := Follows.gives (k := 0) (fun _ _ => hfresh) hw
  exact ⟨_, hdrawn.append (Drawn.late i) hbc, hgives.bind hresult⟩

theorem delivers_member {R' R'' : Meaning} (h : Delivers R x) (h' : Delivers R' y)
    (hR : ∀ n env, R'' (n + 1) env = do
      let v ← R n env
      let v' ← R' n env
      Run.ofExcept (v.property v'.text)) :
    Delivers R'' (.depend s true (.operator s' memberOperator) [x, y]) := by
  refine delivers_operation Native.ofOperator?_member ?_
  intro i j k env a b c m d ss ws w hbc hss hws hw
  obtain ⟨v, v', ls, ls', rfl, hdrawn, hgives, hgives'⟩ := h.pair h' hbc hss hws
  obtain ⟨i, rfl, hresult⟩ := Follows.gives (k := 0)
    (fun _ _ => Run.follows_ofExcept fun f _ => Value.property_rename v v'.text) hw
  have hall := hdrawn.append (Drawn.late i) hbc
  rw [List.append_assoc] at hall
  refine ⟨_, hall, ?_⟩
  simp only [hR]
  refine hgives.bind (hgives'.bind ?_)
  simpa only [Value.text_rename] using hresult

end Operators

/-! ### Lifted trees -/

theorem Lifted.operation_expr_of_state {span : Span} {name : String} {os : List Lifted}
    {plain : Expr} (h : (operation span name os plain).ty = .state) :
    (operation span name os plain).expr =
      .depend (.synthetic span) true (.operator (.synthetic span) name) (os.map asState) := by
  cases hw : waits os with
  | true => rw [operation_of_waits hw]; rfl
  | false => rw [operation_of_not_waits hw] at h; cases h

theorem mirrors_string (site : Site) (key : String) :
    Mirrors (fun _ _ => pure (.string key)) (.string site key) := by
  intro j env a b v hv
  cases j with
  | zero => cases hv
  | succ j => cases hv; exact ⟨0, rfl, Run.gives_pure fun f => rfl⟩

theorem Lifts.mirrors {e : Expr} {l : Lifted} (h : Lifts ns e l) (hr : e.Regular ns)
    (hty : l.ty ≠ .state) : Mirrors (direct ns · · e) l.expr := by
  intro j env a b v hv
  obtain ⟨i, rfl, hgives⟩ := Follows.gives (fun n hn => (followsTo hn).eval env l.expr) hv
  simp only [h.eval_eq_direct hr hty] at hgives
  exact ⟨i, rfl, hgives⟩

/-- A tree that is no state delivers its value as a resolved state. -/
theorem Lifts.delivers_of {e : Expr} {l : Lifted} (h : Lifts ns e l) (hr : e.Regular ns)
    (hs : l.ty = .state → Delivers (direct ns · · e) l.expr) :
    Delivers (direct ns · · e) l.asState := by
  by_cases hty : l.ty = .state
  · rw [Lifted.asState_of_eq hty]
    exact hs hty
  · rw [Lifted.asState_of_ne hty]
    exact (h.mirrors hr hty).delivers _

theorem forall₂_delivers {es : List Expr} {ls : List Lifted}
    (h : List.Forall₂ (fun e l => ∃ _ : Lifts ns e l,
      e.Regular ns → Delivers (direct ns · · e) l.asState) es ls) (hr : ∀ e ∈ es, e.Regular ns) :
    List.Forall₂ (fun e x => Delivers (direct ns · · e) x) es (ls.map Lifted.asState) :=
  List.forall₂_map_right_iff.2 (forall₂_of_mem h hr)

theorem Lifts.delivers_call {site : Site} {e : Expr} {es : List Expr} {l : Lifted}
    {ls : List Lifted} (he : Lifts ns e l) (hes : List.Forall₂ (Lifts ns) es ls)
    (hr : (Expr.call site e es).Regular ns) (h : Delivers (direct ns · · e) l.asState)
    (hs : List.Forall₂ (fun e x => Delivers (direct ns · · e) x) es (ls.map Lifted.asState))
    (hty : (Lifted.application site l ls).ty = .state) :
    Delivers (direct ns · · (.call site e es)) (Lifted.application site l ls).expr := by
  cases hw : Lifted.waits (l :: ls) with
  | true =>
    rw [Lifted.application_of_waits hw]
    refine DeltaForm.delivers_call h hs fun n env => ?_
    by_cases hc : l.ty = .toState <;> simp [direct, he.typeOf?_eq, hc]
  | false =>
    have hplain := Lifted.waits_eq_false_iff.1 hw
    rw [List.forall_mem_cons] at hplain
    by_cases hc : l.ty = .toState
    · rw [Lifted.application_of_toState hw hc]
      refine delivers_wrap fun n env => ?_
      have hcallee := he.eval_eq_direct (hr.child (by simp [Expr.children])) hplain.1 env n
      have hargs := forall₂_ne_state (forall₂_of_mem
        (hes.imp fun e l h => ⟨h, fun hr hne => h.eval_eq_direct hr hne env⟩)
        fun e he => hr.child (by simp [Expr.children, he])) hplain.2
      simp [direct, he.typeOf?_eq, hc, hcallee, evalList_eq_directList hargs]
    · -- No other function of a lifted type yields a state.
      rw [Lifted.application_of_ne hw hc] at hty
      rcases he.ty_isLifted with h | h | h | h
      · rw [h] at hty; cases hty
      · exact absurd h hplain.1
      · rw [h] at hty; cases hty
      · exact absurd h hc

theorem Lifts.delaysPlain_eq {span : Span} {t c a : Expr} {lt lc la : Lifted} {ty : Ty}
    (ht : Lifts ns t lt) (hc : Lifts ns c lc) (ha : Lifts ns a la)
    (hty : Lifted.branchTy span lc la = .ok ty) :
    Expr.delaysPlain ns span t c a = (lt.ty == .state && ty != .state) := by
  simp [Expr.delaysPlain, Expr.branchTy?, ht.typeOf?_eq, hc.lift_eq, ha.lift_eq, hty,
    Except.toOption, bne]

theorem Lifts.delivers_conditional {site : Site} {t c a : Expr} {lt lc la : Lifted} {ty : Ty}
    (ht : Lifts ns t lt) (hc : Lifts ns c lc) (ha : Lifts ns a la)
    (hty : Lifted.branchTy site.span lc la = .ok ty)
    (hr : (Expr.conditional site t c a).Regular ns) (hst : Delivers (direct ns · · t) lt.asState)
    (hsc : Delivers (direct ns · · c) lc.asState) (hsa : Delivers (direct ns · · a) la.asState)
    (hs : (Lifted.choose site ty lt lc la).ty = .state) :
    Delivers (direct ns · · (.conditional site t c a)) (Lifted.choose site ty lt lc la).expr := by
  have hdelays := delaysPlain_eq ht hc ha hty
  by_cases htest : lt.ty = .state
  · rw [Lifted.asState_of_eq htest] at hst
    rw [Lifted.choose_of_eq htest]
    by_cases hbranch : ty = .state
    · rw [Lifted.branch_of_eq hbranch, Lifted.branch_of_eq hbranch]
      refine delivers_choice hst hsc.settles hsa.settles fun n env => ?_
      simp [direct, hdelays, htest, hbranch]
    · obtain ⟨hcs, has⟩ := Lifted.branchTy_ne hty hbranch
      rw [Lifted.branch_of_ne hbranch, Lifted.branch_of_ne hbranch]
      refine delivers_choice hst (hc.mirrors (hr.child (by simp [Expr.children])) hcs).settles
        (ha.mirrors (hr.child (by simp [Expr.children])) has).settles fun n env => ?_
      simp [direct, hdelays, htest, hbranch]
  · rw [Lifted.choose_of_ne htest] at hs ⊢
    cases hs
    rw [Lifted.branch_of_eq rfl, Lifted.branch_of_eq rfl]
    refine DeltaForm.delivers_conditional (ht.mirrors (hr.child (by simp [Expr.children])) htest)
      hsc hsa fun n env => ?_
    simp [direct, hdelays]

/-- **A lifted tree delivers what its source tree means.** -/
theorem Lifts.delivers {e : Expr} {l : Lifted} (h : Lifts ns e l) (hr : e.Regular ns) :
    Delivers (direct ns · · e) l.asState := by
  -- A node that is no state is delivered by `delivers_of`, so each case is about nodes that wait.
  induction h using Lifts.induction with
  | leaf h => exact (Lifts.leaf h).delivers_of hr fun h => by cases h
  | unary he ih =>
    refine (Lifts.unary he).delivers_of hr fun hty => ?_
    rw [Lifted.operation_expr_of_state hty]
    exact delivers_unary (ih (hr.child (by simp [Expr.children])))
  | binary ha hb iha ihb =>
    refine (Lifts.binary ha hb).delivers_of hr fun hty => ?_
    rw [Lifted.operation_expr_of_state hty]
    exact delivers_binary (iha (hr.child (by simp [Expr.children])))
      (ihb (hr.child (by simp [Expr.children])))
  | logical ha hb iha ihb =>
    refine (Lifts.logical ha hb).delivers_of hr fun hty => ?_
    rw [Lifted.operation_expr_of_state hty]
    exact delivers_logical (iha (hr.child (by simp [Expr.children])))
      (ihb (hr.child (by simp [Expr.children])))
  | call he hes ih ihs =>
    refine (Lifts.call he hes).delivers_of hr fun hty => ?_
    exact he.delivers_call hes hr (ih (hr.child (by simp [Expr.children])))
      (forall₂_delivers ihs fun e he => hr.child (by simp [Expr.children, he])) hty
  | conditional ht hc ha hty iht ihc iha =>
    refine (Lifts.conditional ht hc ha hty).delivers_of hr ?_
    exact ht.delivers_conditional hc ha hty hr (iht (hr.child (by simp [Expr.children])))
      (ihc (hr.child (by simp [Expr.children]))) (iha (hr.child (by simp [Expr.children])))
  | array hes ih =>
    refine (Lifts.array hes).delivers_of hr fun hty => ?_
    rw [Lifted.operation_expr_of_state hty]
    exact delivers_array (forall₂_delivers ih fun e he => hr.child he)
  | named ho ih =>
    refine (Lifts.named ho).delivers_of hr fun hty => ?_
    rw [Lifted.namedMember, Lifted.operation_expr_of_state hty]
    refine delivers_member (ih (hr.child (by simp [Expr.children])))
      ((mirrors_string _ _).delivers _) fun n env => rfl
  | var => exact Lifts.var.delivers_of hr fun h => by cases h
  | hop ho => exact (Lifts.hop ho).delivers_of hr fun h => by cases h
  | computed hd ho hp iho ihp =>
    refine (Lifts.computed hd ho hp).delivers_of hr fun hty => ?_
    rw [Lifted.computedMember, Lifted.operation_expr_of_state hty]
    refine delivers_member (iho (hr.child (by simp [Expr.children])))
      (ihp (hr.child (by simp [Expr.children]))) fun n env => ?_
    simp only [direct, hd]
  | function hps hbody =>
    refine (Lifts.function hps hbody).delivers_of hr fun h => ?_
    simp only at h
    split at h <;> cases h

/-! ### The meaning of lifted trees -/

/-- Different labels can be renamed to the first ones from `a` on while those below `a` are kept. -/
theorem exists_renaming {ls : List Nat} {a : Nat} (h : ls.Nodup) (ha : ∀ x ∈ ls, a ≤ x) :
    ∃ f : Nat → Nat, Function.Injective f ∧ (∀ x < a, f x = x) ∧
      ls.map f = List.range' a ls.length := by
  -- All other labels move out of the way.
  refine ⟨fun x => if x ∈ ls then a + ls.idxOf x else if x < a then x else x + ls.length,
    fun x y hxy => ?_, fun x hx => ?_, ?_⟩
  · have hidx : ∀ z ∈ ls, ls.idxOf z < ls.length := fun z hz => List.idxOf_lt_length_of_mem hz
    simp only at hxy
    by_cases hx : x ∈ ls <;> by_cases hy : y ∈ ls <;> simp only [hx, hy, ↓reduceIte] at hxy
    · exact (List.idxOf_inj hx).1 (Nat.add_left_cancel hxy)
    · have := hidx x hx
      split at hxy <;> omega
    · have := hidx y hy
      split at hxy <;> omega
    · split at hxy <;> split at hxy <;> omega
  · have hmem : x ∉ ls := fun hmem => absurd (ha x hmem) (Nat.not_le.2 hx)
    simp [hmem, hx]
  · refine List.ext_getElem (by simp) fun i hi _ => ?_
    have hi : i < ls.length := by simpa using hi
    simp [h.idxOf_getElem i hi]

/-- **Lifting preserves meaning.** A lifted tree that is no state runs as direct evaluation of its
source does, and fails or stops where it does. If it is a state, whatever its resolution yields is,
up to the labels of new values, what direct evaluation yields. -/
theorem direct_of_lift {e : Expr} {l : Lifted} (hform : e.LambdaForm) (hr : e.Regular ns)
    (h : e.lift ns = .ok l) (env : Env) :
    (l.ty ≠ .state → ∀ depth, eval depth env l.expr = direct ns depth env e) ∧
      (l.ty = .state → ∀ (j k m m' : Nat) (w : Value), env.Below m →
        (eval j env l.expr >>= resolve k) m = .ok (w, m') →
        ∃ f m'' depth, Function.Injective f ∧ (∀ x < m, f x = x) ∧
          ∀ n, depth ≤ n → direct ns n env e m = .ok (w.rename f, m'')) := by
  have hl := Lifts.of_lift hform h
  refine ⟨fun hty => hl.eval_eq_direct hr hty env, fun hty j k m m' w henv hrun => ?_⟩
  have hdelivers := hl.delivers hr
  rw [Lifted.asState_of_eq hty] at hdelivers
  obtain ⟨s, b, hs, hw⟩ := Run.bind_eq_ok_iff.1 hrun
  obtain ⟨ls, hdrawn, depth, hgives⟩ := hdelivers.settles hs hw
  obtain ⟨f, hf, hkeep, hls⟩ := exists_renaming (a := m) hdrawn.nodup fun x hx => by
    have := hdrawn.mem x hx
    omega
  refine ⟨f, m + ls.length, depth, hf, hkeep, fun n hn => ?_⟩
  -- The renaming leaves the environment alone, since it keeps all labels that were in use.
  have hdirect : direct ns n (env.rename f) e m = _ := hgives n hn hf hls
  rwa [henv f hkeep] at hdirect

namespace Sample

/-- `[δ[f](x)]`, which is a state. -/
def stateArray : Expr := .array site [stateCall]

/-- An environment where `f` looks `"k"` up in a table. -/
def tableEnv : Env :=
  [("f", .native 0 (.lookup "f" (.object 1 [("k", .string "v")]))), ("x", .string "k")]

end Sample

/-- The new array has the label 6 after resolution. -/
theorem direct_of_lift_stateArray :
    ∃ l, Sample.stateArray.lift "δ" = .ok l ∧ l.ty = .state ∧
      (eval 9 Sample.tableEnv l.expr >>= resolve 9) 2 = .ok (.array 6 [.string "v"], 7) ∧
      ∃ f m depth, Function.Injective f ∧ (∀ x < 2, f x = x) ∧ ∀ n, depth ≤ n →
        direct "δ" n Sample.tableEnv Sample.stateArray 2 =
          .ok ((Value.array 6 [.string "v"]).rename f, m) := by
  have hform : Sample.stateArray.LambdaForm := by
    simp [Expr.LambdaForm, Expr.everywhere_iff_forall, Expr.children, Expr.isRuntimeForm,
      Sample.stateArray, Sample.stateCall]
  have hr : Sample.stateArray.Regular "δ" := by
    constructor
    · simp [Expr.PlainFunctions, Expr.everywhere_iff_forall, Expr.children, Sample.stateArray,
        Sample.stateCall]
    · simp [Expr.PlainHops, Expr.everywhere_iff_forall, Expr.children, Sample.stateArray,
        Sample.stateCall, Expr.hopsFromState, Expr.deltaOf?]
  have hlift : Sample.stateArray.lift "δ" = .ok _ := rfl
  have henv : Sample.tableEnv.Below 2 := by
    intro f hf
    simp [Sample.tableEnv, Env.rename, Value.rename, Native.rename, hf]
  exact ⟨_, hlift, rfl, rfl,
    (direct_of_lift hform hr hlift Sample.tableEnv).2 rfl 9 9 2 7 _ henv rfl⟩

end DeltaForm
