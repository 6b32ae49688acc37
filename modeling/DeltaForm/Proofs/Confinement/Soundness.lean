import DeltaForm.Proofs.Confinement.Grades

/-!
# Soundness of grades

A tree yields values of its grade, in every environment that fits the scope (`soundTo`). A call that
a grade accepts yields a plain value, or a state if the grade does not promise a plain one. So a
state with a grade resolves to a plain value (`resolvesTo`): whatever number of calls the
resolution makes, no state is left over.
-/

namespace DeltaForm

variable {ns : String}

/-- What a call yields: a plain value, or a state if it is not `direct`. -/
def Value.Delivered (ns : String) (direct : Bool) (v : Value) : Prop :=
  v.Graded ns .plain ∨ direct = false ∧ v.Graded ns .state

theorem Value.Graded.delivered {v : Value} {g : Grade} {direct : Bool} (h : v.Graded ns g)
    (hg : g.Le (.yielded direct)) : v.Delivered ns direct := by
  cases direct with
  | true => exact .inl (h.mono hg)
  | false => exact .inr ⟨rfl, h.mono hg⟩

theorem Value.Delivered.loose {v : Value} {direct : Bool} (h : v.Delivered ns direct) :
    v.Delivered ns false :=
  h.imp_right fun h => ⟨rfl, h.2⟩

theorem Value.graded_list {vs : List Value} {gs : List Grade}
    (hvs : List.Forall₂ (Value.Graded ns) gs vs) (hgs : ∀ g ∈ gs, g.Le .plain) :
    ∀ v ∈ vs, v.Graded ns .plain := by
  induction hvs with
  | nil => simp
  | cons hv _ ih =>
    rw [List.forall_mem_cons] at hgs ⊢
    exact ⟨hv.mono hgs.1, ih hgs.2⟩

theorem graded_argument_of_plain {args : List Value} (h : ∀ a ∈ args, a.Graded ns .plain)
    (i : Nat) : (argument args i).Graded ns .plain := by
  rw [argument]
  cases hi : args[i]? with
  | none => exact .undefined
  | some v => exact h v (List.mem_of_getElem? hi)

/-! ### Evaluation -/

/-- Evaluation and calls to a depth yield values of the grades of trees. -/
structure SoundTo (ns : String) (depth : Nat) : Prop where
  eval : ∀ {P : Scope} {env : Env} {e : Expr} {g : Grade}, env.Graded ns P → e.Graded ns P g →
    Run.Yields (Value.Graded ns g) (eval depth env e)
  evalList : ∀ {P : Scope} {env : Env} {es : List Expr} {gs : List Grade}, env.Graded ns P →
    Expr.GradedList ns P es gs →
    Run.Yields (List.Forall₂ (Value.Graded ns) gs) (evalList depth env es)
  /-- A state that is made to be an operand keeps the grade of what is in it. -/
  evalSuccess : ∀ {P : Scope} {env : Env} {site : Site} {e : Expr} {g : Grade}, env.Graded ns P →
    e.Graded ns P g →
    Run.Yields (Value.Awaited (Value.Graded ns) g) (DeltaForm.eval depth env (.success site e))
  evalOperands : ∀ {P : Scope} {env : Env} {es : List Expr} {gs : List Grade}, env.Graded ns P →
    Expr.GradedOperands ns P es gs →
    Run.Yields (List.Forall₂ (Value.Awaited (Value.Graded ns)) gs)
      (DeltaForm.evalList depth env es)
  bindParams : ∀ {P Q : Scope} {env : Env} {ps : List Param} {args : List Value}
    {loose : List Bool} {gs : List Grade}, env.Graded ns P →
    Expr.GradedParams ns P ps loose Q → List.Forall₂ (Value.Graded ns) gs args →
    Grade.Suit gs loose → Run.Yields (Env.Graded ns Q) (bindParams depth env ps args)
  call : ∀ {f : Value} {args : List Value} {g : Grade} {gs : List Grade} {direct : Bool},
    f.Graded ns g → List.Forall₂ (Value.Graded ns) gs args → g.Accepts gs direct →
    Run.Yields (Value.Delivered ns direct) (call depth f args)
  callNative : ∀ {op : Native} {lifted : Bool} {args : List Value} {gs : List Grade},
    List.Forall₂ (Value.Graded ns) gs args → op.Handles lifted gs →
    Run.Yields (Value.Delivered ns lifted) (callNative depth op args)

namespace SoundTo

variable {depth : Nat} {P Q : Scope} {env : Env} {gs : List Grade} {args : List Value}

theorem zero : SoundTo ns 0 := by
  constructor <;> intros <;> exact Run.ends_giveUp trivial

theorem evalSuccess_succ (ih : SoundTo ns depth) {site : Site} {e : Expr} {g : Grade}
    (henv : env.Graded ns P) (he : e.Graded ns P g) :
    Run.Yields (Value.Awaited (Value.Graded ns) g)
      (DeltaForm.eval (depth + 1) env (.success site e)) := by
  refine (ih.eval henv he).bind fun v hv => ?_
  exact Run.ends_fresh fun _ => .success hv

theorem evalList_succ (ih : SoundTo ns depth) {es : List Expr} (henv : env.Graded ns P)
    (hes : Expr.GradedList ns P es gs) :
    Run.Yields (List.Forall₂ (Value.Graded ns) gs) (DeltaForm.evalList (depth + 1) env es) := by
  cases hes with
  | nil => exact Run.ends_pure .nil
  | cons he hes =>
    refine (ih.eval henv he).bind fun v hv => ?_
    refine (ih.evalList henv hes).bind fun vs hvs => ?_
    exact Run.ends_pure (.cons hv hvs)

theorem evalOperands_succ (ih : SoundTo ns depth) {es : List Expr} (henv : env.Graded ns P)
    (hes : Expr.GradedOperands ns P es gs) :
    Run.Yields (List.Forall₂ (Value.Awaited (Value.Graded ns)) gs)
      (DeltaForm.evalList (depth + 1) env es) := by
  cases hes with
  | nil => exact Run.ends_pure .nil
  | state he hes =>
    refine (ih.eval henv he).bind fun v hv => ?_
    refine (ih.evalOperands henv hes).bind fun vs hvs => ?_
    exact Run.ends_pure (.cons (.state hv) hvs)
  | success he hes =>
    refine (ih.evalSuccess henv he).bind fun v hv => ?_
    refine (ih.evalOperands henv hes).bind fun vs hvs => ?_
    exact Run.ends_pure (.cons hv hvs)

/-- The operator that a waiting call names is made whenever it is evaluated. -/
theorem eval_native {f : Expr} {op : Native} (hf : f.native? = some op) :
    Run.Yields (fun v => ∃ l, v = .native l op) (DeltaForm.eval depth env f) := by
  cases depth with
  | zero => exact Run.ends_giveUp trivial
  | succ depth =>
    cases f with
    | operator _ name =>
      rw [Expr.native?] at hf
      rw [DeltaForm.eval, hf]
      exact Run.ends_fresh fun l => ⟨l, rfl⟩
    | choice =>
      cases hf
      exact Run.ends_fresh fun l => ⟨l, rfl⟩
    | _ => cases hf

theorem eval_succ (ih : SoundTo ns depth) {e : Expr} {g : Grade} (henv : env.Graded ns P)
    (he : e.Graded ns P g) :
    Run.Yields (Value.Graded ns g) (DeltaForm.eval (depth + 1) env e) := by
  cases he with
  | literal h =>
    cases e with
    | number | string | bool | null | undefined => exact Run.ends_pure (by constructor)
    | _ => cases h
  | @plainName _ _ x h =>
    rw [DeltaForm.eval]
    cases hget : env.get? x with
    | some v => exact Run.ends_pure (henv.plain x v hget h)
    | none => exact Run.ends_fail trivial
  | @name _ _ x h =>
    rw [DeltaForm.eval]
    cases hget : env.get? x with
    | some v => exact Run.ends_pure (henv.any x v hget h)
    | none => exact Run.ends_fail trivial
  | unary =>
    refine (Run.yields_true _).bind fun v _ => ?_
    exact Run.ends_pure (Value.graded_of_isPrimitive (Value.unary_isPrimitive _ v))
  | binary =>
    refine (Run.yields_true _).bind fun v _ => (Run.yields_true _).bind fun w _ => ?_
    refine Run.ends_ofExcept (fun u hu => ?_) fun _ _ => trivial
    exact Value.graded_of_isPrimitive (Value.isPrimitive_of_binary hu)
  | logical hl hgl hr hgr =>
    refine (ih.eval henv hl).bind fun v hv => ?_
    split
    · exact Run.ends_pure (hv.mono hgl)
    · exact (ih.eval henv hr).mono fun w hw => hw.mono hgr
  | call hf hargs h =>
    refine (ih.eval henv hf).bind fun v hv => (ih.evalList henv hargs).bind fun vs hvs => ?_
    refine (ih.call hv hvs h).mono fun w hw => ?_
    exact hw.resolve_right (by simp)
  | conditional hc hgc ha hga =>
    -- Whatever the test yields, a branch is evaluated next.
    refine (Run.yields_true _).bind fun v _ => ?_
    split
    · exact (ih.eval henv hc).mono fun w hw => hw.mono hgc
    · exact (ih.eval henv ha).mono fun w hw => hw.mono hga
  | array hes hgs =>
    refine (ih.evalList henv hes).bind fun vs hvs => ?_
    exact Run.ends_fresh fun _ => .array (Value.graded_list hvs hgs)
  | member ho =>
    refine (ih.eval henv ho).bind fun v hv => ?_
    have hproperty (key : String) :
        Run.Yields (Value.Graded ns .plain) (Run.ofExcept (v.property key)) :=
      Run.ends_ofExcept (fun w hw => hv.of_property hw) fun _ _ => trivial
    split
    · exact (Run.yields_true _).bind fun key _ => hproperty key.text
    · exact hproperty _
  | function hps hbody hg =>
    exact Run.ends_fresh fun _ => .closure hps hbody hg henv.any henv.plain
  | success he hg =>
    refine (ih.eval henv he).bind fun v hv => ?_
    exact Run.ends_fresh fun _ => .success (hv.mono hg)
  | wrap hf hargs h =>
    refine (ih.eval henv hf).bind fun v hv => (ih.evalList henv hargs).bind fun vs hvs => ?_
    exact Run.ends_fresh fun _ => .deferred hv hvs h
  | operator hf hargs h =>
    refine (eval_native hf).bind fun v hv => (ih.evalOperands henv hargs).bind fun vs hvs => ?_
    obtain ⟨l, rfl⟩ := hv
    exact Run.ends_fresh fun _ => .operator hvs h
  | depend h hg hlifted =>
    cases h with
    | state hf hargs =>
      refine (ih.eval henv hf).bind fun v hv => (ih.evalOperands henv hargs).bind fun vs hvs => ?_
      exact Run.ends_fresh fun _ => .depend (.state hv) hvs hg hlifted
    | success hf hargs =>
      refine (ih.evalSuccess henv hf).bind fun v hv => ?_
      refine (ih.evalOperands henv hargs).bind fun vs hvs => ?_
      exact Run.ends_fresh fun _ => .depend hv hvs hg hlifted

theorem bindParams_succ (ih : SoundTo ns depth) {ps : List Param} {loose : List Bool}
    (henv : env.Graded ns P) (hps : Expr.GradedParams ns P ps loose Q)
    (hargs : List.Forall₂ (Value.Graded ns) gs args) (h : Grade.Suit gs loose) :
    Run.Yields (Env.Graded ns Q) (DeltaForm.bindParams (depth + 1) env ps args) := by
  cases hps with
  | nil => exact Run.ends_pure henv
  | required hps =>
    obtain ⟨harg, hargs, h⟩ := graded_arguments hargs h
    exact ih.bindParams (henv.bind harg) hps hargs h
  | @optional _ _ x span d ps loose rest g hd hg hps =>
    obtain ⟨harg, hargs, h⟩ := graded_arguments hargs h
    rw [DeltaForm.bindParams]
    refine Run.Ends.bind (P := Value.Graded ns (.taken loose)) ?_ fun v hv =>
      ih.bindParams (henv.bind hv) hps hargs h
    -- The default stands in for a missing argument.
    split
    · exact (ih.eval henv hd).mono fun v hv => hv.mono hg
    · exact Run.ends_pure harg

/-- A call of a function literal with arguments that suit its parameters. -/
theorem call_closure (ih : SoundTo ns depth) {f : Value} {loose : List Bool} {direct : Bool}
    (hf : f.Graded ns (.function loose direct)) (hargs : List.Forall₂ (Value.Graded ns) gs args)
    (h : Grade.Suit gs loose) :
    Run.Yields (Value.Delivered ns direct) (DeltaForm.call (depth + 1) f args) := by
  have hself := hf
  cases hf with
  | closure hps hbody hg hany hplain =>
    have henv : Env.Graded ns _ _ := ⟨hany, hplain⟩
    refine (ih.bindParams (henv.withSelf hself) hps hargs h).bind fun env henv => ?_
    exact (ih.eval henv hbody).mono fun v hv => hv.delivered hg

theorem call_state {f : Value} (hf : f.Graded ns .state) {R : Value → Prop} :
    Run.Yields R (DeltaForm.call (depth + 1) f args) := by
  cases hf <;> exact Run.ends_fail trivial

theorem call_plain (ih : SoundTo ns depth) {f : Value} (hf : f.Graded ns .plain)
    (hargs : List.Forall₂ (Value.Graded ns) gs args) (hgs : ∀ g ∈ gs, g.Le .plain) :
    Run.Yields (Value.Delivered ns true) (DeltaForm.call (depth + 1) f args) := by
  cases hf with
  | direct h => exact ih.call_closure h hargs (Grade.suit_of_plain hgs _)
  | _ => exact Run.ends_fail trivial

theorem call_lookup {l : Label} {name : String} {table : Value} (h : table.Graded ns .plain) :
    Run.Yields (Value.Delivered ns false)
      (DeltaForm.call (depth + 1) (.native l (.lookup name table)) args) := by
  cases depth with
  | zero => exact Run.ends_giveUp trivial
  | succ =>
    refine (Run.ends_ofExcept (fun w hw => h.of_property hw) fun _ _ => trivial).bind fun v hv => ?_
    exact Run.ends_fresh fun _ => .inr ⟨rfl, .success hv⟩

theorem call_succ (ih : SoundTo ns depth) {f : Value} {g : Grade} {direct : Bool}
    (hf : f.Graded ns g) (hargs : List.Forall₂ (Value.Graded ns) gs args)
    (h : g.Accepts gs direct) :
    Run.Yields (Value.Delivered ns direct) (DeltaForm.call (depth + 1) f args) := by
  cases h with
  | plain hgs => exact ih.call_plain hf hargs hgs
  | state => exact call_state hf
  | function h => exact ih.call_closure hf hargs h
  | any hgs =>
    -- What is called is not known, but plain arguments suit all parameters.
    rcases hf.lookup_or with ⟨l, name, table, rfl, htable⟩ | ⟨g, hg, hf⟩
    · exact call_lookup htable
    · cases g with
      | plain => exact (ih.call_plain hf hargs hgs).mono fun _ => .loose
      | any => exact absurd rfl hg
      | state => exact call_state hf
      | function loose direct =>
        exact (ih.call_closure hf hargs (Grade.suit_of_plain hgs _)).mono fun _ => .loose

theorem callNative_succ (ih : SoundTo ns depth) {op : Native} {lifted : Bool}
    (hargs : List.Forall₂ (Value.Graded ns) gs args) (h : op.Handles lifted gs) :
    Run.Yields (Value.Delivered ns lifted) (DeltaForm.callNative (depth + 1) op args) := by
  cases op with
  | unary op =>
    exact Run.ends_pure (.inl (Value.graded_of_isPrimitive (Value.unary_isPrimitive op _)))
  | binary op =>
    refine Run.ends_ofExcept (fun w hw => .inl ?_) fun _ _ => trivial
    exact Value.graded_of_isPrimitive (Value.isPrimitive_of_binary hw)
  | member =>
    refine Run.ends_ofExcept (fun w hw => .inl ?_) fun _ _ => trivial
    cases hargs with
    | nil => cases hw
    | cons ho _ => exact ho.of_property hw
  | logical op =>
    have harg := graded_argument_of_plain (Value.graded_list hargs h.2)
    refine Run.ends_pure (.inl ?_)
    split
    · exact harg 0
    · exact harg 1
  | array => exact Run.ends_fresh fun _ => .inl (.array (Value.graded_list hargs h.2))
  | choice =>
    obtain ⟨rfl, g, loose, direct, loose', direct', rfl⟩ := h
    obtain _ | ⟨ht, _ | ⟨hc, _ | ⟨ha, _ | _⟩⟩⟩ := hargs
    -- A branch is a function without parameters.
    have hcall {f : Value} {loose : List Bool} {direct : Bool}
        (hf : f.Graded ns (.function loose direct)) :
        Run.Yields (Value.Delivered ns false) (DeltaForm.call depth f []) :=
      (ih.call hf .nil (.function trivial)).mono fun _ => .loose
    rw [DeltaForm.callNative]
    split
    · exact hcall hc
    · exact hcall ha
  | success | depend | lookup => cases h

end SoundTo

/-- **Grades are sound for evaluation.** -/
theorem soundTo (ns : String) (depth : Nat) : SoundTo ns depth := by
  induction depth with
  | zero => exact .zero
  | succ depth ih =>
    exact ⟨ih.eval_succ, ih.evalList_succ, ih.evalSuccess_succ, ih.evalOperands_succ,
      ih.bindParams_succ, ih.call_succ, ih.callNative_succ⟩

/-! ### Resolution -/

/-- A value that is no state is its own result. -/
theorem yields_resolve_of_not_isState {v : Value} {R : Value → Prop} (h : v.isState = false)
    (hv : R v) (depth : Nat) : Run.Yields R (resolve depth v) := by
  cases depth with
  | zero => exact Run.ends_giveUp trivial
  | succ depth =>
    cases v with
    | state => cases h
    | _ => exact Run.ends_pure hv

theorem yields_call_native {l : Label} {op : Native} {lifted : Bool} {args : List Value}
    {gs : List Grade} (hargs : List.Forall₂ (Value.Graded ns) gs args) (h : op.Handles lifted gs)
    (depth : Nat) : Run.Yields (Value.Delivered ns lifted) (call depth (.native l op) args) := by
  cases depth with
  | zero => exact Run.ends_giveUp trivial
  | succ depth => exact (soundTo ns depth).callNative hargs h

/-- Resolution to a depth leaves no state over. -/
structure ResolvesTo (ns : String) (depth : Nat) : Prop where
  resolve : ∀ {v : Value}, v.Graded ns .state →
    Run.Yields (Value.Graded ns .plain) (resolve depth v)
  resolveOperand : ∀ {v : Value} {g : Grade}, v.Awaited (Value.Graded ns) g →
    Run.Yields (Value.Graded ns g) (DeltaForm.resolve depth v)
  resolveList : ∀ {vs : List Value} {gs : List Grade},
    List.Forall₂ (Value.Awaited (Value.Graded ns)) gs vs →
    Run.Yields (List.Forall₂ (Value.Graded ns) gs) (resolveList depth vs)

namespace ResolvesTo

variable {depth : Nat}

theorem zero : ResolvesTo ns 0 := by
  constructor <;> intros <;> exact Run.ends_giveUp trivial

theorem resolve_delivered (ih : ResolvesTo ns depth) {v : Value} {direct : Bool}
    (hv : v.Delivered ns direct) :
    Run.Yields (Value.Graded ns .plain) (DeltaForm.resolve depth v) := by
  rcases hv with hv | ⟨-, hv⟩
  · exact yields_resolve_of_not_isState hv.isState_eq_false hv depth
  · exact ih.resolve hv

/-- The result of a call that waited is resolved once more unless it is plain. -/
theorem resolve_result (ih : ResolvesTo ns depth) {v : Value} {lifted direct : Bool}
    (hv : v.Delivered ns direct) (hlifted : lifted = true → direct = true) :
    Run.Yields (Value.Graded ns .plain)
      (if lifted then pure v else DeltaForm.resolve depth v) := by
  split
  · rename_i hl
    exact Run.ends_pure (hv.resolve_right (by simp [hlifted hl]))
  · exact ih.resolve_delivered hv

theorem resolve_succ (ih : ResolvesTo ns depth) {v : Value} (hv : v.Graded ns .state) :
    Run.Yields (Value.Graded ns .plain) (DeltaForm.resolve (depth + 1) v) := by
  cases hv with
  | success h => exact Run.ends_pure h
  | deferred hf hargs h =>
    exact ((soundTo ns depth).call hf hargs h).bind fun v hv => ih.resolve_delivered hv
  | @operator l l' lifted op args gs hargs h =>
    have hop : Run.Yields (Eq (.native l' op)) (DeltaForm.resolve depth (.native l' op)) :=
      yields_resolve_of_not_isState rfl rfl depth
    refine hop.bind fun f hf => (ih.resolveList hargs).bind fun args hargs => ?_
    subst hf
    exact (yields_call_native hargs h depth).bind fun v hv => ih.resolve_result hv id
  | depend hf hargs h hlifted =>
    refine (ih.resolveOperand hf).bind fun f hf => (ih.resolveList hargs).bind fun args hargs => ?_
    exact ((soundTo ns depth).call hf hargs h).bind fun v hv => ih.resolve_result hv hlifted

theorem resolveOperand_succ (ih : ResolvesTo ns depth) {v : Value} {g : Grade}
    (hv : v.Awaited (Value.Graded ns) g) :
    Run.Yields (Value.Graded ns g) (DeltaForm.resolve (depth + 1) v) := by
  cases hv with
  | state h => exact ih.resolve_succ h
  | success h => exact Run.ends_pure h

theorem resolveList_succ (ih : ResolvesTo ns depth) {vs : List Value} {gs : List Grade}
    (hvs : List.Forall₂ (Value.Awaited (Value.Graded ns)) gs vs) :
    Run.Yields (List.Forall₂ (Value.Graded ns) gs) (DeltaForm.resolveList (depth + 1) vs) := by
  cases hvs with
  | nil => exact Run.ends_pure .nil
  | cons hv hvs =>
    refine (ih.resolveOperand hv).bind fun v hv => (ih.resolveList hvs).bind fun vs hvs => ?_
    exact Run.ends_pure (.cons hv hvs)

end ResolvesTo

/-- **A state with a grade resolves to a plain value.** -/
theorem resolvesTo (ns : String) (depth : Nat) : ResolvesTo ns depth := by
  induction depth with
  | zero => exact .zero
  | succ depth ih => exact ⟨ih.resolve_succ, ih.resolveOperand_succ, ih.resolveList_succ⟩

/-- Whatever has a grade resolves to something that is no state. -/
theorem isState_eq_false_of_resolve {v : Value} {g : Grade} (hv : v.Graded ns g) (depth : Nat) :
    Run.Yields (·.isState = false) (resolve depth v) := by
  cases hs : v.isState with
  | false => exact yields_resolve_of_not_isState hs hs depth
  | true =>
    exact ((resolvesTo ns depth).resolve (hv.of_isState hs)).mono fun _ h => h.isState_eq_false

end DeltaForm
