import DeltaForm.Eval
import DeltaForm.Proofs.Lifting.DeltaFree
import DeltaForm.Proofs.Run

/-!
# Direct evaluation

`direct` evaluates a source tree without lifting it: it applies the operators to the values of their
operands, evaluates only the operands that are needed, and resolves a state as soon as a call yields
one. It asks lifting for types only, to know which calls yield states.
-/

namespace DeltaForm

/-- The type that lifting finds for a tree, if it finds one. -/
def Expr.typeOf? (ns : String) (e : Expr) : Option Ty := (e.lift ns).toOption.map Lifted.ty

namespace Sample

/-- A place for the nodes of sample trees. -/
def site : Site := .synthetic ⟨0, 0⟩

/-- `δ[f](x)`, which is a state. -/
def stateCall : Expr :=
  .call site (.member site (.ident site "δ") (.ident site "f") true) [.ident site "x"]

end Sample

/-- The type that lifting finds for a conditional with these branches, if it need not wait for its
test. -/
def Expr.branchTy? (ns : String) (span : Span) (consequent alternate : Expr) : Option Ty := do
  let c ← (consequent.lift ns).toOption
  let a ← (alternate.lift ns).toOption
  (Lifted.branchTy span c a).toOption

/-- Whether a conditional waits for its test although its branches are no states. -/
def Expr.delaysPlain (ns : String) (span : Span) (test consequent alternate : Expr) : Bool :=
  test.typeOf? ns == some .state && Expr.branchTy? ns span consequent alternate != some .state

mutual

/-- Evaluates a source tree directly. -/
def direct (ns : String) (depth : Nat) (env : Env) (e : Expr) : Run Value :=
  match depth with
  | 0 => Run.giveUp
  | depth + 1 =>
    match e with
    | .unary _ op e => do
      let v ← direct ns depth env e
      pure (Value.unary op v)
    | .binary _ op l r => do
      let v ← direct ns depth env l
      let w ← direct ns depth env r
      Run.ofExcept (Value.binary op v w)
    | .logical _ op l r => do
      let v ← direct ns depth env l
      if v.decides op then pure v else direct ns depth env r
    | .call _ f args => do
      let callee ← direct ns depth env f
      let vs ← directList ns depth env args
      let v ← call depth callee vs
      if f.typeOf? ns == some .toState then resolve depth v else pure v
    | .conditional site t c a => do
      let v ← direct ns depth env t
      let w ← if v.isTruthy then direct ns depth env c else direct ns depth env a
      if Expr.delaysPlain ns site.span t c a then resolve depth w else pure w
    | .array _ es => do
      let vs ← directList ns depth env es
      Run.fresh (.array · vs)
    | .member _ o p false => do
      let object ← direct ns depth env o
      Run.ofExcept (object.property (p.ident?.getD ""))
    | .member _ o p true =>
      match Expr.deltaOf? ns o p with
      | some (.var name) =>
        match env.get? name with
        | some v => pure v
        | none => Run.fail (.unbound name)
      | some (.hop inner name) => do
        let object ← direct ns depth env inner
        Run.ofExcept (object.property name)
      | none => do
        let object ← direct ns depth env o
        let key ← direct ns depth env p
        Run.ofExcept (object.property key.text)
    -- Literals, names and function literals mean what they mean to the interpreter.
    | e => eval (depth + 1) env e

/-- Evaluates source trees one after another. -/
def directList (ns : String) (depth : Nat) (env : Env) (es : List Expr) : Run (List Value) :=
  match depth with
  | 0 => Run.giveUp
  | depth + 1 =>
    match es with
    | [] => pure []
    | e :: es => do
      let v ← direct ns depth env e
      let vs ← directList ns depth env es
      pure (v :: vs)

end

namespace Expr

variable (ns : String)

/-- No function literal has a delta expression in it. -/
def PlainFunctions (e : Expr) : Prop :=
  e.Everywhere fun s => ∀ site name ps body arrow, s = .function site name ps body arrow →
    s.DeltaFree ns

/-- Whether a node is a delta expression that reads a property of a state. -/
def hopsFromState : Expr → Bool
  | member _ o p true =>
    match deltaOf? ns o p with
    | some (.hop inner _) => inner.typeOf? ns == some .state
    | _ => false
  | _ => false

/-- No delta expression reads a property of a state. -/
def PlainHops (e : Expr) : Prop := e.Everywhere fun s => s.hopsFromState ns = false

/-- Delta expressions stand outside of function literals, and none reads a property of a state. -/
structure Regular (e : Expr) : Prop where
  functions : e.PlainFunctions ns
  hops : e.PlainHops ns

variable {ns}

theorem Regular.child {e c : Expr} (h : e.Regular ns) (hc : c ∈ e.children) : c.Regular ns :=
  ⟨h.functions.child hc, h.hops.child hc⟩

end Expr

section Plain

variable {ns : String}

theorem Lifts.typeOf?_eq {e : Expr} {l : Lifted} (h : Lifts ns e l) :
    e.typeOf? ns = some l.ty := by
  rw [Expr.typeOf?, h.lift_eq]
  rfl

theorem Lifted.operation_ty_ne {span : Span} {name : String} {os : List Lifted} {plain : Expr}
    (h : (operation span name os plain).ty ≠ .state) :
    (∀ o ∈ os, o.ty ≠ .state) ∧ operation span name os plain = ⟨.value, plain⟩ := by
  cases hw : waits os with
  | true => rw [operation_of_waits hw] at h; exact absurd rfl h
  | false => exact ⟨waits_eq_false_iff.1 hw, operation_of_not_waits hw _ _ _⟩

theorem Lifted.application_ty_ne {site : Site} {callee : Lifted} {args : List Lifted}
    (h : (application site callee args).ty ≠ .state) :
    (∀ o ∈ callee :: args, o.ty ≠ .state) ∧ callee.ty ≠ .toState ∧
      application site callee args =
        ⟨callee.ty.returns, .call site callee.expr (args.map Lifted.expr)⟩ := by
  cases hw : waits (callee :: args) with
  | true => rw [application_of_waits hw] at h; exact absurd rfl h
  | false =>
    have hne : callee.ty ≠ .toState := by
      intro hc
      rw [application_of_toState hw hc] at h
      exact h rfl
    exact ⟨waits_eq_false_iff.1 hw, hne, application_of_ne hw hne site⟩

theorem Lifted.branchTy_ne {span : Span} {c a : Lifted} {ty : Ty}
    (h : branchTy span c a = .ok ty) (hty : ty ≠ .state) : c.ty ≠ .state ∧ a.ty ≠ .state := by
  unfold branchTy at h
  split at h
  · rename_i heq
    cases h
    exact ⟨hty, heq ▸ hty⟩
  · split at h
    · cases h
    · cases h
      rw [ne_eq, ← Ty.isState_iff, Ty.concat_isState] at hty
      simpa [← Ty.isState_iff] using hty

theorem Lifted.choose_ty_ne {site : Site} {ty : Ty} {test c a : Lifted}
    (hty : branchTy site.span c a = .ok ty) (h : (choose site ty test c a).ty ≠ .state) :
    test.ty ≠ .state ∧ c.ty ≠ .state ∧ a.ty ≠ .state ∧
      choose site ty test c a = ⟨ty, .conditional site test.expr c.expr a.expr⟩ := by
  have ht : test.ty ≠ .state := by
    intro ht
    rw [choose_of_eq ht] at h
    exact h rfl
  rw [choose_of_ne ht] at h
  obtain ⟨hc, ha⟩ := branchTy_ne hty h
  exact ⟨ht, hc, ha, by rw [choose_of_ne ht, branch_of_ne h, branch_of_ne h]⟩

theorem forall₂_ne_state {Q : Expr → Lifted → Prop} {es : List Expr} {ls : List Lifted}
    (h : List.Forall₂ (fun e l => l.ty ≠ .state → Q e l) es ls) (hs : ∀ l ∈ ls, l.ty ≠ .state) :
    List.Forall₂ Q es ls := by
  induction h with
  | nil => exact .nil
  | cons h _ ih =>
    exact .cons (h (hs _ List.mem_cons_self)) (ih fun l hl => hs l (List.mem_cons_of_mem _ hl))

theorem evalList_eq_directList {es : List Expr} {ls : List Lifted} {env : Env}
    (h : List.Forall₂ (fun e l => ∀ depth, eval depth env l.expr = direct ns depth env e) es ls)
    (depth : Nat) : evalList depth env (ls.map Lifted.expr) = directList ns depth env es := by
  induction h generalizing depth with
  | nil => cases depth <;> rfl
  | cons h _ ih =>
    cases depth with
    | zero => rfl
    | succ depth => simp only [List.map_cons, evalList, directList, h, ih]

/-- **A tree that is no state evaluates to what direct evaluation gives.** -/
theorem Lifts.eval_eq_direct {e : Expr} {l : Lifted} (h : Lifts ns e l) (hr : e.Regular ns)
    (hty : l.ty ≠ .state) (env : Env) (depth : Nat) :
    eval depth env l.expr = direct ns depth env e := by
  induction h using Lifts.induction generalizing depth with
  | @leaf e h => cases depth <;> cases e <;> first | rfl | cases h
  | unary _ ih =>
    obtain ⟨hs, ho⟩ := Lifted.operation_ty_ne hty
    have he := ih (hr.child (by simp [Expr.children])) (hs _ (by simp))
    rw [ho]
    cases depth with
    | zero => rfl
    | succ depth => simp only [eval, direct, he]
  | binary _ _ iha ihb =>
    obtain ⟨hs, ho⟩ := Lifted.operation_ty_ne hty
    have ha := iha (hr.child (by simp [Expr.children])) (hs _ (by simp))
    have hb := ihb (hr.child (by simp [Expr.children])) (hs _ (by simp))
    rw [ho]
    cases depth with
    | zero => rfl
    | succ depth => simp only [eval, direct, ha, hb]
  | logical _ _ iha ihb =>
    obtain ⟨hs, ho⟩ := Lifted.operation_ty_ne hty
    have ha := iha (hr.child (by simp [Expr.children])) (hs _ (by simp))
    have hb := ihb (hr.child (by simp [Expr.children])) (hs _ (by simp))
    rw [ho]
    cases depth with
    | zero => rfl
    | succ depth => simp only [eval, direct, ha, hb]
  | @call _ _ _ l _ hfun _ ihf ihargs =>
    obtain ⟨hs, hne, ho⟩ := Lifted.application_ty_ne hty
    have hcallee := ihf (hr.child (by simp [Expr.children])) (hs _ (by simp))
    have hargs := forall₂_ne_state
      (forall₂_of_mem ihargs fun e he => hr.child (by simp [Expr.children, he]))
      fun l hl => hs l (by simp [hl])
    rw [ho]
    cases depth with
    | zero => rfl
    | succ depth =>
      have hty : (some l.ty == some Ty.toState) = false := by simpa using hne
      simp only [eval, direct, hcallee, evalList_eq_directList hargs, hfun.typeOf?_eq, hty,
        Bool.false_eq_true, ↓reduceIte, bind_pure]
  | @conditional _ _ _ _ lt _ _ _ ht _ _ hbranch iht ihc iha =>
    obtain ⟨hts, hcs, has, ho⟩ := Lifted.choose_ty_ne hbranch hty
    have htest := iht (hr.child (by simp [Expr.children])) hts
    have hc := ihc (hr.child (by simp [Expr.children])) hcs
    have ha := iha (hr.child (by simp [Expr.children])) has
    rw [ho]
    cases depth with
    | zero => rfl
    | succ depth =>
      have hty : (some lt.ty == some Ty.state) = false := by simpa using hts
      simp only [eval, direct, htest, hc, ha, Expr.delaysPlain, ht.typeOf?_eq, hty,
        Bool.false_and, Bool.false_eq_true, ↓reduceIte, bind_pure]
  | array _ ih =>
    obtain ⟨hs, ho⟩ := Lifted.operation_ty_ne hty
    have hes := forall₂_ne_state (forall₂_of_mem ih fun e he => hr.child he) hs
    rw [ho]
    cases depth with
    | zero => rfl
    | succ depth => simp only [eval, direct, evalList_eq_directList hes]
  | named _ ih =>
    obtain ⟨hs, ho⟩ := Lifted.operation_ty_ne hty
    have he := ih (hr.child (by simp [Expr.children])) (hs _ (by simp))
    rw [Lifted.namedMember, ho]
    cases depth with
    | zero => rfl
    | succ depth => simp [eval, direct, he]
  | @var _ _ _ name =>
    cases depth with
    | zero => rfl
    | succ depth => cases hv : env.get? name <;> simp [eval, direct, Expr.deltaOf?, hv]
  | @hop _ _ _ _ inner name l ho ih =>
    have hs : l.ty ≠ .state := by
      have := hr.hops.here
      simpa [Expr.hopsFromState, Expr.deltaOf?, ho.typeOf?_eq] using this
    have hinner := ih ((hr.child (.head _)).child (by simp [Expr.children])) hs
    rw [Lifted.namedMember_of_ne hs]
    cases depth with
    | zero => rfl
    | succ depth => simp [eval, direct, Expr.deltaOf?, Expr.ident?, hinner]
  | computed hd _ _ iho ihp =>
    obtain ⟨hs, heq⟩ := Lifted.operation_ty_ne hty
    have ho := iho (hr.child (by simp [Expr.children])) (hs _ (by simp))
    have hp := ihp (hr.child (by simp [Expr.children])) (hs _ (by simp))
    rw [Lifted.computedMember, heq]
    cases depth with
    | zero => rfl
    | succ depth => simp [eval, direct, hd, ho, hp]
  | function hps hbody _ _ =>
    have h := eq_untouched (.function hps hbody) (hr.functions.here _ _ _ _ _ rfl)
    rw [h]
    cases depth <;> rfl

end Plain

end DeltaForm
