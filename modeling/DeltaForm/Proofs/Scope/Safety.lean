import DeltaForm.Eval
import DeltaForm.Proofs.Operators
import DeltaForm.Proofs.Run
import DeltaForm.Proofs.Scope.Names

/-!
# Scope safety

A value is **safe** for a name if every function in it that reads the name has a binding for it in
its environment. Evaluation that starts with safe values, and with a binding for the name if the
tree reads it, never fails because the name is unbound, and makes safe values only. The same holds
of calls and of the resolution of states.
-/

namespace DeltaForm

/-- Whether an environment has a value for a name. -/
def Env.Binds (env : Env) (x : String) : Prop := x ∈ env.map Prod.fst

/-- Every function in the value that reads `x` has a binding for it. -/
inductive Value.Safe (x : String) : Value → Prop
  | undefined : Safe x .undefined
  | null : Safe x .null
  | bool {b : Bool} : Safe x (.bool b)
  | number {v : Float} : Safe x (.number v)
  | string {s : String} : Safe x (.string s)
  | array {l : Label} {vs : List Value} (h : ∀ v ∈ vs, Safe x v) : Safe x (.array l vs)
  | object {l : Label} {fs : List (String × Value)} (h : ∀ f ∈ fs, Safe x f.2) :
    Safe x (.object l fs)
  | closure {l : Label} {name : Option String} {ps : List Param} {body : Expr} {env : Env}
    (henv : ∀ b ∈ env, Safe x b.2)
    (h : name ≠ some x → Expr.ReadsUnder x ps body → env.Binds x) :
    Safe x (.closure l name ps body env)
  | native {l : Label} {f : Native} (h : ∀ name table, f = .lookup name table → Safe x table) :
    Safe x (.native l f)
  | success {l : Label} {v : Value} (h : Safe x v) : Safe x (.state l (.success v))
  | depend {l : Label} {lifted : Bool} {f : Value} {args : List Value} (hf : Safe x f)
    (hargs : ∀ a ∈ args, Safe x a) : Safe x (.state l (.depend lifted f args))
  | deferred {l : Label} {f : Value} {args : List Value} (hf : Safe x f)
    (hargs : ∀ a ∈ args, Safe x a) : Safe x (.state l (.deferred f args))

/-- All values of an environment are safe. -/
def Env.Safe (x : String) (env : Env) : Prop := ∀ b ∈ env, b.2.Safe x

/-- A run yields a safe value and does not fail because of the name. -/
abbrev Run.Safe (x : String) : Run Value → Prop :=
  Run.Ends (· ≠ .fault (.unbound x)) (Value.Safe x)

variable {x : String}

/-! ### Environments and operators -/

namespace Env

theorem get?_ne_none {env : Env} (h : env.Binds x) : env.get? x ≠ none := by
  obtain ⟨⟨name, v⟩, hb, rfl⟩ := List.mem_map.1 h
  intro hnone
  simpa using List.lookup_eq_none_iff.1 hnone _ hb

theorem Safe.get? {env : Env} {name : String} {v : Value} (h : env.Safe x)
    (hv : env.get? name = some v) : v.Safe x :=
  h _ (mem_of_lookup_eq_some hv)

theorem Safe.bind {env : Env} {name : String} {v : Value} (h : env.Safe x) (hv : v.Safe x) :
    (env.bind name v).Safe x :=
  List.forall_mem_cons.2 ⟨hv, h⟩

theorem binds_bind {env : Env} {name : String} {v : Value} :
    (env.bind name v).Binds x ↔ x = name ∨ env.Binds x :=
  List.mem_cons

end Env

theorem Value.safe_getD {o : Option Value} (h : ∀ v, o = some v → v.Safe x) :
    (o.getD .undefined).Safe x := by
  cases o with
  | none => exact .undefined
  | some v => exact h v rfl

theorem safe_argument {args : List Value} (h : ∀ a ∈ args, a.Safe x) (i : Nat) :
    (argument args i).Safe x :=
  Value.safe_getD fun v hv => h v (List.mem_of_getElem? hv)

namespace Value

theorem safe_of_isPrimitive {v : Value} (h : v.isPrimitive = true) : v.Safe x := by
  cases v with
  | undefined | null | bool | number | string => constructor
  | _ => cases h

theorem Safe.parts {v w : Value} (h : v.Safe x) (hw : w ∈ v.parts) : w.Safe x := by
  cases h with
  | array h => exact h w hw
  | object h =>
    obtain ⟨f, hf, rfl⟩ := List.mem_map.1 hw
    exact h f hf
  | _ => cases hw

theorem safe_property {v : Value} (h : v.Safe x) (key : String) :
    Run.Safe x (Run.ofExcept (v.property key)) := by
  refine Run.ends_ofExcept (fun w hw => ?_) ?_
  · exact (property_eq_ok hw).elim safe_of_isPrimitive h.parts
  · rintro f hf hx
    cases hx
    exact property_ne_unbound hf

theorem safe_binary (op : BinaryOp) (a b : Value) :
    Run.Safe x (Run.ofExcept (Value.binary op a b)) := by
  refine Run.ends_ofExcept (fun w hw => safe_of_isPrimitive (isPrimitive_of_binary hw)) ?_
  rintro f hf hx
  cases hx
  exact binary_ne_unbound hf

theorem safe_unary (op : UnaryOp) (v : Value) : (Value.unary op v).Safe x :=
  safe_of_isPrimitive (unary_isPrimitive op v)

end Value

/-! ### Evaluation -/

/-- Evaluation and calls to a depth are safe. -/
structure SafeTo (x : String) (depth : Nat) : Prop where
  eval : ∀ {env : Env} {e : Expr}, env.Safe x → (e.Reads x → env.Binds x) →
    Run.Safe x (eval depth env e)
  evalList : ∀ {env : Env} {es : List Expr}, env.Safe x → (∀ e ∈ es, e.Reads x → env.Binds x) →
    Run.Ends (· ≠ .fault (.unbound x)) (∀ v ∈ ·, v.Safe x) (evalList depth env es)
  call : ∀ {f : Value} {args : List Value}, f.Safe x → (∀ a ∈ args, a.Safe x) →
    Run.Safe x (call depth f args)
  bindParams : ∀ {env : Env} {ps : List Param} {args : List Value} (body : Expr), env.Safe x →
    (∀ a ∈ args, a.Safe x) → (Expr.ReadsUnder x ps body → env.Binds x) →
    Run.Ends (· ≠ .fault (.unbound x)) (fun env => env.Safe x ∧ (body.Reads x → env.Binds x))
      (bindParams depth env ps args)
  callNative : ∀ {f : Native} {args : List Value},
    (∀ name table, f = .lookup name table → table.Safe x) → (∀ a ∈ args, a.Safe x) →
    Run.Safe x (callNative depth f args)

namespace SafeTo

variable {depth : Nat}

theorem zero : SafeTo x 0 := by
  constructor <;> intros <;> exact Run.ends_giveUp (by simp)

theorem evalList_succ (ih : SafeTo x depth) {env : Env} {es : List Expr} (henv : env.Safe x)
    (hes : ∀ e ∈ es, e.Reads x → env.Binds x) :
    Run.Ends (· ≠ .fault (.unbound x)) (∀ v ∈ ·, v.Safe x)
      (DeltaForm.evalList (depth + 1) env es) := by
  cases es with
  | nil => exact Run.ends_pure (by simp)
  | cons e es =>
    rw [List.forall_mem_cons] at hes
    refine (ih.eval henv hes.1).bind fun v hv => ?_
    refine (ih.evalList henv hes.2).bind fun vs hvs => ?_
    exact Run.ends_pure (List.forall_mem_cons.2 ⟨hv, hvs⟩)

theorem eval_succ (ih : SafeTo x depth) {env : Env} {e : Expr} (henv : env.Safe x)
    (hx : e.Reads x → env.Binds x) : Run.Safe x (DeltaForm.eval (depth + 1) env e) := by
  -- A part of a node that is no function literal may read what the node may read.
  have hpart : ∀ c ∈ e.children, e.isFunction = false → c.Reads x → env.Binds x :=
    fun c hc hf h => hx (.child hc hf h)
  cases e with
  | number => exact Run.ends_pure .number
  | string => exact Run.ends_pure .string
  | bool => exact Run.ends_pure .bool
  | null => exact Run.ends_pure .null
  | undefined => exact Run.ends_pure .undefined
  | ident _ name =>
    rw [DeltaForm.eval]
    cases hget : env.get? name with
    | some v => exact Run.ends_pure (henv.get? hget)
    | none =>
      refine Run.ends_fail fun h => ?_
      cases h
      exact Env.get?_ne_none (hx .ident) hget
  | unary _ op e =>
    refine (ih.eval henv (hpart _ (by simp [Expr.children]) rfl)).bind fun v _ => ?_
    exact Run.ends_pure (Value.safe_unary op v)
  | binary _ op l r =>
    refine (ih.eval henv (hpart _ (by simp [Expr.children]) rfl)).bind fun v _ => ?_
    refine (ih.eval henv (hpart _ (by simp [Expr.children]) rfl)).bind fun w _ => ?_
    exact Value.safe_binary op v w
  | logical _ op l r =>
    refine (ih.eval henv (hpart _ (by simp [Expr.children]) rfl)).bind fun v hv => ?_
    split
    · exact Run.ends_pure hv
    · exact ih.eval henv (hpart _ (by simp [Expr.children]) rfl)
  | call _ f args =>
    refine (ih.eval henv (hpart _ (by simp [Expr.children]) rfl)).bind fun v hv => ?_
    refine (ih.evalList henv fun e he => hpart e (by simp [Expr.children, he]) rfl).bind
      fun vs hvs => ?_
    exact ih.call hv hvs
  | conditional _ t c a =>
    refine (ih.eval henv (hpart _ (by simp [Expr.children]) rfl)).bind fun v _ => ?_
    split
    · exact ih.eval henv (hpart _ (by simp [Expr.children]) rfl)
    · exact ih.eval henv (hpart _ (by simp [Expr.children]) rfl)
  | array _ es =>
    refine (ih.evalList henv fun e he => hpart e he rfl).bind fun vs hvs => ?_
    exact Run.ends_fresh fun _ => .array hvs
  | member _ o p computed =>
    refine (ih.eval henv (hpart _ (by cases computed <;> simp [Expr.children]) rfl)).bind
      fun v hv => ?_
    cases computed with
    | true =>
      refine (ih.eval henv (hpart _ (by simp [Expr.children]) rfl)).bind fun key _ => ?_
      exact Value.safe_property hv _
    | false => exact Value.safe_property hv _
  | function site name ps body arrow =>
    refine Run.ends_fresh fun _ => .closure henv fun hname hps => hx ?_
    exact Expr.reads_function_iff.2 ⟨hname, hps⟩
  | success _ e =>
    refine (ih.eval henv (hpart _ (by simp [Expr.children]) rfl)).bind fun v hv => ?_
    exact Run.ends_fresh fun _ => .success hv
  | wrap _ f args =>
    refine (ih.eval henv (hpart _ (by simp [Expr.children]) rfl)).bind fun v hv => ?_
    refine (ih.evalList henv fun e he => hpart e (by simp [Expr.children, he]) rfl).bind
      fun vs hvs => ?_
    exact Run.ends_fresh fun _ => .deferred hv hvs
  | depend _ lifted f args =>
    refine (ih.eval henv (hpart _ (by simp [Expr.children]) rfl)).bind fun v hv => ?_
    refine (ih.evalList henv fun e he => hpart e (by simp [Expr.children, he]) rfl).bind
      fun vs hvs => ?_
    exact Run.ends_fresh fun _ => .depend hv hvs
  | operator _ name =>
    rw [DeltaForm.eval]
    cases hop : Native.ofOperator? name with
    | some f =>
      have hne := Native.ne_lookup_of_ofOperator? hop
      exact Run.ends_fresh fun _ => .native fun n t hf => absurd hf (hne n t)
    | none => exact Run.ends_fail (by simp)
  | choice =>
    exact Run.ends_fresh fun _ => .native (by simp)

theorem call_succ (ih : SafeTo x depth) {f : Value} {args : List Value} (hf : f.Safe x)
    (hargs : ∀ a ∈ args, a.Safe x) : Run.Safe x (DeltaForm.call (depth + 1) f args) := by
  cases hf with
  | @closure l name ps body env henv h =>
    have hself := Value.Safe.closure (l := l) henv h
    refine (ih.bindParams body ?_ hargs ?_).bind fun env henv => ih.eval henv.1 henv.2
    · cases name with
      | none => exact henv
      | some name => exact Env.Safe.bind henv hself
    · intro hps
      cases name with
      | none => exact h (by simp) hps
      | some name =>
        by_cases hx : x = name
        · exact Env.binds_bind.2 (.inl hx)
        · exact Env.binds_bind.2 (.inr (h (by simpa using Ne.symm hx) hps))
  | native h => exact ih.callNative h hargs
  | _ => exact Run.ends_fail (by simp)

theorem bindParams_succ (ih : SafeTo x depth) {env : Env} {ps : List Param} {args : List Value}
    (body : Expr) (henv : env.Safe x) (hargs : ∀ a ∈ args, a.Safe x)
    (hps : Expr.ReadsUnder x ps body → env.Binds x) :
    Run.Ends (· ≠ .fault (.unbound x)) (fun env => env.Safe x ∧ (body.Reads x → env.Binds x))
      (DeltaForm.bindParams (depth + 1) env ps args) := by
  have htail : ∀ a ∈ args.tail, a.Safe x := fun a ha => hargs a (List.mem_of_mem_tail ha)
  have hbound : ∀ (p : Param) (ps : List Param) (v : Value),
      (Expr.ReadsUnder x (p :: ps) body → env.Binds x) →
      Expr.ReadsUnder x ps body → (env.bind p.name v).Binds x := by
    intro p ps v h hps
    by_cases hx : x = p.name
    · exact Env.binds_bind.2 (.inl hx)
    · exact Env.binds_bind.2 (.inr (h (.inr ⟨hx, hps⟩)))
  cases ps with
  | nil => exact Run.ends_pure ⟨henv, hps⟩
  | cons p ps =>
    cases p with
    | required name span =>
      exact ih.bindParams body (henv.bind (safe_argument hargs 0)) htail (hbound _ _ _ hps)
    | optional name span d =>
      rw [DeltaForm.bindParams]
      refine Run.Ends.bind (P := Value.Safe x) ?_ fun v hv =>
        ih.bindParams body (henv.bind hv) htail (hbound _ _ _ hps)
      have harg := safe_argument hargs 0
      split
      · exact ih.eval henv fun hd => hps (.inl ⟨d, rfl, hd⟩)
      · exact Run.ends_pure harg

theorem callNative_succ (ih : SafeTo x depth) {f : Native} {args : List Value}
    (hf : ∀ name table, f = .lookup name table → table.Safe x) (hargs : ∀ a ∈ args, a.Safe x) :
    Run.Safe x (DeltaForm.callNative (depth + 1) f args) := by
  have harg := safe_argument hargs
  cases f with
  | binary op => exact Value.safe_binary op _ _
  | logical op =>
    refine Run.ends_pure ?_
    split
    · exact harg 0
    · exact harg 1
  | unary op => exact Run.ends_pure (Value.safe_unary op _)
  | member => exact Value.safe_property (harg 0) _
  | array => exact Run.ends_fresh fun _ => .array hargs
  | choice =>
    simp only [DeltaForm.callNative]
    split
    · refine ih.call ?_ (by simp)
      split
      · exact hargs _ (by simp)
      · exact hargs _ (by simp)
    · exact Run.ends_fail (by simp)
  | success => exact Run.ends_fresh fun _ => .success (harg 0)
  | depend =>
    exact Run.ends_fresh fun _ => .depend (harg 1) fun a ha => hargs a (List.mem_of_mem_drop ha)
  | lookup name table =>
    refine (Value.safe_property (hf name table rfl) _).bind fun v hv => ?_
    exact Run.ends_fresh fun _ => .success hv

end SafeTo

/-- **Evaluation is scope-safe.** -/
theorem safeTo (x : String) (depth : Nat) : SafeTo x depth := by
  induction depth with
  | zero => exact .zero
  | succ depth ih =>
    exact ⟨ih.eval_succ, ih.evalList_succ, ih.call_succ, ih.bindParams_succ, ih.callNative_succ⟩

/-- **Resolution is scope-safe.** -/
theorem safe_resolve (depth : Nat) :
    (∀ v : Value, v.Safe x → Run.Safe x (resolve depth v)) ∧
      ∀ vs : List Value, (∀ v ∈ vs, v.Safe x) →
        Run.Ends (· ≠ .fault (.unbound x)) (∀ v ∈ ·, v.Safe x) (resolveList depth vs) := by
  induction depth with
  | zero => exact ⟨fun _ _ => Run.ends_giveUp (by simp), fun _ _ => Run.ends_giveUp (by simp)⟩
  | succ depth ih =>
    constructor
    · intro v hv
      cases hv with
      | success h => exact Run.ends_pure h
      | depend hf hargs =>
        refine (ih.1 _ hf).bind fun f hf => ?_
        refine (ih.2 _ hargs).bind fun args hargs => ?_
        refine ((safeTo x depth).call hf hargs).bind fun v hv => ?_
        split
        · exact Run.ends_pure hv
        · exact ih.1 v hv
      | deferred hf hargs => exact ((safeTo x depth).call hf hargs).bind fun v hv => ih.1 v hv
      | undefined => exact Run.ends_pure .undefined
      | null => exact Run.ends_pure .null
      | bool => exact Run.ends_pure .bool
      | number => exact Run.ends_pure .number
      | string => exact Run.ends_pure .string
      | array h => exact Run.ends_pure (.array h)
      | object h => exact Run.ends_pure (.object h)
      | closure henv h => exact Run.ends_pure (.closure henv h)
      | native h => exact Run.ends_pure (.native h)
    · intro vs hvs
      cases vs with
      | nil => exact Run.ends_pure (by simp)
      | cons v vs =>
        rw [List.forall_mem_cons] at hvs
        refine (ih.1 v hvs.1).bind fun v hv => ?_
        refine (ih.2 vs hvs.2).bind fun vs hvs => ?_
        exact Run.ends_pure (List.forall_mem_cons.2 ⟨hv, hvs⟩)

end DeltaForm
