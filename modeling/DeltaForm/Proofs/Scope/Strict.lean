import DeltaForm.Json
import DeltaForm.Program
import DeltaForm.Proofs.Scope.FreeNames
import DeltaForm.Proofs.Scope.Safety

/-!
# Strict mode

In strict mode a program runs only if all its free names have values. Then no name can be found
unbound while it runs or while its result is resolved, unless a default of a parameter reads the
name early: free names are collected as if a function bound all its parameters at once, but it binds
them one after another. A name that is read early is not among the free names, so strict mode asks
for no value for it.
-/

namespace DeltaForm

variable {x : String}

/-! ### Values from outside -/

/-- The value of a JSON document, or a function that looks its argument up in one. -/
inductive Value.IsInput : Value → Prop
  | data {document : Json} {l l' : Label} {v : Value} (h : document.toValue l = .ok (v, l')) :
    IsInput v
  | lookup {name : String} {document : Json} {l l' : Label} {v : Value}
    (h : document.toLookup name l = .ok (v, l')) : IsInput v

/-- `P` holds of primitive values, and of arrays and objects if it holds of their parts. -/
structure Value.HoldsOfData (P : Value → Prop) : Prop where
  primitive : ∀ {v : Value}, v.isPrimitive = true → P v
  array : ∀ {l : Label} {vs : List Value}, (∀ v ∈ vs, P v) → P (.array l vs)
  object : ∀ {l : Label} {fs : List (String × Value)}, (∀ f ∈ fs, P f.2) → P (.object l fs)

namespace Json

mutual

theorem ends_toValue {E : Stop → Prop} {P : Value → Prop} (hP : Value.HoldsOfData P) :
    ∀ document : Json, Run.Ends E P document.toValue
  | null | bool _ | number _ | string _ => Run.ends_pure (hP.primitive rfl)
  | array vs => (ends_toValues hP vs).bind fun _ h => Run.ends_fresh fun _ => hP.array h
  | object fs => (ends_toFields hP fs).bind fun _ h => Run.ends_fresh fun _ => hP.object h

theorem ends_toValues {E : Stop → Prop} {P : Value → Prop} (hP : Value.HoldsOfData P) :
    ∀ documents : List Json, Run.Ends E (∀ v ∈ ·, P v) (toValues documents)
  | [] => Run.ends_pure (by simp)
  | v :: vs => (ends_toValue hP v).bind fun _ hv => (ends_toValues hP vs).bind fun _ hvs =>
    Run.ends_pure (List.forall_mem_cons.2 ⟨hv, hvs⟩)

theorem ends_toFields {E : Stop → Prop} {P : Value → Prop} (hP : Value.HoldsOfData P) :
    ∀ fields : List (String × Json), Run.Ends E (∀ f ∈ ·, P f.2) (toFields fields)
  | [] => Run.ends_pure (by simp)
  | (_, v) :: fs => (ends_toValue hP v).bind fun _ hv => (ends_toFields hP fs).bind fun _ hfs =>
    Run.ends_pure (List.forall_mem_cons.2 ⟨hv, hfs⟩)

end

theorem safe_toValue (document : Json) : Run.Safe x document.toValue :=
  ends_toValue ⟨Value.safe_of_isPrimitive, .array, .object⟩ document

theorem safe_toLookup (name : String) (document : Json) :
    Run.Safe x (document.toLookup name) := by
  refine (safe_toValue document).bind fun table htable => Run.ends_fresh fun _ => .native ?_
  intro _ _ h
  cases h
  exact htable

end Json

theorem Value.IsInput.safe {v : Value} (h : v.IsInput) : v.Safe x := by
  cases h with
  | data h => exact (Json.safe_toValue _).of_eq_ok h
  | lookup h => exact (Json.safe_toLookup _ _).of_eq_ok h

/-! ### The runtime object -/

theorem safe_natives {fs : List Native} (h : ∀ f ∈ fs, ∀ name table, f ≠ .lookup name table) :
    Run.Ends (· ≠ .fault (.unbound x)) (∀ f ∈ ·, f.2.Safe x) (natives fs) := by
  induction fs with
  | nil => exact Run.ends_pure (by simp)
  | cons f fs ih =>
    rw [List.forall_mem_cons] at h
    have hf : Run.Safe x (Run.fresh (.native · f)) :=
      Run.ends_fresh fun _ => .native fun n t hf => absurd hf (h.1 n t)
    refine hf.bind fun v hv => (ih h.2).bind fun vs hvs => ?_
    exact Run.ends_pure (List.forall_mem_cons.2 ⟨hv, hvs⟩)

theorem safe_namespaceObject : Run.Safe x namespaceObject := by
  have hoperators : ∀ f ∈ Native.operatorNames.filterMap Native.ofOperator?,
      ∀ name table, f ≠ .lookup name table := by
    intro f hf
    obtain ⟨name, -, hname⟩ := List.mem_filterMap.1 hf
    exact Native.ne_lookup_of_ofOperator? hname
  refine (safe_natives hoperators).bind fun os hos => ?_
  refine Run.Ends.bind (P := Value.Safe x) (Run.ends_fresh fun _ => .object hos) fun o ho => ?_
  refine (safe_natives (by simp)).bind fun makers hmakers => ?_
  refine (safe_natives (by simp)).bind fun choice hchoice => ?_
  refine Run.ends_fresh fun _ => .object ?_
  rw [List.forall_mem_append, List.forall_mem_cons]
  exact ⟨hmakers, ho, hchoice⟩

/-! ### Programs -/

theorem Except.mapError_eq_ok_iff {ε ε' α : Type} {r : Except ε α} {f : ε → ε'} {a : α} :
    r.mapError f = .ok a ↔ r = .ok a := by
  cases r <;> simp [Except.mapError]

namespace Program

variable {ns source : String} {p : Program} {values : Entries Value}

/-- The environment in which the body of a program is evaluated. -/
def env (p : Program) (runtime : Value) (values : Entries Value) : Env :=
  Env.extend [] ((p.ns, runtime) :: p.bindings values)

theorem env_safe {runtime : Value} (hruntime : runtime.Safe x)
    (hvalues : ∀ b ∈ values, b.2.IsInput) : (p.env runtime values).Safe x := by
  intro b hb
  simp only [env, Env.extend, List.append_nil, List.mem_reverse, List.mem_cons, bindings,
    List.mem_filterMap, Option.map_eq_some_iff] at hb
  rcases hb with rfl | ⟨name, -, v, hv, rfl⟩
  · exact hruntime
  · exact (hvalues _ (mem_of_lookup_eq_some hv)).safe

theorem env_binds {runtime : Value} (hcheck : p.check true values = .ok ())
    (hx : x ∈ p.ns :: p.free) : (p.env runtime values).Binds x := by
  have hmissing : p.missing values = [] := by
    simpa [check] using hcheck
  have hhas : ∀ name ∈ p.free, values.has name = true := by
    simpa [missing] using hmissing
  rw [Env.Binds, env, Env.extend, List.append_nil, List.map_reverse, List.mem_reverse,
    List.map_cons, List.mem_cons]
  rcases List.mem_cons.1 hx with rfl | hx
  · exact .inl rfl
  · obtain ⟨v, hv⟩ := Option.isSome_iff_exists.1 (hhas x hx)
    refine .inr (List.mem_map.2 ⟨(x, v), ?_, rfl⟩)
    exact List.mem_filterMap.2 ⟨x, hx, by rw [hv]; rfl⟩

/-- A function that is a program has its own name declared, which it binds anyway. -/
theorem mem_symbols_of_mem_scope {symbols : Symbols} {e : Expr} (h : e.OccursFree x)
    (hx : x ∈ (scope symbols e).names) : x ∈ symbols.names := by
  cases e with
  | function site name ps body arrow =>
    cases name with
    | none => exact hx
    | some name =>
      have hb := ((Expr.occursFree_iff rfl).1 h).2
      rw [Expr.binds, Expr.mem_boundNames, not_or] at hb
      refine (Symbols.mem_insert_names.1 hx).resolve_right fun hname => hb.1 ?_
      rw [hname]
  | _ => exact hx

/-- What a program is made of. -/
theorem of_compile_symbols {symbols : Symbols} (h : compile ns symbols source = .ok p) :
    ∃ e free, read source = .ok e ∧ e.Scans (ns :: (scope symbols e).names) .empty free ∧
      e.lift ns = .ok ⟨p.ty, p.body⟩ ∧ p.ns = ns ∧ p.free = free.names := by
  obtain ⟨e, hread, h⟩ := Except.bind_eq_ok_iff.1 h
  obtain ⟨normalized, hnormal, h⟩ := Except.bind_eq_ok_iff.1 h
  obtain ⟨free, hfree, hnormal⟩ :=
    Except.bind_eq_ok_iff.1 (Except.mapError_eq_ok_iff.1 hnormal)
  cases hnormal
  obtain ⟨l, hl, h⟩ := Except.bind_eq_ok_iff.1 h
  cases h
  exact ⟨e, free, hread, Expr.scan_spec hfree, Except.mapError_eq_ok_iff.1 hl, rfl, rfl⟩

/-- What a program that compiles without symbols is made of. -/
theorem of_compile (h : compile ns .empty source = .ok p) :
    ∃ e, read source = .ok e ∧ e.LambdaForm ∧ e.lift ns = .ok ⟨p.ty, p.body⟩ ∧ p.ns = ns ∧
      ∀ x, x ∈ p.free ↔ e.OccursFree x ∧ x ≠ ns := by
  obtain ⟨e, free, hread, ⟨hform, hscan⟩, hlift, hns, hfree⟩ := of_compile_symbols h
  refine ⟨e, hread, hform, hlift, hns, fun x => ?_⟩
  rw [hfree, hscan, List.mem_cons, not_or]
  constructor
  · rintro (hx | ⟨hx, hne, -⟩)
    · cases hx
    · exact ⟨hx, hne⟩
  · rintro ⟨hx, hne⟩
    exact .inr ⟨hx, hne, fun hscope => List.not_mem_nil (mem_symbols_of_mem_scope hx hscope)⟩

theorem exists_of_any {ε α : Type} {r : Except ε α} {q : α → Bool}
    (h : r.toOption.any q = true) : ∃ a, r = .ok a ∧ q a = true := by
  cases r with
  | error => cases h
  | ok a => exact ⟨a, rfl, h⟩

theorem safe_invoke {e : Expr} (hform : e.LambdaForm) (hlift : e.lift p.ns = .ok ⟨p.ty, p.body⟩)
    (hcheck : p.check true values = .ok ()) (hvalues : ∀ b ∈ values, b.2.IsInput)
    (hx : e.Reads x → x ∈ p.ns :: p.free) (depth : Nat) :
    Run.Safe x (p.invoke depth values) := by
  refine safe_namespaceObject.bind fun runtime hruntime => ?_
  refine (safeTo x depth).eval (env_safe hruntime hvalues) fun hbody => ?_
  exact env_binds hcheck (hx ((Lifts.of_lift hform hlift).reads hbody))

/-- **Strict mode rules out unbound names that are not read early,** and asks for no value of a name
that is read early. -/
theorem not_unbound_of_strict (h : compile ns .empty source = .ok p)
    (hcheck : p.check true values = .ok ()) (hvalues : ∀ b ∈ values, b.2.IsInput) :
    ∃ e, read source = .ok e ∧ ∀ x,
      (¬ e.ReadsEarly x → ∀ depth l, p.invoke depth values l ≠ .error (.fault (.unbound x)) ∧
        p.run depth values l ≠ .error (.fault (.unbound x))) ∧
      (e.ReadsEarly x → x ∉ p.free) := by
  obtain ⟨e, hread, hform, hlift, rfl, hfree⟩ := of_compile h
  refine ⟨e, hread, fun x => ⟨fun hearly depth l => ?_, fun hearly hx => ?_⟩⟩
  · have hx : e.Reads x → x ∈ p.ns :: p.free := by
      intro hr
      have hx : e.OccursFree x := by
        by_contra hx
        exact hearly ⟨hr, hx⟩
      rw [List.mem_cons, hfree]
      by_cases hns : x = p.ns
      · exact .inl hns
      · exact .inr ⟨hx, hns⟩
    have hinvoke := safe_invoke hform hlift hcheck hvalues hx depth
    have hrun : Run.Safe x (p.run depth values) :=
      hinvoke.bind fun v hv => (safe_resolve depth).1 v hv
    exact ⟨fun h => hinvoke.of_eq_error h rfl, fun h => hrun.of_eq_error h rfl⟩
  · exact hearly.2 ((hfree x).1 hx).1

/-- A default that reads an earlier parameter, in a program that passes the check. -/
theorem not_unbound_of_default :
    ∃ p, compile "δ" .empty "((a, b = a) => b)(x)" = .ok p ∧
      p.check true [("x", .null)] = .ok () ∧
      ∃ e, read "((a, b = a) => b)(x)" = .ok e ∧ ∀ x,
        (¬ e.ReadsEarly x → ∀ depth l,
          p.invoke depth [("x", .null)] l ≠ .error (.fault (.unbound x)) ∧
          p.run depth [("x", .null)] l ≠ .error (.fault (.unbound x))) ∧
        (e.ReadsEarly x → x ∉ p.free) := by
  have hsome : (compile "δ" .empty "((a, b = a) => b)(x)").toOption.any
      (fun p => (p.missing [("x", .null)]).isEmpty) = true := by decide +kernel
  cases h : compile "δ" .empty "((a, b = a) => b)(x)" with
  | error => simp [h, Except.toOption] at hsome
  | ok p =>
    have hmissing : p.missing [("x", .null)] = [] := by simpa [h, Except.toOption] using hsome
    have hcheck : p.check true [("x", .null)] = .ok () := by simp [check, hmissing]
    have hnull : Value.IsInput .null := @Value.IsInput.data .null 0 0 .null rfl
    exact ⟨p, rfl, hcheck, not_unbound_of_strict h hcheck (by simpa using hnull)⟩

/-- `((a = b, b) => a)()` passes the check without values, and reads `b` when it runs. -/
theorem unbound_of_readsEarly :
    ∃ p, compile "δ" .empty "((a = b, b) => a)()" = .ok p ∧ p.check true [] = .ok () ∧
      p.invoke depthLimit [] 0 = .error (.fault (.unbound "b")) := by
  have hsome : (compile "δ" .empty "((a = b, b) => a)()").toOption.any
      (fun p => (p.missing []).isEmpty &&
        match p.invoke depthLimit [] 0 with
        | .error s => s = .fault (.unbound "b")
        | .ok _ => false) = true := by decide +kernel
  cases h : compile "δ" .empty "((a = b, b) => a)()" with
  | error => simp [h, Except.toOption] at hsome
  | ok p =>
    simp only [h, Except.toOption, Option.any_some, Bool.and_eq_true, List.isEmpty_iff] at hsome
    refine ⟨p, rfl, by simp [check, hsome.1], ?_⟩
    cases hrun : p.invoke depthLimit [] 0 with
    | error s => simpa [hrun] using hsome.2
    | ok => simp [hrun] at hsome

end Program

end DeltaForm
