import DeltaForm.Proofs.Confinement.Confined
import DeltaForm.Proofs.Confinement.Soundness
import DeltaForm.Proofs.Scope.Strict

/-!
# States that leave a program

A program that is run and resolved should end with a plain value, and a program of the value type
should yield one without being resolved. Both hold of confined programs, for all data and tables
from outside, as long as the names of the tables are read in delta expressions only
(`not_isState_of_run`, `not_isState_of_invoke`).

Neither holds of all programs. Names have the value type, but a name can stand for a producer or for
a state: a function that yields states and calls itself by its plain name makes one resolved state
inside another (`isState_of_plainRecursion`), and the default of a parameter may be a state
(`isState_of_stateDefault`).
-/

namespace DeltaForm

variable {ns : String}

/-! ### Values from outside -/

namespace Json

theorem graded_toValue (document : Json) :
    Run.Yields (Value.Graded ns .plain) document.toValue :=
  ends_toValue ⟨Value.graded_of_isPrimitive, .array, .object⟩ document

theorem graded_toLookup (name : String) (document : Json) :
    Run.Yields (fun v => v.typeOf = "function" ∧ v.Graded ns .any) (document.toLookup name) := by
  have hvalue : Run.Yields (Value.Graded ns .plain) document.toValue := graded_toValue document
  refine hvalue.bind fun table htable => ?_
  exact Run.ends_fresh fun _ => ⟨rfl, .lookup htable⟩

end Json

theorem Value.IsInput.graded {v : Value} (h : v.IsInput) :
    v.Graded ns .any ∧ (v.typeOf ≠ "function" → v.Graded ns .plain) := by
  cases h with
  | data h =>
    have hv : v.Graded ns .plain := (Json.graded_toValue _).of_eq_ok h
    exact ⟨hv.mono .any, fun _ => hv⟩
  | lookup h =>
    obtain ⟨hfunction, hv⟩ := (Json.graded_toLookup _ _).of_eq_ok h
    exact ⟨hv, fun hne => absurd hfunction hne⟩

/-! ### Programs -/

namespace Program

variable {source : String} {symbols : Symbols} {p : Program} {e : Expr} {values : Entries Value}

/-- The values of a program fit its tree: they come from outside, and functions among them have
names that are read in delta expressions only. -/
def Fits (ns : String) (e : Expr) (values : Entries Value) : Prop :=
  ∀ b ∈ values, b.2.IsInput ∧ (b.2.typeOf = "function" → e.OnlyInDeltas ns b.1)

theorem env_graded {runtime : Value} (hns : e.OnlyInDeltas p.ns p.ns)
    (hvalues : Fits p.ns e values) :
    (p.env runtime values).Graded p.ns fun x => ¬ e.OnlyInDeltas p.ns x := by
  -- Everything in the environment but the runtime comes from outside.
  have hget : ∀ x v, (p.env runtime values).get? x = some v → x ≠ p.ns → (x, v) ∈ values := by
    intro x v hv hx
    have hmem := mem_of_lookup_eq_some hv
    simp only [env, Env.extend, List.append_nil, List.mem_reverse, List.mem_cons, bindings,
      List.mem_filterMap, Option.map_eq_some_iff, Prod.mk.injEq] at hmem
    rcases hmem with ⟨h, -⟩ | ⟨name, -, w, hw, rfl, rfl⟩
    · exact absurd h hx
    · exact mem_of_lookup_eq_some hw
  constructor
  · intro x v hv hx
    exact (hvalues _ (hget x v hv hx)).1.graded.1
  · intro x v hv hx
    have hne : x ≠ p.ns := by
      rintro rfl
      exact hx hns
    obtain ⟨hinput, hfunction⟩ := hvalues _ (hget x v hv hne)
    exact hinput.graded.2 fun h => hx (hfunction h)

/-- A confined program yields a value with a grade that says what its type says. -/
theorem graded_invoke (h : compile ns symbols source = .ok p) (hread : read source = .ok e)
    (hc : e.Confined ns) (hns : e.OnlyInDeltas ns ns) (hvalues : Fits ns e values)
    (depth : Nat) :
    Run.Yields (Value.Graded ns p.ty.grade) (p.invoke depth values) := by
  obtain ⟨e', _, hread', ⟨hform, -⟩, hlift, rfl, -⟩ := of_compile_symbols h
  cases hread.symm.trans hread'
  have hcovers : Scope.Covers p.ns (fun x => ¬ e.OnlyInDeltas p.ns x) e := fun x => not_not.1
  obtain ⟨g, hg, hle, -⟩ := (Lifts.of_lift hform hlift).graded hc hcovers
  refine (Run.yields_true _).bind fun runtime _ => ?_
  exact ((soundTo p.ns depth).eval (env_graded hns hvalues) hg).mono fun v hv => hv.mono hle

/-- **A confined program leaves no state unresolved.** -/
theorem not_isState_of_run (h : compile ns symbols source = .ok p) (hread : read source = .ok e)
    (hc : e.Confined ns) (hns : e.OnlyInDeltas ns ns) (hvalues : Fits ns e values) {depth : Nat}
    {l l' : Label} {v : Value} (hrun : p.run depth values l = .ok (v, l')) :
    v.isState = false := by
  have hyields : Run.Yields (·.isState = false) (p.run depth values) :=
    (graded_invoke h hread hc hns hvalues depth).bind fun _ hv =>
      isState_eq_false_of_resolve hv depth
  exact hyields.of_eq_ok hrun

/-- A check of a source text that succeeds is one of its tree and of what it compiles to. -/
theorem exists_of_check {q : Program → Expr → Bool}
    (h : (compile ns symbols source).toOption.any
      (fun p => (read source).toOption.any (q p)) = true) :
    ∃ p e, compile ns symbols source = .ok p ∧ read source = .ok e ∧ q p e = true := by
  obtain ⟨p, hp, h⟩ := exists_of_any h
  obtain ⟨e, he, h⟩ := exists_of_any h
  exact ⟨p, e, hp, he, h⟩

namespace Sample

/-- The document with the fields `""` and `"a"`. -/
def document : Json := .object [("", .string "x"), ("a", .string "y")]

/-- The function that looks its argument up in the document. -/
def table : Value := .native 1 (.lookup "load" (.object 0 [("", .string "x"), ("a", .string "y")]))

theorem fits_table (h : e.OnlyInDeltas ns "load") : Fits ns e [("load", table)] := by
  have hinput : table.IsInput := @Value.IsInput.lookup "load" document 0 2 table rfl
  exact List.forall_mem_singleton.2 ⟨hinput, fun _ => h⟩

/-- A producer that calls itself through a delta expression. -/
def deltaRecursion : String :=
  "(function f(n) \x7b return n ? δ[f](\"\") : δ[load](n); \x7d)(\"a\")"

/-- A producer that calls itself by its plain name. -/
def plainRecursion : String :=
  "(function f(n) \x7b return n ? f(\"\") : δ[load](n); \x7d)(\"a\")"

/-- A parameter whose default is a producer, and another one that is read. -/
def producerDefault : String := "((x, f = δ[load]) => x)(\"a\")"

/-- A parameter that is read and whose default is a state. -/
def stateDefault : String := "((x = δ[load](\"a\")) => x)()"

end Sample

theorem not_isState_of_run_deltaRecursion :
    ∃ p e v l, compile "δ" .empty Sample.deltaRecursion = .ok p ∧
      read Sample.deltaRecursion = .ok e ∧ e.Confined "δ" ∧ e.OnlyInDeltas "δ" "δ" ∧
      Fits "δ" e [("load", Sample.table)] ∧
      p.run depthLimit [("load", Sample.table)] 2 = .ok (v, l) ∧ v.isState = false := by
  have hcheck : (compile "δ" .empty Sample.deltaRecursion).toOption.any (fun p =>
      (read Sample.deltaRecursion).toOption.any (fun e =>
        decide (e.Confined "δ" ∧ e.OnlyInDeltas "δ" "δ" ∧ e.OnlyInDeltas "δ" "load") &&
        (p.run depthLimit [("load", Sample.table)] 2).toOption.any fun _ => true)) = true := by
    decide +kernel
  obtain ⟨p, e, hp, he, hcheck⟩ := exists_of_check hcheck
  obtain ⟨htree, hrun⟩ := (Bool.and_eq_true _ _).mp hcheck
  obtain ⟨hc, hns, hload⟩ := of_decide_eq_true htree
  obtain ⟨⟨v, l⟩, hv, -⟩ := exists_of_any hrun
  have hvalues := Sample.fits_table hload
  exact ⟨p, e, v, l, hp, he, hc, hns, hvalues, hv, not_isState_of_run hp he hc hns hvalues hv⟩

/-- A producer that calls itself by its plain name is lifted to one that makes a resolved state of a
state, which `Program.run` leaves. -/
theorem isState_of_plainRecursion :
    ∃ p e v l, compile "δ" .empty Sample.plainRecursion = .ok p ∧
      read Sample.plainRecursion = .ok e ∧ e.OnlyInDeltas "δ" "δ" ∧
      Fits "δ" e [("load", Sample.table)] ∧
      p.run depthLimit [("load", Sample.table)] 2 = .ok (v, l) ∧ v.isState = true := by
  have hcheck : (compile "δ" .empty Sample.plainRecursion).toOption.any (fun p =>
      (read Sample.plainRecursion).toOption.any (fun e =>
        decide (e.OnlyInDeltas "δ" "δ" ∧ e.OnlyInDeltas "δ" "load") &&
        (p.run depthLimit [("load", Sample.table)] 2).toOption.any (·.1.isState))) = true := by
    decide +kernel
  obtain ⟨p, e, hp, he, hcheck⟩ := exists_of_check hcheck
  obtain ⟨htree, hrun⟩ := (Bool.and_eq_true _ _).mp hcheck
  obtain ⟨hns, hload⟩ := of_decide_eq_true htree
  obtain ⟨⟨v, l⟩, hv, hs⟩ := exists_of_any hrun
  exact ⟨p, e, v, l, hp, he, hns, Sample.fits_table hload, hv, hs⟩

/-- **A confined program of the value type yields no state.** -/
theorem not_isState_of_invoke (h : compile ns symbols source = .ok p)
    (hread : read source = .ok e) (hc : e.Confined ns) (hns : e.OnlyInDeltas ns ns)
    (hvalues : Fits ns e values) (hty : p.ty = .value) {depth : Nat} {l l' : Label} {v : Value}
    (hinvoke : p.invoke depth values l = .ok (v, l')) : v.isState = false := by
  have hyields := graded_invoke h hread hc hns hvalues depth
  rw [hty] at hyields
  exact (hyields.of_eq_ok hinvoke).isState_eq_false

theorem not_isState_of_invoke_producerDefault :
    ∃ p e v l, compile "δ" .empty Sample.producerDefault = .ok p ∧
      read Sample.producerDefault = .ok e ∧ e.Confined "δ" ∧ e.OnlyInDeltas "δ" "δ" ∧
      Fits "δ" e [("load", Sample.table)] ∧ p.ty = .value ∧
      p.invoke depthLimit [("load", Sample.table)] 2 = .ok (v, l) ∧ v.isState = false := by
  have hcheck : (compile "δ" .empty Sample.producerDefault).toOption.any (fun p =>
      (read Sample.producerDefault).toOption.any (fun e =>
        decide ((e.Confined "δ" ∧ e.OnlyInDeltas "δ" "δ" ∧ e.OnlyInDeltas "δ" "load") ∧
          p.ty = .value) &&
        (p.invoke depthLimit [("load", Sample.table)] 2).toOption.any fun _ => true)) = true := by
    decide +kernel
  obtain ⟨p, e, hp, he, hcheck⟩ := exists_of_check hcheck
  obtain ⟨htree, hrun⟩ := (Bool.and_eq_true _ _).mp hcheck
  obtain ⟨⟨hc, hns, hload⟩, hty⟩ := of_decide_eq_true htree
  obtain ⟨⟨v, l⟩, hv, -⟩ := exists_of_any hrun
  have hvalues := Sample.fits_table hload
  exact ⟨p, e, v, l, hp, he, hc, hns, hvalues, hty, hv,
    not_isState_of_invoke hp he hc hns hvalues hty hv⟩

/-- A default is a state, but the parameter that it stands in for has the value type. -/
theorem isState_of_stateDefault :
    ∃ p e v l, compile "δ" .empty Sample.stateDefault = .ok p ∧
      read Sample.stateDefault = .ok e ∧ e.OnlyInDeltas "δ" "δ" ∧
      Fits "δ" e [("load", Sample.table)] ∧ p.ty = .value ∧
      p.invoke depthLimit [("load", Sample.table)] 2 = .ok (v, l) ∧ v.isState = true := by
  have hcheck : (compile "δ" .empty Sample.stateDefault).toOption.any (fun p =>
      (read Sample.stateDefault).toOption.any (fun e =>
        decide ((e.OnlyInDeltas "δ" "δ" ∧ e.OnlyInDeltas "δ" "load") ∧ p.ty = .value) &&
        (p.invoke depthLimit [("load", Sample.table)] 2).toOption.any (·.1.isState))) = true := by
    decide +kernel
  obtain ⟨p, e, hp, he, hcheck⟩ := exists_of_check hcheck
  obtain ⟨htree, hrun⟩ := (Bool.and_eq_true _ _).mp hcheck
  obtain ⟨⟨hns, hload⟩, hty⟩ := of_decide_eq_true htree
  obtain ⟨⟨v, l⟩, hv, hs⟩ := exists_of_any hrun
  exact ⟨p, e, v, l, hp, he, hns, Sample.fits_table hload, hty, hv, hs⟩

end Program

end DeltaForm
