import DeltaForm.Proofs.Scope.Safety
import Mathlib.Logic.Relation

/-!
# Closed values

A value is **closed** if each function literal that can be reached from it has bindings for all
names that it reads. The way may go through items of arrays, fields of objects, operands of states,
tables and the environments of other functions. Evaluation in a closed environment that binds what
the tree reads never finds a name unbound and yields closed values only, and so do calls and the
resolution of states, however deep they go and wherever functions escape to (`scopeSafe`).

Safety is a matter of one name at a time: a value is closed if and only if it is safe for every
name.
-/

namespace DeltaForm

namespace Value

/-- The values that a value holds. -/
def contents : Value → List Value
  | array _ vs => vs
  | object _ fs => fs.map Prod.snd
  | closure _ _ _ _ env => env.map Prod.snd
  | native _ (.lookup _ table) => [table]
  | state _ (.success v) => [v]
  | state _ (.depend _ f args) => f :: args
  | state _ (.deferred f args) => f :: args
  | _ => []

/-- The second value is the first one or is held somewhere in it. -/
def Reaches : Value → Value → Prop := Relation.ReflTransGen fun v w => w ∈ v.contents

/-- Every function literal in the value has bindings for the names that it reads. -/
def Closed (v : Value) : Prop :=
  ∀ l name ps body env, v.Reaches (.closure l name ps body env) →
    ∀ x, (Expr.function default name ps body true).Reads x → Env.Binds env x

end Value

/-- All values of an environment are closed. -/
def Env.Closed (env : Env) : Prop := ∀ b ∈ env, b.2.Closed

/-- A run yields a closed value and does not fail because a name is unbound. -/
def Run.ScopeSafe (r : Run Value) : Prop :=
  ∀ l, (∀ x, r l ≠ .error (.fault (.unbound x))) ∧ ∀ v l', r l = .ok (v, l') → v.Closed

namespace Value

variable {x : String} {v w : Value}

/-! ### Closed and safe values -/

theorem sizeOf_lt_of_mem_snd {es : List (String × Value)} (h : w ∈ es.map Prod.snd) :
    sizeOf w < sizeOf es := by
  obtain ⟨⟨name, v⟩, hmem, rfl⟩ := List.mem_map.1 h
  have hlt := List.sizeOf_lt_of_mem hmem
  rw [Prod.mk.sizeOf_spec] at hlt
  change sizeOf v < sizeOf es
  omega

theorem sizeOf_lt_of_mem_contents (h : w ∈ v.contents) : sizeOf w < sizeOf v := by
  cases v with
  | undefined | null | bool | number | string => cases h
  | array _ vs =>
    have := List.sizeOf_lt_of_mem (show w ∈ vs from h)
    rw [array.sizeOf_spec]
    omega
  | object _ fs =>
    have := sizeOf_lt_of_mem_snd (show w ∈ fs.map Prod.snd from h)
    rw [object.sizeOf_spec]
    omega
  | closure _ _ _ _ env =>
    have := sizeOf_lt_of_mem_snd (show w ∈ env.map Prod.snd from h)
    rw [closure.sizeOf_spec]
    omega
  | native _ f =>
    cases f with
    | lookup _ table =>
      cases List.mem_singleton.1 h
      rw [native.sizeOf_spec, Native.lookup.sizeOf_spec]
      omega
    | _ => cases h
  | state _ d =>
    cases d with
    | success v =>
      cases List.mem_singleton.1 h
      rw [state.sizeOf_spec, Descriptor.success.sizeOf_spec]
      omega
    | depend _ f args =>
      rw [state.sizeOf_spec, Descriptor.depend.sizeOf_spec]
      rcases List.mem_cons.1 h with rfl | h
      · omega
      · have := List.sizeOf_lt_of_mem h
        omega
    | deferred f args =>
      rw [state.sizeOf_spec, Descriptor.deferred.sizeOf_spec]
      rcases List.mem_cons.1 h with rfl | h
      · omega
      · have := List.sizeOf_lt_of_mem h
        omega

/-- What holds of a value whenever it holds of all values that it holds holds of every value. -/
theorem induction_on_contents {p : Value → Prop} (h : ∀ v, (∀ w ∈ v.contents, p w) → p v)
    (v : Value) : p v :=
  h v fun w _ => induction_on_contents h w
termination_by sizeOf v
decreasing_by exact sizeOf_lt_of_mem_contents ‹_›

theorem Closed.contents (h : v.Closed) (hw : w ∈ v.contents) : w.Closed :=
  fun l name ps body env hr => h l name ps body env (.head hw hr)

theorem Safe.contents (h : v.Safe x) (hw : w ∈ v.contents) : w.Safe x := by
  cases h with
  | undefined | null | bool | number | string => cases hw
  | array h => exact h w hw
  | object h =>
    obtain ⟨f, hf, rfl⟩ := List.mem_map.1 hw
    exact h f hf
  | closure henv _ =>
    obtain ⟨b, hb, rfl⟩ := List.mem_map.1 hw
    exact henv b hb
  | @native _ f h =>
    cases f with
    | lookup name table =>
      cases List.mem_singleton.1 hw
      exact h name w rfl
    | _ => cases hw
  | success h =>
    cases List.mem_singleton.1 hw
    exact h
  | depend hf hargs => exact List.forall_mem_cons.2 ⟨hf, hargs⟩ w hw
  | deferred hf hargs => exact List.forall_mem_cons.2 ⟨hf, hargs⟩ w hw

theorem Safe.reaches (h : v.Safe x) (hw : v.Reaches w) : w.Safe x := by
  induction hw with
  | refl => exact h
  | tail _ hc ih => exact ih.contents hc

theorem Closed.safe (h : v.Closed) (x : String) : v.Safe x := by
  induction v using induction_on_contents with
  | h v ih =>
    have ih : ∀ w ∈ v.contents, w.Safe x := fun w hw => ih w hw (h.contents hw)
    cases v with
    | undefined => exact .undefined
    | null => exact .null
    | bool => exact .bool
    | number => exact .number
    | string => exact .string
    | array => exact .array ih
    | object => exact .object fun f hf => ih _ (List.mem_map_of_mem hf)
    | closure l name ps body env =>
      refine .closure (fun b hb => ih _ (List.mem_map_of_mem hb)) fun hname hps => ?_
      exact h l name ps body env .refl x (Expr.reads_function_iff.2 ⟨hname, hps⟩)
    | native _ f =>
      refine .native fun name table hf => ?_
      subst hf
      exact ih table List.mem_cons_self
    | state _ d =>
      cases d with
      | success v => exact .success (ih v List.mem_cons_self)
      | depend _ f args =>
        exact .depend (ih f List.mem_cons_self) fun a ha => ih a (List.mem_cons_of_mem _ ha)
      | deferred f args =>
        exact .deferred (ih f List.mem_cons_self) fun a ha => ih a (List.mem_cons_of_mem _ ha)

/-- **A value is closed if and only if it is safe for every name.** -/
theorem closed_iff_safe : v.Closed ↔ ∀ x, v.Safe x := by
  refine ⟨Closed.safe, fun h l name ps body env hr x hx => ?_⟩
  obtain ⟨hname, hps⟩ := Expr.reads_function_iff.1 hx
  cases (h x).reaches hr with
  | closure _ h => exact h hname hps

end Value

theorem Env.Closed.safe {env : Env} (h : env.Closed) (x : String) : env.Safe x :=
  fun b hb => (h b hb).safe x

/-! ### Runs -/

theorem Run.scopeSafe_iff {r : Run Value} : r.ScopeSafe ↔ ∀ x, Run.Safe x r := by
  constructor
  · intro h x l
    cases hr : r l with
    | ok p => exact ((h l).2 p.1 p.2 hr).safe x
    | error s => exact fun hs => (h l).1 x (hr.trans (congrArg _ hs))
  · intro h l
    refine ⟨fun x hr => (h x).of_eq_error hr rfl, fun v l' hr => ?_⟩
    exact Value.closed_iff_safe.2 fun x => (h x).of_eq_ok hr

/-- **Scope safety.** In a closed environment that binds all names that a tree reads, its evaluation
finds no name unbound and makes closed values only. The same holds of calls of closed values and of
the resolution of a closed value. -/
theorem scopeSafe (depth : Nat) :
    (∀ (env : Env) (e : Expr), env.Closed → (∀ x, e.Reads x → env.Binds x) →
      (eval depth env e).ScopeSafe) ∧
    (∀ (f : Value) (args : List Value), f.Closed → (∀ a ∈ args, a.Closed) →
      (call depth f args).ScopeSafe) ∧
    ∀ v : Value, v.Closed → (resolve depth v).ScopeSafe := by
  refine ⟨fun env e henv he => ?_, fun f args hf hargs => ?_, fun v hv => ?_⟩
  · exact Run.scopeSafe_iff.2 fun x => (safeTo x depth).eval (henv.safe x) (he x)
  · refine Run.scopeSafe_iff.2 fun x => (safeTo x depth).call (hf.safe x) fun a ha => ?_
    exact (hargs a ha).safe x
  · exact Run.scopeSafe_iff.2 fun x => (safe_resolve depth).1 v (hv.safe x)

/-- An environment in which `k` is a function that reads `n`, which it brings along. -/
def readerEnv : Env := [("k", .closure 0 none [] (.ident default "n") [("n", .null)])]

/-- A deferred call of `k` with an array that holds a function whose default reads `k`. -/
def escapingReader : Expr :=
  .wrap default (.ident default "k") [.array default
    [.function default none [.optional "a" default (.ident default "k")] (.ident default "a") true]]

/-- The function that escapes in `escapingReader` keeps its scope, also when the call is made. -/
theorem scopeSafe_escapingReader :
    readerEnv.Closed ∧ (∀ x, escapingReader.Reads x → readerEnv.Binds x) ∧
      ∃ v l, eval 9 readerEnv escapingReader 1 = .ok (v, l) ∧ v.Closed ∧
        (resolve 9 v).ScopeSafe := by
  have henv : readerEnv.Closed := by
    refine List.forall_mem_singleton.2 (Value.closed_iff_safe.2 fun x => .closure ?_ fun _ hx => ?_)
    · exact List.forall_mem_singleton.2 .null
    · cases hx with
      | ident => exact List.mem_cons_self
      | child hc => cases hc
  have hreads : ∀ x, escapingReader.Reads x → readerEnv.Binds x := by
    intro x hx
    rw [escapingReader, Expr.reads_iff rfl rfl] at hx
    simp only [Expr.children, List.mem_singleton, List.exists_mem_cons_iff, exists_eq_left,
      Expr.reads_ident] at hx
    have hx : x = "k" := hx.elim id fun hx => by
      rw [Expr.reads_iff rfl rfl] at hx
      simpa [Expr.children, Expr.reads_function_iff, Expr.ReadsUnder, Expr.reads_ident,
        Param.default?, Param.name] using hx
    exact hx ▸ List.mem_cons_self
  obtain ⟨heval, -, hresolve⟩ := scopeSafe 9
  have hclosed := ((heval _ _ henv hreads) 1).2 _ _ rfl
  exact ⟨henv, hreads, _, _, rfl, hclosed, hresolve _ hclosed⟩

end DeltaForm
