import DeltaForm.Eval
import DeltaForm.Proofs.Run

/-!
# What runs were made of

If a runtime form was evaluated, or a state resolved, then its parts were: each statement here names
the runs of the parts of a run that yielded a value, and the labels where one ended and the next
began.
-/

namespace DeltaForm

variable {depth : Nat} {env : Env} {a b : Nat}

theorem eval_success_eq_ok {site : Site} {e : Expr} {s : Value}
    (h : eval depth env (.success site e) a = .ok (s, b)) :
    ∃ n v m, depth = n + 1 ∧ eval n env e a = .ok (v, m) ∧ s = .state m (.success v) ∧
      b = m + 1 := by
  cases depth with
  | zero => cases h
  | succ n =>
    obtain ⟨v, m, hv, h⟩ := Run.bind_eq_ok_iff.1 h
    cases h
    exact ⟨n, v, m, rfl, hv, rfl, rfl⟩

theorem eval_wrap_eq_ok {site : Site} {e : Expr} {es : List Expr} {s : Value}
    (h : eval depth env (.wrap site e es) a = .ok (s, b)) :
    ∃ n g vs m k, depth = n + 1 ∧ eval n env e a = .ok (g, m) ∧ evalList n env es m = .ok (vs, k) ∧
      s = .state k (.deferred g vs) ∧ b = k + 1 := by
  cases depth with
  | zero => cases h
  | succ n =>
    obtain ⟨g, m, hg, h⟩ := Run.bind_eq_ok_iff.1 h
    obtain ⟨vs, k, hvs, h⟩ := Run.bind_eq_ok_iff.1 h
    cases h
    exact ⟨n, g, vs, m, k, rfl, hg, hvs, rfl, rfl⟩

theorem eval_depend_eq_ok {site : Site} {lifted : Bool} {e : Expr} {es : List Expr} {s : Value}
    (h : eval depth env (.depend site lifted e es) a = .ok (s, b)) :
    ∃ n g vs m k, depth = n + 1 ∧ eval n env e a = .ok (g, m) ∧ evalList n env es m = .ok (vs, k) ∧
      s = .state k (.depend lifted g vs) ∧ b = k + 1 := by
  cases depth with
  | zero => cases h
  | succ n =>
    obtain ⟨g, m, hg, h⟩ := Run.bind_eq_ok_iff.1 h
    obtain ⟨vs, k, hvs, h⟩ := Run.bind_eq_ok_iff.1 h
    cases h
    exact ⟨n, g, vs, m, k, rfl, hg, hvs, rfl, rfl⟩

theorem evalList_cons_eq_ok {e : Expr} {es : List Expr} {vs : List Value}
    (h : evalList depth env (e :: es) a = .ok (vs, b)) :
    ∃ n v vs' m, depth = n + 1 ∧ eval n env e a = .ok (v, m) ∧ evalList n env es m = .ok (vs', b) ∧
      vs = v :: vs' := by
  cases depth with
  | zero => cases h
  | succ n =>
    obtain ⟨v, m, hv, h⟩ := Run.bind_eq_ok_iff.1 h
    obtain ⟨vs', k, hvs, h⟩ := Run.bind_eq_ok_iff.1 h
    cases h
    exact ⟨n, v, vs', m, rfl, hv, hvs, rfl⟩

theorem evalList_nil_eq_ok {vs : List Value} (h : evalList depth env [] a = .ok (vs, b)) :
    vs = [] ∧ b = a := by
  cases depth with
  | zero => cases h
  | succ => cases h; exact ⟨rfl, rfl⟩

theorem resolveList_nil_eq_ok {ws : List Value} (h : resolveList depth [] a = .ok (ws, b)) :
    ws = [] ∧ b = a := by
  cases depth with
  | zero => cases h
  | succ => cases h; exact ⟨rfl, rfl⟩

theorem resolveList_cons_eq_ok {v : Value} {vs ws : List Value}
    (h : resolveList depth (v :: vs) a = .ok (ws, b)) :
    ∃ n w ws' m, depth = n + 1 ∧ resolve n v a = .ok (w, m) ∧ resolveList n vs m = .ok (ws', b) ∧
      ws = w :: ws' := by
  cases depth with
  | zero => cases h
  | succ n =>
    obtain ⟨w, m, hw, h⟩ := Run.bind_eq_ok_iff.1 h
    obtain ⟨ws', k, hws, h⟩ := Run.bind_eq_ok_iff.1 h
    cases h
    exact ⟨n, w, ws', m, rfl, hw, hws, rfl⟩

theorem resolve_success_eq_ok {l : Label} {v w : Value}
    (h : resolve depth (.state l (.success v)) a = .ok (w, b)) : w = v ∧ b = a := by
  cases depth with
  | zero => cases h
  | succ => cases h; exact ⟨rfl, rfl⟩

theorem resolve_native_eq_ok {l : Label} {g : Native} {w : Value}
    (h : resolve depth (.native l g) a = .ok (w, b)) : w = .native l g ∧ b = a := by
  cases depth with
  | zero => cases h
  | succ => cases h; exact ⟨rfl, rfl⟩

theorem call_native_eq_ok {l : Label} {g : Native} {vs : List Value} {w : Value}
    (h : call depth (.native l g) vs a = .ok (w, b)) :
    ∃ n, callNative (n + 1) g vs a = .ok (w, b) := by
  match depth, h with
  | n + 2, h => exact ⟨n, h⟩

theorem resolve_depend_eq_ok {l : Label} {lifted : Bool} {g w : Value} {vs : List Value}
    (h : resolve depth (.state l (.depend lifted g vs)) a = .ok (w, b)) :
    ∃ n g' ws m k, depth = n + 1 ∧ resolve n g a = .ok (g', m) ∧ resolveList n vs m = .ok (ws, k) ∧
      (call n g' ws >>= fun v => if lifted then pure v else resolve n v) k = .ok (w, b) := by
  cases depth with
  | zero => cases h
  | succ n =>
    obtain ⟨g', m, hg, h⟩ := Run.bind_eq_ok_iff.1 h
    obtain ⟨ws, k, hws, h⟩ := Run.bind_eq_ok_iff.1 h
    exact ⟨n, g', ws, m, k, rfl, hg, hws, h⟩

theorem resolve_deferred_eq_ok {l : Label} {g w : Value} {vs : List Value}
    (h : resolve depth (.state l (.deferred g vs)) a = .ok (w, b)) :
    ∃ n, depth = n + 1 ∧ (call n g vs >>= resolve n) a = .ok (w, b) := by
  cases depth with
  | zero => cases h
  | succ n => exact ⟨n, rfl, h⟩

end DeltaForm
