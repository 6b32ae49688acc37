import DeltaForm.Proofs.Renaming.Values
import DeltaForm.Proofs.Run
import Mathlib.Data.List.Range

/-!
# Runs with other labels

A run from other labels on, with other labels in the values it starts with, does the same and yields
the same value with other labels. `Run.Draws` says it of a run whose labels are known one by one,
whatever order they come in, and `Run.Follows` of a run that does what another one did. Evaluation
follows itself, and so do calls and the resolution of states, to every depth that is not smaller.
-/

namespace DeltaForm

namespace Run

variable {α β : Type} {ren : (Label → Label) → α → α} {ren' : (Label → Label) → β → β}

/-- Under every injective renaming that takes `ls` to the first unused labels, the run yields `a`
with its labels renamed and uses as many labels as there are in `ls`. -/
def Draws (ren : (Label → Label) → α → α) (R : (Label → Label) → Run α) (a : α)
    (ls : List Label) : Prop :=
  ∀ ⦃f : Label → Label⦄ ⦃m : Label⦄, Function.Injective f →
    ls.map f = List.range' m ls.length → R f m = .ok (ren f a, m + ls.length)

theorem draws_pure {b : (Label → Label) → α} {a : α} (h : ∀ f, b f = ren f a) :
    Draws ren (fun f => pure (b f)) a [] :=
  fun f m _ _ => congrArg (fun a => Except.ok (a, m)) (h f)

theorem Draws.bind {R : (Label → Label) → Run α} {K : (Label → Label) → α → Run β} {a : α} {b : β}
    {ls ls' : List Label} (hr : Draws ren R a ls)
    (hk : Draws ren' (fun f => K f (ren f a)) b ls') :
    Draws ren' (fun f => R f >>= K f) b (ls ++ ls') := by
  intro f m hf hm
  rw [List.map_append, List.length_append, ← List.range'_append_1] at hm
  obtain ⟨hls, hls'⟩ := List.append_inj hm (by simp)
  rw [List.length_append, ← Nat.add_assoc]
  exact bind_eq_ok_iff.2 ⟨_, _, hr hf hls, hk hf hls'⟩

theorem draws_fresh {make : (Label → Label) → Label → Value} {l : Label} {v : Value}
    (h : ∀ f, make f (f l) = v.rename f) : Draws Value.rename (fun f => fresh (make f)) v [l] := by
  intro f m _ hm
  have hl : f l = m := by simpa using hm
  subst hl
  exact congrArg (fun v => Except.ok (v, f l + 1)) (h f)

/-- `R` does what `r` did: whatever labels `r` used, `R` uses others in their place. -/
def Follows (ren : (Label → Label) → α → α) (r : Run α) (R : (Label → Label) → Run α) : Prop :=
  ∀ ⦃l l' : Label⦄ ⦃a : α⦄, r l = .ok (a, l') →
    ∃ n, l' = l + n ∧ Draws ren R a (List.range' l n)

theorem Follows.le {r : Run α} {R : (Label → Label) → Run α} (hr : Follows ren r R) {l l' : Nat}
    {a : α} (h : r l = .ok (a, l')) : l ≤ l' := by
  obtain ⟨n, rfl, -⟩ := hr h
  exact Nat.le_add_right l n

theorem follows_giveUp {R : (Label → Label) → Run α} : Follows ren giveUp R :=
  fun _ _ _ h => by cases h

theorem follows_fail {fault : RunFault} {R : (Label → Label) → Run α} :
    Follows ren (fail fault) R :=
  fun _ _ _ h => by cases h

theorem follows_pure {a : α} {b : (Label → Label) → α} (h : ∀ f, b f = ren f a) :
    Follows ren (pure a) (fun f => pure (b f)) := by
  intro l l' a' ha
  cases ha
  exact ⟨0, rfl, draws_pure h⟩

theorem follows_fresh {make : Label → Value} {make' : (Label → Label) → Label → Value}
    (h : ∀ f l, make' f (f l) = (make l).rename f) :
    Follows Value.rename (fresh make) (fun f => fresh (make' f)) := by
  intro l l' v hv
  cases hv
  exact ⟨1, rfl, draws_fresh fun f => h f l⟩

theorem Follows.bind {r : Run α} {R : (Label → Label) → Run α} {k : α → Run β}
    {K : (Label → Label) → α → Run β} (hr : Follows ren r R)
    (hk : ∀ a, Follows ren' (k a) (fun f => K f (ren f a))) :
    Follows ren' (r >>= k) (fun f => R f >>= K f) := by
  intro l l' b h
  obtain ⟨a, m, ha, hb⟩ := bind_eq_ok_iff.1 h
  obtain ⟨n, rfl, hdraw⟩ := hr ha
  obtain ⟨n', rfl, hdraw'⟩ := hk a hb
  refine ⟨n + n', Nat.add_assoc l n n', ?_⟩
  rw [← List.range'_append_1]
  exact hdraw.bind hdraw'

theorem follows_ofExcept {x : Except RunFault Value} {x' : (Label → Label) → Except RunFault Value}
    (h : ∀ f, Function.Injective f → x' f = x.map (Value.rename f)) :
    Follows Value.rename (ofExcept x) (fun f => ofExcept (x' f)) := by
  cases x with
  | error => exact follows_fail
  | ok v =>
    intro l l' v' hv
    cases hv
    refine ⟨0, rfl, fun f m hf _ => ?_⟩
    exact congrArg (fun x => ofExcept x m) (h f hf)

/-- To every depth that is great enough, the run draws `ls` and yields `a`. -/
def Gives (ren : (Label → Label) → α → α) (R : Nat → (Label → Label) → Run α) (a : α)
    (ls : List Label) : Prop :=
  ∃ k, ∀ n, k ≤ n → Draws ren (R n) a ls

theorem gives_pure {b : (Label → Label) → α} {a : α} (h : ∀ f, b f = ren f a) :
    Gives ren (fun _ f => pure (b f)) a [] :=
  ⟨0, fun _ _ => draws_pure h⟩

theorem Gives.bind {R : Nat → (Label → Label) → Run α} {K : Nat → (Label → Label) → α → Run β}
    {a : α} {b : β} {ls ls' : List Label} (hr : Gives ren R a ls)
    (hk : Gives ren' (fun n f => K n f (ren f a)) b ls') :
    Gives ren' (fun n f => R n f >>= K n f) b (ls ++ ls') := by
  obtain ⟨k, hr⟩ := hr
  obtain ⟨k', hk⟩ := hk
  exact ⟨max k k', fun n hn => (hr n (Nat.max_le.1 hn).1).bind (hk n (Nat.max_le.1 hn).2)⟩

theorem Gives.succ {R : Nat → (Label → Label) → Run α} {a : α} {ls : List Label}
    (h : Gives ren (fun n => R (n + 1)) a ls) : Gives ren R a ls := by
  obtain ⟨k, h⟩ := h
  refine ⟨k + 1, fun n hn => ?_⟩
  obtain ⟨n, rfl⟩ := Nat.exists_eq_succ_of_ne_zero (Nat.ne_zero_of_lt hn)
  exact h n (Nat.le_of_succ_le_succ hn)

theorem Follows.gives {r : Run α} {R : Nat → (Label → Label) → Run α} {k : Nat} {l l' : Label}
    {a : α} (hr : ∀ n, k ≤ n → Follows ren r (R n)) (h : r l = .ok (a, l')) :
    ∃ i, l' = l + i ∧ Gives ren R a (List.range' l i) := by
  obtain ⟨i, rfl, -⟩ := hr k le_rfl h
  refine ⟨i, rfl, k, fun n hn => ?_⟩
  obtain ⟨i', hi, hdraws⟩ := hr n hn h
  rwa [Nat.add_left_cancel hi]

end Run

open Run (Follows follows_giveUp follows_fail follows_pure follows_fresh follows_ofExcept)

/-! ### Evaluation -/

/-- Evaluation and calls to a depth are followed by those to another one. -/
structure FollowsTo (depth n : Nat) : Prop where
  eval : ∀ (env : Env) (e : Expr),
    Follows Value.rename (eval depth env e) fun f => eval n (env.rename f) e
  evalList : ∀ (env : Env) (es : List Expr),
    Follows Value.renameList (evalList depth env es) fun f => evalList n (env.rename f) es
  call : ∀ (g : Value) (args : List Value),
    Follows Value.rename (call depth g args) fun f => call n (g.rename f) (Value.renameList f args)
  bindParams : ∀ (env : Env) (ps : List Param) (args : List Value),
    Follows Env.rename (bindParams depth env ps args) fun f =>
      bindParams n (env.rename f) ps (Value.renameList f args)
  callNative : ∀ (g : Native) (args : List Value),
    Follows Value.rename (callNative depth g args) fun f =>
      callNative n (g.rename f) (Value.renameList f args)

namespace FollowsTo

variable {depth n : Nat}

theorem zero : FollowsTo 0 n := by
  constructor <;> intros <;> exact follows_giveUp

theorem evalList_succ (ih : FollowsTo depth n) (env : Env) (es : List Expr) :
    Follows Value.renameList (DeltaForm.evalList (depth + 1) env es) fun f =>
      DeltaForm.evalList (n + 1) (env.rename f) es := by
  cases es with
  | nil => exact follows_pure fun f => rfl
  | cons e es =>
    refine (ih.eval env e).bind fun v => (ih.evalList env es).bind fun vs => ?_
    exact follows_pure fun f => rfl

theorem eval_succ (ih : FollowsTo depth n) (env : Env) (e : Expr) :
    Follows Value.rename (DeltaForm.eval (depth + 1) env e) fun f =>
      DeltaForm.eval (n + 1) (env.rename f) e := by
  cases e with
  | number | string | bool | null | undefined => exact follows_pure fun f => rfl
  | ident _ name =>
    simp only [DeltaForm.eval, Env.get?, Env.lookup_rename]
    cases env.lookup name with
    | some v => exact follows_pure fun f => rfl
    | none => exact follows_fail
  | unary _ op e =>
    refine (ih.eval env e).bind fun v => ?_
    exact follows_pure fun f => Value.unary_rename op v
  | binary _ op l r =>
    refine (ih.eval env l).bind fun v => (ih.eval env r).bind fun w => ?_
    exact follows_ofExcept fun f hf => Value.binary_rename hf op v w
  | logical _ op l r =>
    refine (ih.eval env l).bind fun v => ?_
    simp only [Value.decides_rename]
    split
    · exact follows_pure fun f => rfl
    · exact ih.eval env r
  | call _ g args =>
    exact (ih.eval env g).bind fun v => (ih.evalList env args).bind fun vs => ih.call v vs
  | conditional _ t c a =>
    refine (ih.eval env t).bind fun v => ?_
    simp only [Value.isTruthy_rename]
    split
    · exact ih.eval env c
    · exact ih.eval env a
  | array _ es =>
    refine (ih.evalList env es).bind fun vs => ?_
    exact follows_fresh fun f l => rfl
  | member _ o p computed =>
    refine (ih.eval env o).bind fun v => ?_
    cases computed with
    | true =>
      refine (ih.eval env p).bind fun key => ?_
      simp only [Value.text_rename]
      exact follows_ofExcept fun f _ => Value.property_rename v _
    | false => exact follows_ofExcept fun f _ => Value.property_rename v _
  | function => exact follows_fresh fun f l => rfl
  | success _ e =>
    refine (ih.eval env e).bind fun v => ?_
    exact follows_fresh fun f l => rfl
  | wrap _ g args | depend _ _ g args =>
    refine (ih.eval env g).bind fun v => (ih.evalList env args).bind fun vs => ?_
    exact follows_fresh fun f l => rfl
  | operator _ name =>
    simp only [DeltaForm.eval]
    cases hop : Native.ofOperator? name with
    | some g =>
      refine follows_fresh fun f l => ?_
      rw [Value.rename, Native.rename_of_ofOperator? hop]
    | none => exact follows_fail
  | choice => exact follows_fresh fun f l => rfl

theorem call_succ (ih : FollowsTo depth n) (g : Value) (args : List Value) :
    Follows Value.rename (DeltaForm.call (depth + 1) g args) fun f =>
      DeltaForm.call (n + 1) (g.rename f) (Value.renameList f args) := by
  cases g with
  | closure l name ps body env =>
    -- The function is renamed where it is called and where it sees itself.
    have hbound := ih.bindParams (Env.withSelf env name (.closure l name ps body env)) ps args
    simp only [← Env.withSelf_rename] at hbound
    exact hbound.bind fun env => ih.eval env body
  | native => exact ih.callNative _ args
  | _ => exact follows_fail

theorem bindParams_succ (ih : FollowsTo depth n) (env : Env) (ps : List Param)
    (args : List Value) :
    Follows Env.rename (DeltaForm.bindParams (depth + 1) env ps args) fun f =>
      DeltaForm.bindParams (n + 1) (env.rename f) ps (Value.renameList f args) := by
  cases ps with
  | nil => exact follows_pure fun f => rfl
  | cons p ps =>
    cases p with
    | required name span =>
      simp only [DeltaForm.bindParams, argument_rename, Value.tail_renameList]
      exact ih.bindParams _ ps args.tail
    | optional name span d =>
      simp only [DeltaForm.bindParams, argument_rename, Value.tail_renameList]
      refine (?_ : Follows Value.rename _ _).bind fun v => ih.bindParams _ ps args.tail
      cases argument args 0 with
      | undefined => exact ih.eval env d
      | _ => exact follows_pure fun f => rfl

theorem callNative_succ (ih : FollowsTo depth n) (g : Native) (args : List Value) :
    Follows Value.rename (DeltaForm.callNative (depth + 1) g args) fun f =>
      DeltaForm.callNative (n + 1) (g.rename f) (Value.renameList f args) := by
  cases g with
  | binary op =>
    simp only [Native.rename, DeltaForm.callNative, argument_rename]
    exact follows_ofExcept fun f hf => Value.binary_rename hf op _ _
  | logical op =>
    simp only [Native.rename, DeltaForm.callNative, argument_rename, Value.decides_rename]
    refine follows_pure fun f => ?_
    split <;> rfl
  | unary op =>
    simp only [Native.rename, DeltaForm.callNative, argument_rename]
    exact follows_pure fun f => Value.unary_rename op _
  | member =>
    simp only [Native.rename, DeltaForm.callNative, argument_rename, Value.text_rename]
    exact follows_ofExcept fun f _ => Value.property_rename _ _
  | array => exact follows_fresh fun f l => rfl
  | choice =>
    match args with
    | [test, consequent, alternate] =>
      simp only [Native.rename, DeltaForm.callNative, Value.renameList, Value.isTruthy_rename]
      split
      · exact ih.call consequent []
      · exact ih.call alternate []
    | [] | [_] | [_, _] | _ :: _ :: _ :: _ :: _ => exact follows_fail
  | success =>
    simp only [Native.rename, DeltaForm.callNative, argument_rename]
    exact follows_fresh fun f l => rfl
  | depend =>
    simp only [Native.rename, DeltaForm.callNative, argument_rename, Value.isTruthy_rename,
      Value.drop_renameList]
    exact follows_fresh fun f l => rfl
  | lookup name table =>
    -- The key is a text, and the table is renamed as a whole.
    have hkey : ∀ f, (Value.renameList f args).head?.map Value.text =
        args.head?.map Value.text := by
      intro f
      cases args with
      | nil => rfl
      | cons v _ => exact congrArg some (Value.text_rename v)
    simp only [Native.rename, DeltaForm.callNative, hkey]
    refine Follows.bind (follows_ofExcept fun f _ => Value.property_rename table _) fun v => ?_
    exact follows_fresh fun f l => rfl

end FollowsTo

/-- **Evaluation does not depend on labels:** it does the same from other labels on, and greater
depth changes nothing. -/
theorem followsTo {depth n : Nat} (h : depth ≤ n) : FollowsTo depth n := by
  induction depth generalizing n with
  | zero => exact .zero
  | succ depth ih =>
    cases n with
    | zero => cases h
    | succ n =>
      have h := ih (Nat.le_of_succ_le_succ h)
      exact ⟨h.eval_succ, h.evalList_succ, h.call_succ, h.bindParams_succ, h.callNative_succ⟩

/-- **Resolution does not depend on labels.** -/
theorem follows_resolve {depth n : Nat} (h : depth ≤ n) :
    (∀ v : Value, Follows Value.rename (resolve depth v) fun f => resolve n (v.rename f)) ∧
      ∀ vs : List Value,
        Follows Value.renameList (resolveList depth vs) fun f =>
          resolveList n (Value.renameList f vs) := by
  induction depth generalizing n with
  | zero => exact ⟨fun v => follows_giveUp, fun vs => follows_giveUp⟩
  | succ depth ih =>
    cases n with
    | zero => cases h
    | succ n =>
      have hn := Nat.le_of_succ_le_succ h
      constructor
      · intro v
        cases v with
        | state l d =>
          cases d with
          | success v => exact follows_pure fun f => rfl
          | depend lifted g args =>
            refine ((ih hn).1 g).bind fun g => ((ih hn).2 args).bind fun args => ?_
            refine ((followsTo hn).call g args).bind fun v => ?_
            cases lifted with
            | true => exact follows_pure fun f => rfl
            | false => exact (ih hn).1 v
          | deferred g args => exact ((followsTo hn).call g args).bind (ih hn).1
        | _ => exact follows_pure fun f => rfl
      · intro vs
        cases vs with
        | nil => exact follows_pure fun f => rfl
        | cons v vs =>
          refine ((ih hn).1 v).bind fun v => ((ih hn).2 vs).bind fun vs => ?_
          exact follows_pure fun f => rfl

end DeltaForm
