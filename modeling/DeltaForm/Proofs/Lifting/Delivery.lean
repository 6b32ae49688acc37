import DeltaForm.Proofs.Eval
import DeltaForm.Proofs.Lifting.Direct
import DeltaForm.Proofs.Renaming.Runs
import Mathlib.Data.List.Nodup

/-!
# What descriptors deliver

Evaluation of a lifted tree makes a descriptor, and resolution of the descriptor makes the calls
that direct evaluation of the source tree makes on its way. A tree **delivers** a meaning if
whatever resolution of its descriptors yields, the meaning yields too (`Delivers`).

The two do not make their values in the same order. Operands that need not wait have their values
before the first call is made, so the labels that direct evaluation needs for an operand come from
two ranges: one from the time when the descriptor was made, and one from the time when it was
resolved (`Drawn`).
-/

namespace DeltaForm

open Run (Follows Gives)

/-! ### Labels from two ranges -/

/-- Different labels, each from one of two ranges. -/
structure Drawn (ls : List Nat) (a b c d : Nat) : Prop where
  first : a ≤ b
  second : c ≤ d
  nodup : ls.Nodup
  mem : ∀ x ∈ ls, (a ≤ x ∧ x < b) ∨ (c ≤ x ∧ x < d)

namespace Drawn

variable {ls ls' : List Nat} {a b c d : Nat}

theorem nil : Drawn [] a a c c := ⟨le_rfl, le_rfl, List.nodup_nil, by simp⟩

theorem early (n : Nat) : Drawn (List.range' a n) a (a + n) c c :=
  ⟨by omega, le_rfl, List.nodup_range', fun x hx => .inl (by simpa using hx)⟩

theorem late (n : Nat) : Drawn (List.range' c n) a a c (c + n) :=
  ⟨le_rfl, by omega, List.nodup_range', fun x hx => .inr (by simpa using hx)⟩

theorem move (h : Drawn ls a a c d) (b : Nat) : Drawn ls b b c d := by
  refine ⟨le_rfl, h.second, h.nodup, fun x hx => ?_⟩
  have := h.mem x hx
  omega

/-- Labels that are used for something else do no harm. -/
theorem mono {a' b' c' d' : Nat} (h : Drawn ls a b c d) (ha : a' ≤ a) (hb : b ≤ b') (hc : c' ≤ c)
    (hd : d ≤ d') : Drawn ls a' b' c' d' := by
  obtain ⟨hab, hcd, hnodup, hmem⟩ := h
  refine ⟨by omega, by omega, hnodup, fun x hx => ?_⟩
  have := hmem x hx
  omega

theorem left (h : Drawn (ls ++ ls') a b c d) : Drawn ls a b c d :=
  ⟨h.first, h.second, h.nodup.of_append_left, fun x hx => h.mem x (List.mem_append_left _ hx)⟩

/-- Draws one after another, if the second range starts after the first one. -/
theorem append {m k : Nat} (h : Drawn ls a m c k) (h' : Drawn ls' m b k d) (hbc : b ≤ c) :
    Drawn (ls ++ ls') a b c d := by
  obtain ⟨ham, hck, hnodup, hmem⟩ := h
  obtain ⟨hmb, hkd, hnodup', hmem'⟩ := h'
  refine ⟨by omega, by omega, hnodup.append hnodup' fun x hx hx' => ?_, fun x hx => ?_⟩
  · have := hmem x hx
    have := hmem' x hx'
    omega
  · rcases List.mem_append.1 hx with hx | hx
    · have := hmem x hx
      omega
    · have := hmem' x hx
      omega

end Drawn

/-! ### Delayed branches -/

section Delayed

variable {depth : Nat} {env : Env} {a b : Nat}

theorem call_delayed_eq_ok {l : Label} {body : Expr} {w : Value}
    (h : call depth (.closure l none [] body env) [] a = .ok (w, b)) :
    ∃ n, eval n env body a = .ok (w, b) := by
  match depth, h with
  | n + 2, h => exact ⟨n + 1, h⟩

theorem eval_delayed_eq_ok {body : Expr} {s : Value}
    (h : eval depth env (Lifted.delayed body) a = .ok (s, b)) :
    ∃ l m, s = .state m (.success (.closure l none [] body env)) := by
  obtain ⟨n, v, m, rfl, hv, rfl, rfl⟩ := eval_success_eq_ok h
  cases n with
  | zero => cases hv
  | succ => cases hv; exact ⟨a, a + 1, rfl⟩

/-- Delayed branches become functions, and resolution leaves them alone. -/
theorem resolveList_delayed {j k c d : Nat} {y z : Expr} {ss ws : List Value}
    (hss : evalList j env [Lifted.delayed y, Lifted.delayed z] a = .ok (ss, b))
    (hws : resolveList k ss c = .ok (ws, d)) :
    (∃ l l', ws = [.closure l none [] y env, .closure l' none [] z env]) ∧ d = c := by
  obtain ⟨j, s, ss₁, m, rfl, hs, hss₁, rfl⟩ := evalList_cons_eq_ok hss
  obtain ⟨j, t, ss₂, m', rfl, ht, hss₂, rfl⟩ := evalList_cons_eq_ok hss₁
  obtain ⟨rfl, rfl⟩ := evalList_nil_eq_ok hss₂
  obtain ⟨l, _, rfl⟩ := eval_delayed_eq_ok hs
  obtain ⟨l', _, rfl⟩ := eval_delayed_eq_ok ht
  obtain ⟨k, v, ws₁, n, rfl, hv, hws₁, rfl⟩ := resolveList_cons_eq_ok hws
  obtain ⟨k, w, ws₂, n', rfl, hw, hws₂, rfl⟩ := resolveList_cons_eq_ok hws₁
  obtain ⟨rfl, rfl⟩ := resolveList_nil_eq_ok hws₂
  obtain ⟨rfl, rfl⟩ := resolve_success_eq_ok hv
  obtain ⟨rfl, rfl⟩ := resolve_success_eq_ok hw
  exact ⟨⟨l, l', rfl⟩, rfl⟩

/-- The choice between two delayed branches evaluates one of them. -/
theorem call_choice_eq_ok {l l₁ l₂ : Label} {v w : Value} {y z : Expr}
    (h : call depth (.native l .choice)
      [v, .closure l₁ none [] y env, .closure l₂ none [] z env] a = .ok (w, b)) :
    ∃ n, eval n env (if v.isTruthy then y else z) a = .ok (w, b) := by
  obtain ⟨n, h⟩ := call_native_eq_ok h
  rw [callNative] at h
  cases ht : v.isTruthy with
  | true => rw [ht] at h; exact call_delayed_eq_ok h
  | false => rw [ht] at h; exact call_delayed_eq_ok h

end Delayed

/-! ### Descriptors and meanings -/

/-- What a tree means: its run to a depth, with values for its names. -/
abbrev Meaning := Nat → Env → Run Value

/-- Whatever resolution of `s` yields, `R` yields too. The labels from `a` up to `b` are those that
were used when `s` was made. -/
def Promises (R : Meaning) (env : Env) (a b : Nat) (s : Value) : Prop :=
  ∀ ⦃k c d : Nat⦄ ⦃w : Value⦄, b ≤ c → resolve k s c = .ok (w, d) →
    ∃ ls, Drawn ls a b c d ∧ Gives Value.rename (fun n f => R n (env.rename f)) w ls

/-- Evaluation of `x` makes descriptors whose resolution yields what `R` yields. -/
def Delivers (R : Meaning) (x : Expr) : Prop :=
  ∀ ⦃j : Nat⦄ ⦃env : Env⦄ ⦃a b : Nat⦄ ⦃s : Value⦄, eval j env x a = .ok (s, b) →
    Promises R env a b s

/-- Evaluation of `x` and resolution at once yields what `R` yields. -/
def Settles (R : Meaning) (x : Expr) : Prop :=
  ∀ ⦃j k : Nat⦄ ⦃env : Env⦄ ⦃a b c : Nat⦄ ⦃s w : Value⦄, eval j env x a = .ok (s, b) →
    resolve k s b = .ok (w, c) →
    ∃ ls, Drawn ls a a a c ∧ Gives Value.rename (fun n f => R n (env.rename f)) w ls

/-- Evaluation of `x` yields what `R` yields. -/
def Mirrors (R : Meaning) (x : Expr) : Prop :=
  ∀ ⦃j : Nat⦄ ⦃env : Env⦄ ⦃a b : Nat⦄ ⦃v : Value⦄, eval j env x a = .ok (v, b) →
    ∃ i, b = a + i ∧ Gives Value.rename (fun n f => R n (env.rename f)) v (List.range' a i)

variable {ns : String} {R : Meaning} {x : Expr} {env : Env}

theorem Mirrors.delivers (h : Mirrors R x) (site : Site) : Delivers R (.success site x) := by
  intro j env a b s hs k c d w hc hw
  obtain ⟨j, v, m, rfl, hv, rfl, rfl⟩ := eval_success_eq_ok hs
  obtain ⟨rfl, rfl⟩ := resolve_success_eq_ok hw
  obtain ⟨i, rfl, hgives⟩ := h hv
  exact ⟨_, (Drawn.early i).mono le_rfl (Nat.le_succ _) le_rfl le_rfl, hgives⟩

theorem Delivers.settles (h : Delivers R x) : Settles R x := by
  intro j k env a b c s w hs hw
  obtain ⟨ls, ⟨hab, hbc, hnodup, hmem⟩, hgives⟩ := h hs le_rfl hw
  refine ⟨ls, ⟨le_rfl, hab.trans hbc, hnodup, fun y hy => ?_⟩, hgives⟩
  have := hmem y hy
  omega

theorem Mirrors.settles (h : Mirrors R x) : Settles (fun n env => R n env >>= resolve n) x := by
  intro j k env a b c s w hs hw
  obtain ⟨i, rfl, hgives⟩ := h hs
  obtain ⟨i', rfl, hgives'⟩ := Follows.gives (fun n hn => (follows_resolve hn).1 s) hw
  refine ⟨_, ?_, hgives.bind hgives'⟩
  rw [List.range'_append_1, Nat.add_assoc]
  exact Drawn.late _

/-- The first of some operands. -/
theorem Delivers.cons (h : Delivers R x) {j k a b c d : Nat} {xs : List Expr} {ss ws : List Value}
    (hbc : b ≤ c) (hss : evalList j env (x :: xs) a = .ok (ss, b))
    (hws : resolveList k ss c = .ok (ws, d)) :
    ∃ i l m m' ss' w ws' ls, ws = w :: ws' ∧ Drawn ls a m c m' ∧
      Gives Value.rename (fun n f => R n (env.rename f)) w ls ∧
      evalList i env xs m = .ok (ss', b) ∧ resolveList l ss' m' = .ok (ws', d) := by
  obtain ⟨i, s, ss', m, rfl, hs, hss', rfl⟩ := evalList_cons_eq_ok hss
  obtain ⟨l, w, ws', m', rfl, hw, hws', rfl⟩ := resolveList_cons_eq_ok hws
  -- The other operands are evaluated before this one is resolved.
  have hmb := ((followsTo le_rfl).evalList env xs).le hss'
  obtain ⟨ls, hdrawn, hgives⟩ := h hs (hmb.trans hbc) hw
  exact ⟨i, l, m, m', ss', w, ws', ls, rfl, hdrawn, hgives, hss', hws'⟩

theorem Delivers.single (h : Delivers R x) {j k a b c d : Nat} {ss ws : List Value} (hbc : b ≤ c)
    (hss : evalList j env [x] a = .ok (ss, b)) (hws : resolveList k ss c = .ok (ws, d)) :
    ∃ v ls, ws = [v] ∧ Drawn ls a b c d ∧
      Gives Value.rename (fun n f => R n (env.rename f)) v ls := by
  obtain ⟨i, l, m, m', ss', v, ws', ls, rfl, hdrawn, hgives, hss', hws'⟩ := h.cons hbc hss hws
  obtain ⟨rfl, rfl⟩ := evalList_nil_eq_ok hss'
  obtain ⟨rfl, rfl⟩ := resolveList_nil_eq_ok hws'
  exact ⟨v, ls, rfl, hdrawn, hgives⟩

theorem Delivers.pair {R' : Meaning} {y : Expr} (h : Delivers R x) (h' : Delivers R' y)
    {j k a b c d : Nat} {ss ws : List Value} (hbc : b ≤ c)
    (hss : evalList j env [x, y] a = .ok (ss, b)) (hws : resolveList k ss c = .ok (ws, d)) :
    ∃ v w ls ls', ws = [v, w] ∧ Drawn (ls ++ ls') a b c d ∧
      Gives Value.rename (fun n f => R n (env.rename f)) v ls ∧
      Gives Value.rename (fun n f => R' n (env.rename f)) w ls' := by
  obtain ⟨i, l, m, m', ss', v, ws', ls, rfl, hdrawn, hgives, hss', hws'⟩ := h.cons hbc hss hws
  obtain ⟨w, ls', rfl, hdrawn', hgives'⟩ := h'.single (hbc.trans hdrawn.second) hss' hws'
  exact ⟨v, w, ls, ls', rfl, hdrawn.append hdrawn' hbc, hgives, hgives'⟩

theorem delivers_list {es xs : List Expr}
    (h : List.Forall₂ (fun e x => Delivers (direct ns · · e) x) es xs) {j k a b c d : Nat}
    {ss ws : List Value} (hbc : b ≤ c) (hss : evalList j env xs a = .ok (ss, b))
    (hws : resolveList k ss c = .ok (ws, d)) :
    ∃ ls, Drawn ls a b c d ∧
      Gives Value.renameList (fun n f => directList ns n (env.rename f) es) ws ls := by
  induction h generalizing j k a c ss ws with
  | nil =>
    obtain ⟨rfl, rfl⟩ := evalList_nil_eq_ok hss
    obtain ⟨rfl, rfl⟩ := resolveList_nil_eq_ok hws
    exact ⟨[], .nil, .succ (Run.gives_pure fun f => rfl)⟩
  | cons h _ ih =>
    obtain ⟨i, l, m, m', ss', v, ws', ls, rfl, hdrawn, hgives, hss', hws'⟩ := h.cons hbc hss hws
    obtain ⟨ls', hdrawn', hgives'⟩ := ih (hbc.trans hdrawn.second) hss' hws'
    refine ⟨ls ++ (ls' ++ []), ?_, .succ (hgives.bind (hgives'.bind (Run.gives_pure fun f => rfl)))⟩
    rw [List.append_nil]
    exact hdrawn.append hdrawn' hbc

/-! ### Nodes that wait -/

/-- An operator that waits for its operands. -/
theorem delivers_operation {site site' : Site} {name : String} {g : Native} {xs : List Expr}
    (hg : Native.ofOperator? name = some g)
    (h : ∀ ⦃i j k : Nat⦄ ⦃env : Env⦄ ⦃a b c m d : Nat⦄ ⦃ss ws : List Value⦄ ⦃w : Value⦄, b ≤ c →
      evalList j env xs a = .ok (ss, b) → resolveList k ss c = .ok (ws, m) →
      callNative (i + 1) g ws m = .ok (w, d) →
      ∃ ls, Drawn ls a b c d ∧ Gives Value.rename (fun n f => R (n + 1) (env.rename f)) w ls) :
    Delivers R (.depend site true (.operator site' name) xs) := by
  intro j env a b s hs k c d w hc hw
  obtain ⟨j, g', ss, m, b, rfl, hg', hss, rfl, rfl⟩ := eval_depend_eq_ok hs
  obtain ⟨k, g'', ws, c', m', rfl, hg'', hws, hcall⟩ := resolve_depend_eq_ok hw
  -- The operator is a native function, which resolution of the descriptor calls.
  cases j with
  | zero => cases hg'
  | succ j =>
    rw [eval, hg] at hg'
    cases hg'
    obtain ⟨rfl, rfl⟩ := resolve_native_eq_ok hg''
    obtain ⟨v, _, hv, hpure⟩ := Run.bind_eq_ok_iff.1 hcall
    cases hpure
    obtain ⟨i, hv⟩ := call_native_eq_ok hv
    obtain ⟨ls, hdrawn, hgives⟩ := h (Nat.le_of_succ_le hc) hss hws hv
    exact ⟨ls, hdrawn.mono (Nat.le_succ a) (Nat.le_succ b) le_rfl le_rfl, .succ hgives⟩

theorem follows_callResult (lifted : Bool) {k n : Nat} (h : k ≤ n) (g : Value) (vs : List Value) :
    Follows Value.rename (call k g vs >>= fun v => if lifted then pure v else resolve k v) fun f =>
      call n (g.rename f) (Value.renameList f vs) >>= fun v =>
        if lifted then pure v else resolve n v := by
  refine ((followsTo h).call g vs).bind fun v => ?_
  cases lifted with
  | true => exact Run.follows_pure fun f => rfl
  | false => exact (follows_resolve h).1 v

/-- A call that waits for its operands. -/
theorem delivers_call {site : Site} {lifted : Bool} {R' : Meaning} {es xs : List Expr}
    (hx : Delivers R' x) (hxs : List.Forall₂ (fun e x => Delivers (direct ns · · e) x) es xs)
    (hR : ∀ n env, R (n + 1) env = do
      let g ← R' n env
      let vs ← directList ns n env es
      let v ← call n g vs
      if lifted then pure v else resolve n v) :
    Delivers R (.depend site lifted x xs) := by
  intro j env a b s hs k c d w hc hw
  obtain ⟨j, g, ss, m, b, rfl, hg, hss, rfl, rfl⟩ := eval_depend_eq_ok hs
  obtain ⟨k, g', ws, c', m', rfl, hg', hws, hcall⟩ := resolve_depend_eq_ok hw
  have hbc := Nat.le_of_succ_le hc
  -- The arguments are evaluated before the callee is resolved.
  have hmb := ((followsTo le_rfl).evalList env xs).le hss
  obtain ⟨ls, hdrawn, hgives⟩ := hx hg (hmb.trans hbc) hg'
  obtain ⟨ls', hdrawn', hgives'⟩ := delivers_list hxs (hbc.trans hdrawn.second) hss hws
  obtain ⟨i, rfl, hresult⟩ := Follows.gives (fun n hn => follows_callResult lifted hn g' ws) hcall
  have hall := (hdrawn.append hdrawn' hbc).append (Drawn.late i) hbc
  rw [List.append_assoc] at hall
  refine ⟨_, hall.mono le_rfl (Nat.le_succ b) le_rfl le_rfl, .succ ?_⟩
  simp only [hR]
  exact hgives.bind (hgives'.bind hresult)

/-- A call of a function that yields a state. -/
theorem delivers_wrap {site : Site} {xs : List Expr}
    (hR : ∀ n env, R (n + 1) env = do
      let g ← eval n env x
      let vs ← evalList n env xs
      let v ← call n g vs
      resolve n v) :
    Delivers R (.wrap site x xs) := by
  intro j env a b s hs k c d w hc hw
  obtain ⟨j, g, vs, m, b, rfl, hg, hvs, rfl, rfl⟩ := eval_wrap_eq_ok hs
  obtain ⟨k, rfl, hw⟩ := resolve_deferred_eq_ok hw
  have hbc := Nat.le_of_succ_le hc
  obtain ⟨i, rfl, hgives⟩ := Follows.gives (fun n hn => (followsTo hn).eval env x) hg
  obtain ⟨i', rfl, hgives'⟩ := Follows.gives (fun n hn => (followsTo hn).evalList env xs) hvs
  obtain ⟨l, rfl, hcall⟩ := Follows.gives (fun n hn => follows_callResult false hn g vs) hw
  have hall := ((Drawn.early i).append (Drawn.early i') hbc).append (Drawn.late l) hbc
  rw [List.append_assoc] at hall
  refine ⟨_, hall.mono le_rfl (Nat.le_succ _) le_rfl le_rfl, .succ ?_⟩
  simp only [hR]
  exact hgives.bind (hgives'.bind hcall)

/-- A conditional that need not wait for its test, between descriptors. -/
theorem delivers_conditional {site : Site} {t y z : Expr} {Rt Ry Rz : Meaning} (ht : Mirrors Rt t)
    (hy : Delivers Ry y) (hz : Delivers Rz z)
    (hR : ∀ n env, R (n + 1) env = do
      let v ← Rt n env
      if v.isTruthy then Ry n env else Rz n env) :
    Delivers R (.conditional site t y z) := by
  intro j env a b s hs k c d w hc hw
  cases j with
  | zero => cases hs
  | succ j =>
    obtain ⟨v, m, hv, hs⟩ := Run.bind_eq_ok_iff.1 hs
    obtain ⟨i, rfl, hgives⟩ := ht hv
    -- The test is evaluated when the descriptor is made, and its branch is the descriptor.
    have hbranch : Promises (fun n env => if v.isTruthy then Ry n env else Rz n env) env (a + i) b
        s := by
      cases ht : v.isTruthy with
      | true => rw [ht] at hs; exact hy hs
      | false => rw [ht] at hs; exact hz hs
    obtain ⟨ls, hdrawn, hgives'⟩ := hbranch hc hw
    refine ⟨_, (Drawn.early i).append hdrawn hc, .succ ?_⟩
    simp only [hR]
    refine hgives.bind ?_
    simpa only [Value.isTruthy_rename] using hgives'

/-- A conditional that waits for its test. -/
theorem delivers_choice {site site' : Site} {t y z : Expr} {Rt Ry Rz : Meaning} (ht : Delivers Rt t)
    (hy : Settles Ry y) (hz : Settles Rz z)
    (hR : ∀ n env, R (n + 1) env = do
      let v ← Rt n env
      if v.isTruthy then Ry n env else Rz n env) :
    Delivers R (.depend site false (.choice site') [t, Lifted.delayed y, Lifted.delayed z]) := by
  intro j env a b s hs k c d w hc hw
  obtain ⟨j, g, ss, m, b, rfl, hg, hss, rfl, rfl⟩ := eval_depend_eq_ok hs
  obtain ⟨k, g', ws, c', m', rfl, hg', hws, hcall⟩ := resolve_depend_eq_ok hw
  have hbc := Nat.le_of_succ_le hc
  cases j with
  | zero => cases hg
  | succ j =>
    cases hg
    obtain ⟨rfl, rfl⟩ := resolve_native_eq_ok hg'
    obtain ⟨i, l, m₁, c₁, ss', v, ws', ls, rfl, hdrawn, hgives, hss', hws'⟩ := ht.cons hbc hss hws
    have hmb := ((followsTo le_rfl).evalList env _).le hss'
    -- The chosen branch is evaluated only now, so all its labels come after those of the test.
    obtain ⟨⟨l₁, l₂, rfl⟩, rfl⟩ := resolveList_delayed hss' hws'
    obtain ⟨s, c₂, hs, hres⟩ := Run.bind_eq_ok_iff.1 hcall
    obtain ⟨j', hs⟩ := call_choice_eq_ok hs
    have hbranch : ∃ ls', Drawn ls' m' m' m' d ∧ Gives Value.rename (fun n f =>
        if v.isTruthy then Ry n (env.rename f) else Rz n (env.rename f)) w ls' := by
      cases htruthy : v.isTruthy with
      | true => rw [htruthy] at hs; exact hy hs hres
      | false => rw [htruthy] at hs; exact hz hs hres
    obtain ⟨ls', hdrawn', hgives'⟩ := hbranch
    have hall := hdrawn.append (hdrawn'.move m₁) (hmb.trans hbc)
    refine ⟨_, hall.mono (Nat.le_succ a) (Nat.le_succ_of_le hmb) le_rfl le_rfl, .succ ?_⟩
    simp only [hR]
    refine hgives.bind ?_
    simpa only [Value.isTruthy_rename] using hgives'

end DeltaForm
