import DeltaForm.Proofs.Lifting.Rules

/-!
# Lifting is linear

A lifted tree is made of the nodes of its source and of new ones, which have no number. Every node
of the source is used at most once: the numbers of a lifted tree, read from left to right, are a
sublist of those of its source. And a rule of lifting makes at most six nodes out of one, so the
tree grows by a constant factor at most. `Lifted.MadeOf` says both of one rule, and `Linear` of a
whole tree.

All nodes count here, also the property in `o.p`.
-/

namespace DeltaForm

namespace Expr

/-- A node without a number adds nothing to the numbers of its parts. -/
theorem ids_of_synthetic {e : Expr} (h : e.site.id = none) : e.ids = e.parts.flatMap ids := by
  rw [ids_eq, h]
  rfl

theorem ids_of_leaf {e : Expr} (hid : e.site.id = none) (hparts : e.parts = []) : e.ids = [] := by
  rw [ids_of_synthetic hid, hparts]
  rfl

theorem size_of_leaf {e : Expr} (hparts : e.parts = []) : e.size = 1 := by
  rw [size_eq, hparts]
  rfl

/-- A node around one tree. -/
theorem size_of_single {e c : Expr} (hparts : e.parts = [c]) : e.size = c.size + 1 := by
  rw [size_eq, hparts, sizeList_cons, sizeList_nil, Nat.add_zero, Nat.add_comm]

end Expr

/-! ### One node -/

namespace Lifted

variable {l o t c a : Lifted} {os : List Lifted} {site : Site} {span : Span} {ty : Ty}
  {e p plain : Expr}

/-- `l` is made of `os` in their order, each used once, of a node with the number of `site`, if any,
and of new nodes, with which it has six at most when it is used as a state. -/
structure MadeOf (site : Site) (os : List Lifted) (l : Lifted) : Prop where
  ids : l.expr.ids.Sublist (site.id.toList ++ (os.map expr).flatMap Expr.ids)
  size : l.asState.size ≤ 6 + Expr.sizeList (os.map asState)

theorem ids_success : (Expr.success (.synthetic span) e).ids = e.ids := by
  rw [Expr.ids_of_synthetic rfl]
  exact List.flatMap_singleton _ _

theorem size_success : (Expr.success site e).size = e.size + 1 := Expr.size_of_single rfl

theorem ids_asState : l.asState.ids = l.expr.ids := by
  by_cases hs : l.ty = .state
  · rw [asState_of_eq hs]
  · rw [asState_of_ne hs, ids_success]

theorem size_le_asState : l.expr.size ≤ l.asState.size := by
  by_cases hs : l.ty = .state
  · exact Nat.le_of_eq (by rw [asState_of_eq hs])
  · rw [asState_of_ne hs, size_success]
    exact Nat.le_succ _

theorem size_asState_le : l.asState.size ≤ l.expr.size + 1 := by
  by_cases hs : l.ty = .state
  · rw [asState_of_eq hs]
    exact Nat.le_succ _
  · exact Nat.le_of_eq (by rw [asState_of_ne hs, size_success])

theorem ids_map_asState : (os.map asState).flatMap Expr.ids = (os.map expr).flatMap Expr.ids := by
  simp only [List.flatMap_map, ids_asState]

theorem size_map_expr_le : Expr.sizeList (os.map expr) ≤ Expr.sizeList (os.map asState) := by
  induction os with
  | nil => exact Nat.le_refl _
  | cons o os ih =>
    rw [List.map_cons, List.map_cons, Expr.sizeList_cons, Expr.sizeList_cons]
    exact Nat.add_le_add size_le_asState ih

theorem ids_depend {lifted : Bool} {args : List Expr} :
    (depend span lifted e args).expr.ids = e.ids ++ args.flatMap Expr.ids :=
  Expr.ids_of_synthetic rfl

theorem size_depend {lifted : Bool} {args : List Expr} :
    (depend span lifted e args).expr.size = 1 + (e.size + Expr.sizeList args) := by
  rw [← Expr.sizeList_cons]
  exact Expr.size_eq

/-- A call of the runtime that waits for `os`. -/
theorem madeOf_depend {lifted : Bool} (hid : e.site.id = none) (hparts : e.parts = []) :
    MadeOf site os (depend span lifted e (os.map asState)) where
  ids := by
    rw [ids_depend, Expr.ids_of_leaf hid hparts, ids_map_asState]
    exact List.sublist_append_right _ _
  size := by
    rw [asState_of_eq rfl, size_depend, Expr.size_of_leaf hparts]
    omega

/-- One of the six nodes may be needed to make a state of the tree. -/
theorem MadeOf.of_size_le
    (hids : l.expr.ids.Sublist (site.id.toList ++ (os.map expr).flatMap Expr.ids))
    (hsize : l.expr.size ≤ 5 + Expr.sizeList (os.map asState)) : MadeOf site os l :=
  ⟨hids, Nat.le_trans size_asState_le (by omega)⟩

/-- A node that keeps its operands. -/
theorem madeOf_node (hsite : e.site = site) (hparts : e.parts = os.map expr) :
    MadeOf site os ⟨ty, e⟩ := by
  refine .of_size_le ?_ ?_
  · rw [Expr.ids_eq, hsite, hparts]
  · have hsum : Expr.sizeList (os.map expr) ≤ _ := size_map_expr_le
    rw [Expr.size_eq, hparts]
    omega

theorem madeOf_operation {name : String} (hsite : plain.site = site)
    (hparts : plain.parts = os.map expr) : MadeOf site os (operation span name os plain) := by
  cases hw : waits os with
  | true =>
    rw [operation_of_waits hw]
    exact madeOf_depend rfl rfl
  | false =>
    rw [operation_of_not_waits hw]
    exact madeOf_node hsite hparts

theorem madeOf_application : MadeOf site (o :: os) (application site o os) := by
  cases hw : waits (o :: os) with
  | true =>
    rw [application_of_waits hw]
    constructor
    · rw [ids_depend, ids_asState, ids_map_asState]
      exact List.sublist_append_right _ _
    · rw [asState_of_eq rfl, size_depend, List.map_cons, Expr.sizeList_cons]
      omega
  | false =>
    by_cases hf : o.ty = .toState
    · rw [application_of_toState hw hf]
      exact madeOf_node rfl rfl
    · rw [application_of_ne hw hf]
      exact madeOf_node rfl rfl

/-- The property of a named access is kept, or a literal with its name takes its place. -/
theorem madeOf_namedMember :
    MadeOf site [o, ⟨.value, p⟩] ⟨ty, (namedMember site o p).expr⟩ := by
  by_cases hs : o.ty = .state
  · let key : Lifted := ⟨.value, .string (.synthetic p.span) (p.ident?.getD "")⟩
    have hw : waits [o, key] = true := waits_iff.2 ⟨o, List.mem_cons_self, hs⟩
    rw [namedMember, operation_of_waits hw]
    refine .of_size_le ?_ ?_
    · have hkey : key.expr.ids = [] := Expr.ids_of_leaf rfl rfl
      rw [ids_depend, Expr.ids_of_leaf rfl rfl, ids_map_asState]
      simp [hkey]
    · -- the literal and the node around it take the place of the property
      have hkey : key.asState.size = 2 := by
        rw [asState_of_ne (by simp [key]), size_success, Expr.size_of_leaf rfl]
      rw [size_depend, Expr.size_of_leaf rfl]
      simp only [List.map_cons, List.map_nil, Expr.sizeList_cons, Expr.sizeList_nil, hkey]
      omega
  · rw [namedMember_of_ne hs]
    exact madeOf_node rfl rfl

theorem ids_delayed : (delayed e).ids = e.ids := by
  rw [delayed, ids_success, Expr.ids_of_synthetic rfl]
  exact List.flatMap_singleton _ _

theorem size_delayed : (delayed e).size = e.size + 2 := by
  rw [delayed, size_success, Expr.size_of_single rfl]

theorem ids_branch : (branch ty o).ids = o.expr.ids := by
  by_cases hs : ty = .state
  · rw [branch_of_eq hs, ids_asState]
  · rw [branch_of_ne hs]

theorem size_branch_le : (branch ty o).size ≤ o.asState.size := by
  by_cases hs : ty = .state
  · exact Nat.le_of_eq (by rw [branch_of_eq hs])
  · rw [branch_of_ne hs]
    exact size_le_asState

theorem madeOf_choose : MadeOf site [t, c, a] (choose site ty t c a) := by
  have ht := size_le_asState (l := t)
  have hc : (branch ty c).size ≤ c.asState.size := size_branch_le
  have ha : (branch ty a).size ≤ a.asState.size := size_branch_le
  by_cases hs : t.ty = .state
  · rw [choose_of_eq hs]
    constructor
    · rw [ids_depend, Expr.ids_of_leaf rfl rfl]
      simp [ids_delayed, ids_branch]
    · -- the call, its operator, and two nodes around each branch
      rw [asState_of_eq rfl, size_depend, Expr.size_of_leaf rfl]
      simp only [List.map_cons, List.map_nil, Expr.sizeList_cons, Expr.sizeList_nil, size_delayed]
      omega
  · rw [choose_of_ne hs]
    refine .of_size_le ?_ ?_
    · rw [Expr.ids_eq]
      simp [Expr.site, Expr.parts, Expr.children, ids_branch]
    · rw [Expr.size_eq]
      simp only [Expr.parts, Expr.children, List.map_cons, List.map_nil, Expr.sizeList_cons,
        Expr.sizeList_nil]
      omega

end Lifted

/-! ### Whole trees -/

/-- What lifting `e` to `l` keeps: no number is new or used twice, and as a state the tree has at
most six nodes for each of `e`. -/
structure Linear (e : Expr) (l : Lifted) : Prop where
  ids : l.expr.ids.Sublist e.ids
  size : l.asState.size ≤ 6 * e.size

namespace Linear

variable {e : Expr} {l : Lifted} {es : List Expr} {ls : List Lifted}

theorem ids_of_forall₂ (h : List.Forall₂ Linear es ls) :
    ((ls.map Lifted.expr).flatMap Expr.ids).Sublist (es.flatMap Expr.ids) := by
  induction h with
  | nil => exact .slnil
  | cons he _ ih => exact he.ids.append ih

theorem size_of_forall₂ (h : List.Forall₂ Linear es ls) :
    Expr.sizeList (ls.map Lifted.asState) ≤ 6 * Expr.sizeList es := by
  induction h with
  | nil => exact Nat.le_refl _
  | cons he _ ih =>
    have hsize := he.size
    simp only [List.map_cons, Expr.sizeList_cons]
    omega

/-- A node is linear if its parts are: the node itself pays for the six new ones. -/
theorem of_madeOf (hmade : Lifted.MadeOf e.site ls l) (h : List.Forall₂ Linear e.parts ls) :
    Linear e l where
  ids := by
    rw [Expr.ids_eq (e := e)]
    exact hmade.ids.trans ((ids_of_forall₂ h).append_left _)
  size := by
    have hnode := hmade.size
    have hparts := size_of_forall₂ h
    rw [Expr.size_eq (e := e)]
    omega

theorem self (e : Expr) : Linear e ⟨.value, e⟩ where
  ids := List.Sublist.refl _
  size := by
    have hstate := Lifted.size_asState_le (l := ⟨.value, e⟩)
    have hpos := Expr.size_eq (e := e)
    simp only at hstate
    omega

/-- What is linear in an object is linear in an access to it. -/
theorem member {site : Site} {o p : Expr} {computed : Bool} (h : Linear o l) :
    Linear (.member site o p computed) l where
  ids := by
    rw [Expr.ids_eq (e := .member ..)]
    refine h.ids.trans (.trans ?_ (List.sublist_append_right _ _))
    exact List.sublist_append_left _ _
  size := by
    have hsize := h.size
    rw [Expr.size_eq (e := .member ..)]
    simp only [Expr.parts, Expr.sizeList_cons]
    omega

end Linear

variable {ns : String}

theorem Lifts.linear {e : Expr} {l : Lifted} (h : Lifts ns e l) : Linear e l := by
  induction h using Lifts.induction with
  | leaf => exact .self _
  | unary _ ih => exact .of_madeOf (Lifted.madeOf_operation rfl rfl) (.cons ih .nil)
  | binary _ _ iha ihb | logical _ _ iha ihb =>
    exact .of_madeOf (Lifted.madeOf_operation rfl rfl) (.cons iha (.cons ihb .nil))
  | call _ _ ihf ihargs =>
    exact .of_madeOf Lifted.madeOf_application (.cons ihf (ihargs.imp fun _ _ h => h.2))
  | conditional _ _ _ _ iht ihc iha =>
    exact .of_madeOf Lifted.madeOf_choose (.cons iht (.cons ihc (.cons iha .nil)))
  | array _ ih => exact .of_madeOf (Lifted.madeOf_operation rfl rfl) (ih.imp fun _ _ h => h.2)
  | named _ ih => exact .of_madeOf Lifted.madeOf_namedMember (.cons ih (.cons (.self _) .nil))
  | @var site os ps name =>
    -- the variable takes the number of the whole delta expression
    constructor
    · rw [Expr.ids_eq, Expr.ids_eq (e := .member ..)]
      exact (List.nil_sublist _).append_left _
    · rw [Lifted.asState_of_ne (by simp [Ty.toState]), Lifted.size_success, Expr.size_of_leaf rfl,
        Expr.size_eq]
      omega
  | hop _ ih =>
    refine .of_madeOf Lifted.madeOf_namedMember (.cons ?_ (.cons (.self _) .nil))
    exact ih.member
  | computed _ _ _ iho ihp =>
    exact .of_madeOf (Lifted.madeOf_operation rfl rfl) (.cons iho (.cons ihp .nil))
  | function _ _ ihps ihbody =>
    obtain ⟨ls, hls, heq⟩ := Param.Lifts.defaults ihps
    have hparts := List.rel_append (hls.imp fun _ _ h => h.2) (.cons ihbody .nil)
    refine .of_madeOf (Lifted.madeOf_node rfl ?_) hparts
    simp [Expr.parts, Expr.children, heq]

/-- **Lifting is linear.** If the numbers of a tree in lambda form are distinct, those of the lifted
tree are some of them, and distinct again, so no node is used twice; and the lifted tree is at most
six times as large. -/
theorem lift_linear {e : Expr} {l : Lifted} (hform : e.LambdaForm) (hids : e.ids.Nodup)
    (h : e.lift ns = .ok l) :
    (∀ i ∈ l.expr.ids, i ∈ e.ids) ∧ l.expr.ids.Nodup ∧ l.expr.size ≤ 6 * e.size := by
  have hlinear := (Lifts.of_lift hform h).linear
  exact ⟨fun _ hi => hlinear.ids.mem hi, hids.sublist hlinear.ids,
    Nat.le_trans Lifted.size_le_asState hlinear.size⟩

/-- `δ[f]() ? a : o.p`, numbered as the parser does. -/
def stateTest : Expr :=
  let site (i : Nat) : Site := ⟨some i, default⟩
  .conditional (site 8)
    (.call (site 3) (.member (site 2) (.ident (site 0) "δ") (.ident (site 1) "f") true) [])
    (.ident (site 4) "a")
    (.member (site 7) (.ident (site 5) "o") (.ident (site 6) "p") false)

theorem ids_stateTest : stateTest.ids = [8, 3, 2, 0, 1, 4, 7, 5, 6] := by
  simp [stateTest, Expr.ids_eq, Expr.site, Expr.parts, Expr.children]

/-- A test that is a state: both branches move into functions, and keep their numbers. -/
theorem lift_linear_stateTest :
    stateTest.LambdaForm ∧ stateTest.ids.Nodup ∧ ∃ l, stateTest.lift "δ" = .ok l ∧
      (∀ i ∈ l.expr.ids, i ∈ stateTest.ids) ∧ l.expr.ids.Nodup ∧
      l.expr.size ≤ 6 * stateTest.size := by
  have hform : stateTest.LambdaForm := by decide
  have hids : stateTest.ids.Nodup := by
    rw [ids_stateTest]
    decide
  obtain ⟨l, hlift⟩ : ∃ l, stateTest.lift "δ" = .ok l := ⟨_, rfl⟩
  exact ⟨hform, hids, l, hlift, lift_linear hform hids hlift⟩

end DeltaForm
