import DeltaForm.Expr.Delta
import Mathlib.Data.List.Basic

/-!
# Trees and their parts

`Expr.children` lists the parts of a node that are trees of the program themselves. The property of
`o.p` is none of them: it is a label, and nothing evaluates it. `Expr.Everywhere p` says that `p`
holds of a node and of everything below it; the two notions that the theory of lifting starts from
are of this form:

* a tree is in **lambda form** if no node is a runtime form (`Expr.LambdaForm`);
* a tree is **delta-free** for a namespace if no node is a delta expression (`Expr.DeltaFree`).

`Expr.parts` also has the property of `o.p`. With it come all the nodes that the parser numbers
(`Expr.nodes`).
-/

namespace DeltaForm

namespace Expr

/-- The parts of a node that are trees of the program, in source order. -/
def children : Expr → List Expr
  | unary _ _ e => [e]
  | binary _ _ l r => [l, r]
  | logical _ _ l r => [l, r]
  | call _ f args => f :: args
  | conditional _ t c a => [t, c, a]
  | array _ es => es
  | member _ o p computed => if computed then [o, p] else [o]
  | function _ _ ps body _ => ps.filterMap Param.default? ++ [body]
  | success _ v => [v]
  | wrap _ f args => f :: args
  | depend _ _ f args => f :: args
  | _ => []

theorem sizeOf_lt_of_mem_cons {f c : Expr} {args : List Expr} (h : c ∈ f :: args) :
    sizeOf c < 1 + sizeOf f + sizeOf args := by
  rcases List.mem_cons.1 h with rfl | h
  · omega
  · have := List.sizeOf_lt_of_mem h
    omega

theorem sizeOf_lt_of_mem_children {e c : Expr} (h : c ∈ e.children) : sizeOf c < sizeOf e := by
  cases e with
  | number | string | bool | null | undefined | ident | operator | choice => cases h
  | unary _ _ e =>
    cases List.mem_singleton.1 h
    rw [unary.sizeOf_spec]
    omega
  | binary _ _ l r =>
    simp only [children, List.mem_cons, List.not_mem_nil, or_false] at h
    rcases h with rfl | rfl <;> rw [binary.sizeOf_spec] <;> omega
  | logical _ _ l r =>
    simp only [children, List.mem_cons, List.not_mem_nil, or_false] at h
    rcases h with rfl | rfl <;> rw [logical.sizeOf_spec] <;> omega
  | call _ f args =>
    have := sizeOf_lt_of_mem_cons h
    rw [call.sizeOf_spec]
    omega
  | conditional _ t c a =>
    simp only [children, List.mem_cons, List.not_mem_nil, or_false] at h
    rcases h with rfl | rfl | rfl <;> rw [conditional.sizeOf_spec] <;> omega
  | array _ es =>
    have := List.sizeOf_lt_of_mem (show c ∈ es from h)
    rw [array.sizeOf_spec]
    omega
  | member _ o p computed =>
    have h : c = o ∨ c = p := by
      cases computed with
      | false => exact .inl (List.mem_singleton.1 h)
      | true => simpa [children] using h
    rcases h with rfl | rfl <;> rw [member.sizeOf_spec] <;> omega
  | function _ _ ps body _ =>
    rw [function.sizeOf_spec]
    simp only [children, List.mem_append, List.mem_filterMap, List.mem_singleton] at h
    rcases h with ⟨p, hp, hd⟩ | rfl
    · have hlt := List.sizeOf_lt_of_mem hp
      cases p with
      | required => cases hd
      | optional n s d =>
        cases hd
        rw [Param.optional.sizeOf_spec] at hlt
        omega
    · omega
  | success _ v =>
    cases List.mem_singleton.1 h
    rw [success.sizeOf_spec]
    omega
  | wrap _ f args =>
    have := sizeOf_lt_of_mem_cons h
    rw [wrap.sizeOf_spec]
    omega
  | depend _ _ f args =>
    have := sizeOf_lt_of_mem_cons h
    rw [depend.sizeOf_spec]
    omega

/-- What holds of a node whenever it holds of its parts holds of every tree. -/
theorem induction_on_children {p : Expr → Prop} (h : ∀ e, (∀ c ∈ e.children, p c) → p e)
    (e : Expr) : p e :=
  h e fun c _ => induction_on_children h c
termination_by sizeOf e
decreasing_by exact sizeOf_lt_of_mem_children ‹_›

/-- `p` holds of a node and of everything below it. -/
inductive Everywhere (p : Expr → Prop) : Expr → Prop
  | intro {e : Expr} (here : p e) (below : ∀ c ∈ e.children, Everywhere p c) : Everywhere p e

namespace Everywhere

variable {p : Expr → Prop} {e c : Expr}

theorem here (h : Everywhere p e) : p e := by
  cases h with
  | intro here _ => exact here

theorem child (h : Everywhere p e) (hc : c ∈ e.children) : Everywhere p c := by
  cases h with
  | intro _ below => exact below c hc

end Everywhere

theorem everywhere_iff {p : Expr → Prop} {e : Expr} :
    Everywhere p e ↔ p e ∧ ∀ c ∈ e.children, Everywhere p c :=
  ⟨fun h => ⟨h.here, fun _ => h.child⟩, fun h => ⟨h.1, h.2⟩⟩

/-- As `everywhere_iff`, in a form that computes on a given tree. -/
theorem everywhere_iff_forall {p : Expr → Prop} {e : Expr} :
    Everywhere p e ↔ p e ∧ e.children.Forall (Everywhere p) := by
  rw [everywhere_iff, List.forall_iff_forall_mem]

mutual

/-- Whether a test succeeds on a node and on everything below it. -/
def all (p : Expr → Bool) (e : Expr) : Bool :=
  p e && match e with
    | unary _ _ e => all p e
    | binary _ _ l r => all p l && all p r
    | logical _ _ l r => all p l && all p r
    | call _ f args => all p f && allList p args
    | conditional _ t c a => all p t && all p c && all p a
    | array _ es => allList p es
    | member _ o q computed => all p o && (!computed || all p q)
    | function _ _ ps body _ => allDefaults p ps && all p body
    | success _ v => all p v
    | wrap _ f args => all p f && allList p args
    | depend _ _ f args => all p f && allList p args
    | _ => true

/-- Whether a test succeeds everywhere in the trees of a list. -/
def allList (p : Expr → Bool) : List Expr → Bool
  | [] => true
  | e :: es => all p e && allList p es

/-- Whether a test succeeds everywhere in the defaults of parameters. -/
def allDefaults (p : Expr → Bool) : List Param → Bool
  | [] => true
  | .required _ _ :: ps => allDefaults p ps
  | .optional _ _ e :: ps => all p e && allDefaults p ps

end

theorem allList_eq (p : Expr → Bool) (es : List Expr) : allList p es = es.all (all p) := by
  induction es with
  | nil => rfl
  | cons e es ih => rw [allList, ih, List.all_cons]

theorem allDefaults_eq (p : Expr → Bool) (ps : List Param) :
    allDefaults p ps = (ps.filterMap Param.default?).all (all p) := by
  induction ps with
  | nil => rfl
  | cons q ps ih =>
    cases q with
    | required => exact ih
    | optional _ _ e =>
      rw [allDefaults, ih]
      rfl

/-- The test goes over the parts of a node. -/
theorem all_eq (p : Expr → Bool) (e : Expr) : all p e = (p e && e.children.all (all p)) := by
  unfold all
  congr 1
  cases e with
  | member _ _ _ computed => cases computed <;> simp [children]
  | _ => simp [children, allList_eq, allDefaults_eq, Bool.and_assoc]

theorem all_eq_true_iff {p : Expr → Bool} {e : Expr} :
    all p e = true ↔ Everywhere (fun s => p s = true) e := by
  induction e using induction_on_children with
  | h e ih =>
    rw [all_eq, Bool.and_eq_true, List.all_eq_true, everywhere_iff]
    exact and_congr_right fun _ => forall₂_congr ih

/-- What can be decided of a node can be decided of a whole tree. -/
instance {p : Expr → Prop} [DecidablePred p] : DecidablePred (Everywhere p) := fun e =>
  decidable_of_iff (all (fun s => decide (p s)) e = true) (by simp [all_eq_true_iff])

/-- The default of a parameter is part of the function. -/
theorem mem_children_of_mem_params {site : Site} {name : Option String} {ps : List Param}
    {body : Expr} {arrow : Bool} {n : String} {span : Span} {e : Expr}
    (h : Param.optional n span e ∈ ps) : e ∈ (function site name ps body arrow).children := by
  simp only [children, List.mem_append, List.mem_filterMap]
  exact .inl ⟨_, h, rfl⟩

/-- No node of the tree is a runtime form. -/
def LambdaForm (e : Expr) : Prop := Everywhere (fun s => s.isRuntimeForm = false) e

/-- No node of the tree is a delta expression of the namespace. -/
def DeltaFree (ns : String) (e : Expr) : Prop := Everywhere (fun s => s.stripDelta? ns = none) e

instance (e : Expr) : Decidable e.LambdaForm :=
  inferInstanceAs (Decidable (Everywhere (fun s => s.isRuntimeForm = false) e))

instance (ns : String) (e : Expr) : Decidable (e.DeltaFree ns) :=
  inferInstanceAs (Decidable (Everywhere (fun s => s.stripDelta? ns = none) e))

/-! ### All nodes -/

/-- The trees directly below a node, in source order. -/
def parts : Expr → List Expr
  | member _ o p _ => [o, p]
  | e => e.children

theorem sizeOf_lt_of_mem_parts {e c : Expr} (h : c ∈ e.parts) : sizeOf c < sizeOf e := by
  cases e with
  | member site o p computed =>
    have hc : c ∈ (member site o p true).children := h
    have hlt := sizeOf_lt_of_mem_children hc
    rw [member.sizeOf_spec] at hlt ⊢
    simpa using hlt
  | _ => exact sizeOf_lt_of_mem_children h

theorem induction_on_parts {p : Expr → Prop} (h : ∀ e, (∀ c ∈ e.parts, p c) → p e)
    (e : Expr) : p e :=
  h e fun c _ => induction_on_parts h c
termination_by sizeOf e
decreasing_by exact sizeOf_lt_of_mem_parts ‹_›

theorem parts_withSpan {e : Expr} {s : Span} : (e.withSpan s).parts = e.parts := by
  cases e <;> rfl

theorem id_withSpan {e : Expr} {s : Span} : (e.withSpan s).site.id = e.site.id := by
  cases e <;> rfl

theorem span_withSpan {e : Expr} {s : Span} : (e.withSpan s).span = s := by
  cases e <;> rfl

/-- The nodes of a tree, each before those below it. -/
def nodes (e : Expr) : List Expr := e :: e.parts.attach.flatMap fun c => c.1.nodes
termination_by sizeOf e
decreasing_by exact sizeOf_lt_of_mem_parts c.2

theorem nodes_eq {e : Expr} : e.nodes = e :: e.parts.flatMap nodes := by
  rw [nodes, List.flatMap_subtype fun _ _ => rfl, List.unattach_attach]

/-- The numbers of the nodes, but for those that have none. -/
def ids (e : Expr) : List Nat := e.nodes.filterMap fun s => s.site.id

/-- The number of nodes. -/
def size (e : Expr) : Nat := e.nodes.length

/-- The number of nodes of trees. -/
def sizeList (es : List Expr) : Nat := (es.flatMap nodes).length

theorem ids_eq {e : Expr} : e.ids = e.site.id.toList ++ e.parts.flatMap ids := by
  rw [ids, nodes_eq, List.filterMap_cons, List.filterMap_flatMap]
  cases e.site.id <;> rfl

theorem size_eq {e : Expr} : e.size = 1 + sizeList e.parts := by
  rw [size, nodes_eq, List.length_cons, Nat.add_comm]
  rfl

@[simp]
theorem sizeList_nil : sizeList [] = 0 := rfl

@[simp]
theorem sizeList_cons {e : Expr} {es : List Expr} : sizeList (e :: es) = e.size + sizeList es := by
  rw [sizeList, List.flatMap_cons, List.length_append]
  rfl

end Expr

end DeltaForm
