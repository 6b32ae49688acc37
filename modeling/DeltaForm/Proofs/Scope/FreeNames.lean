import DeltaForm.Proofs.Scope.Names
import Mathlib.Data.List.Induction

/-!
# The free names, in the order of their first use

A scan goes over the nodes of a tree from the root down and from left to right, the defaults of a
function before its body (`Expr.scanOrder`). It fails at the first runtime form. Of a tree in lambda
form it yields the names that occur free, each once, in the order in which it first comes to them:
`Expr.freeUses` lists all free occurrences in this order.

Both results come from one equation (`Expr.scan_eq_scanned`): a scan of trees one after another is
the scan of their orders one after another.
-/

namespace DeltaForm

/-! ### Sets of names -/

namespace Symbols

variable {l : List String} {x : String}

theorem mem_insert_names {s : Symbols} {name : String} :
    x ∈ (s.insert name).names ↔ x ∈ s.names ∨ x = name := by
  unfold insert contains
  split
  · rename_i h
    rw [List.contains_iff_mem] at h
    exact ⟨.inl, fun hx => hx.elim id fun hx => hx ▸ h⟩
  · simp

theorem mem_names_foldl_insert {s : Symbols} :
    x ∈ (l.foldl insert s).names ↔ x ∈ s.names ∨ x ∈ l := by
  induction l generalizing s with
  | nil => simp
  | cons y l ih => rw [List.foldl_cons, ih, mem_insert_names, List.mem_cons, or_assoc]

theorem mem_names_ofList : x ∈ (ofList l).names ↔ x ∈ l := by
  rw [ofList, mem_names_foldl_insert, or_iff_right]
  exact List.not_mem_nil

theorem ofList_concat : ofList (l ++ [x]) = (ofList l).insert x := by
  rw [ofList, List.foldl_append]
  rfl

theorem insert_of_mem {s : Symbols} (h : x ∈ s.names) : s.insert x = s :=
  if_pos (List.contains_iff_mem.2 h)

theorem names_insert_of_not_mem {s : Symbols} (h : x ∉ s.names) :
    (s.insert x).names = s.names ++ [x] := by
  have hcontains : ¬ s.contains x = true := fun hx => h (List.contains_iff_mem.1 hx)
  rw [insert, if_neg hcontains]

/-- Names are added in the order of their first occurrence. -/
theorem pairwise_names_ofList : (ofList l).names.Pairwise (l.idxOf · < l.idxOf ·) := by
  induction l using List.reverseRecOn with
  | nil => exact .nil
  | append_singleton l y ih =>
    -- the names that are there keep their places
    have hold : (ofList l).names.Pairwise ((l ++ [y]).idxOf · < (l ++ [y]).idxOf ·) := by
      refine ih.imp_of_mem fun ha hb hlt => ?_
      rwa [List.idxOf_append_of_mem (mem_names_ofList.1 ha),
        List.idxOf_append_of_mem (mem_names_ofList.1 hb)]
    rw [ofList_concat]
    by_cases hy : y ∈ (ofList l).names
    · rwa [insert_of_mem hy]
    · rw [names_insert_of_not_mem hy, List.pairwise_append]
      refine ⟨hold, List.pairwise_singleton _ _, fun a ha b hb => ?_⟩
      cases List.mem_singleton.1 hb
      have ha := mem_names_ofList.1 ha
      rw [List.idxOf_append_of_mem ha, List.idxOf_append_of_notMem (mt mem_names_ofList.2 hy)]
      exact Nat.lt_of_lt_of_le (List.idxOf_lt_length_of_mem ha) (Nat.le_add_right _ _)

/-- Leaving elements out keeps the order of first occurrences. -/
theorem idxOf_lt_of_idxOf_filter_lt {p : String → Bool} {y : String} (hx : p x = true)
    (hy : p y = true) (h : (l.filter p).idxOf x < (l.filter p).idxOf y) :
    l.idxOf x < l.idxOf y := by
  induction l with
  | nil => exact absurd h (Nat.lt_irrefl _)
  | cons a l ih =>
    by_cases ha : p a = true
    · rw [List.filter_cons_of_pos ha] at h
      grind
    · have hax : a ≠ x := fun hax => ha (hax ▸ hx)
      have hay : a ≠ y := fun hay => ha (hay ▸ hy)
      rw [List.filter_cons_of_neg ha] at h
      rw [List.idxOf_cons_ne _ hax, List.idxOf_cons_ne _ hay]
      exact Nat.succ_lt_succ (ih h)

theorem pairwise_names_ofList_filter {p : String → Bool} :
    (ofList (l.filter p)).names.Pairwise (l.idxOf · < l.idxOf ·) := by
  refine pairwise_names_ofList.imp_of_mem fun ha hb hlt => ?_
  rw [mem_names_ofList, List.mem_filter] at ha hb
  exact idxOf_lt_of_idxOf_filter_lt ha.2 hb.2 hlt

end Symbols

namespace Expr

/-! ### Scan order -/

/-- The nodes of a tree in the order of the scan: a node, then its parts from left to right. -/
def scanOrder (e : Expr) : List Expr := e :: e.children.attach.flatMap fun c => c.1.scanOrder
termination_by sizeOf e
decreasing_by exact sizeOf_lt_of_mem_children c.2

/-- The names at the variable occurrences that no function around them binds, in the order of the
scan. -/
def freeUses (e : Expr) : List String :=
  match e.ident? with
  | some x => [x]
  | none => (e.children.attach.flatMap fun c => c.1.freeUses).filter (!e.binds.contains ·)
termination_by sizeOf e
decreasing_by exact sizeOf_lt_of_mem_children c.2

/-- The name of a runtime form. -/
def form? : Expr → Option String
  | success .. => some "success"
  | wrap .. => some "wrap"
  | depend .. => some "depend"
  | operator .. => some "operator"
  | choice _ => some "intrinsic"
  | _ => none

/-- What is wrong with a node in a tree that should be in lambda form. -/
def fault? (e : Expr) : Option FormFault := e.form?.map (⟨·, e.span⟩)

theorem fault?_eq_none_iff {e : Expr} : e.fault? = none ↔ e.isRuntimeForm = false := by
  cases e <;> simp [fault?, form?, isRuntimeForm]

theorem scanOrder_eq {e : Expr} : e.scanOrder = e :: e.children.flatMap scanOrder := by
  rw [scanOrder, List.flatMap_subtype fun _ _ => rfl, List.unattach_attach]

theorem freeUses_ident {site : Site} {x : String} : (ident site x).freeUses = [x] := by
  rw [freeUses, ident?]

theorem freeUses_eq {e : Expr} (h : e.ident? = none) :
    e.freeUses = (e.children.flatMap freeUses).filter (!e.binds.contains ·) := by
  rw [freeUses, h]
  rw [List.flatMap_subtype fun _ _ => rfl, List.unattach_attach]

theorem eq_ident_of_ident? {e : Expr} {x : String} (h : e.ident? = some x) :
    ∃ site, e = .ident site x := by
  cases e with
  | ident site y =>
    cases h
    exact ⟨site, rfl⟩
  | _ => cases h

theorem mem_freeUses {e : Expr} {x : String} : x ∈ e.freeUses ↔ e.OccursFree x := by
  induction e using induction_on_children with
  | h e ih =>
    cases hident : e.ident? with
    | some name =>
      obtain ⟨site, rfl⟩ := eq_ident_of_ident? hident
      rw [freeUses_ident, List.mem_singleton, occursFree_ident]
    | none =>
      rw [freeUses_eq hident, occursFree_iff hident, List.mem_filter, List.mem_flatMap]
      refine and_congr (exists_congr fun c => and_congr_right fun hc => ih c hc) ?_
      simp

/-- A tree is in lambda form if the scan comes to no runtime form. -/
theorem findSome?_fault?_eq_none_iff {e : Expr} :
    e.scanOrder.findSome? fault? = none ↔ e.LambdaForm := by
  rw [List.findSome?_eq_none_iff]
  induction e using induction_on_children with
  | h e ih =>
    rw [scanOrder_eq, List.forall_mem_cons, List.forall_mem_flatMap, LambdaForm, everywhere_iff,
      fault?_eq_none_iff]
    exact and_congr_right fun _ => forall₂_congr ih

/-! ### What the scan finds -/

theorem scanList_append {bound : List String} {es fs : List Expr} {free : Symbols} :
    scanList bound (es ++ fs) free = (scanList bound es free).bind (scanList bound fs) := by
  induction es generalizing free with
  | nil => rfl
  | cons e es ih =>
    simp only [List.cons_append, scanList]
    cases scan bound e free with
    | error => rfl
    | ok free => exact ih

theorem scanDefaults_eq {bound : List String} {ps : List Param} {free : Symbols} :
    scanDefaults bound ps free = scanList bound (ps.filterMap Param.default?) free := by
  induction ps generalizing free with
  | nil => rfl
  | cons p ps ih =>
    cases p with
    | required => exact ih
    | optional _ _ d =>
      simp only [scanDefaults, List.filterMap_cons, Param.default?, scanList]
      cases scan bound d free with
      | error => rfl
      | ok free => exact ih

theorem bind_ok {ε α : Type} (r : Except ε α) : (do .ok (← r)) = r := by
  cases r <;> rfl

/-- The scan of a node is that of its parts, in which the names that the node binds are bound. -/
theorem scan_eq_scanList {bound : List String} {e : Expr} {free : Symbols}
    (hform : e.isRuntimeForm = false) (hident : e.ident? = none) :
    scan bound e free = scanList (e.binds ++ bound) e.children free := by
  cases e with
  | number | string | bool | null | undefined | call | array => rfl
  | ident => cases hident
  | success | wrap | depend | operator | choice => cases hform
  | unary | binary | logical | conditional =>
    simp only [scan, binds, children, List.nil_append, scanList, bind_ok]
  | member _ _ _ computed =>
    cases computed <;> simp [scan, binds, children, scanList, bind_ok]
  | function =>
    simp only [scan, binds, children, scanList_append, scanDefaults_eq, scanList, bind_ok]
    rfl

/-- What a scan of trees one after another yields: the fault of the first runtime form, or the names
that occur free and are not bound, added to those that are there. -/
def scanned (bound : List String) (es : List Expr) (free : Symbols) : Except FormFault Symbols :=
  match (es.flatMap scanOrder).findSome? fault? with
  | some f => .error f
  | none => .ok (((es.flatMap freeUses).filter (!bound.contains ·)).foldl Symbols.insert free)

section Scanned

variable {bound : List String} {e : Expr} {es : List Expr} {free : Symbols} {f : FormFault}

theorem scanned_of_some (h : (es.flatMap scanOrder).findSome? fault? = some f) :
    scanned bound es free = .error f := by
  rw [scanned, h]

theorem scanned_of_none (h : (es.flatMap scanOrder).findSome? fault? = none) :
    scanned bound es free =
      .ok (((es.flatMap freeUses).filter (!bound.contains ·)).foldl Symbols.insert free) := by
  rw [scanned, h]

theorem scanned_cons :
    scanned bound (e :: es) free = (scanned bound [e] free).bind (scanned bound es) := by
  cases he : ([e].flatMap scanOrder).findSome? fault? with
  | some f =>
    have h : ((e :: es).flatMap scanOrder).findSome? fault? = some f := by
      rw [← List.singleton_append, List.flatMap_append, List.findSome?_append, he, Option.some_or]
    rw [scanned_of_some he, scanned_of_some h]
    rfl
  | none =>
    have h : ((e :: es).flatMap scanOrder).findSome? fault? =
        (es.flatMap scanOrder).findSome? fault? := by
      rw [← List.singleton_append, List.flatMap_append, List.findSome?_append, he, Option.none_or]
    rw [scanned_of_none he]
    change _ = scanned bound es _
    rw [scanned, scanned, h, ← List.singleton_append, List.flatMap_append, List.filter_append,
      List.foldl_append]

/-- A node is scanned by its parts, in which the names that it binds are bound. -/
theorem scanned_node (hform : e.isRuntimeForm = false) (hident : e.ident? = none) :
    scanned bound [e] free = scanned (e.binds ++ bound) e.children free := by
  have horder : ([e].flatMap scanOrder).findSome? fault? =
      (e.children.flatMap scanOrder).findSome? fault? := by
    rw [List.flatMap_singleton, scanOrder_eq, List.findSome?_cons, fault?_eq_none_iff.2 hform]
  have huses : ([e].flatMap freeUses).filter (!bound.contains ·) =
      (e.children.flatMap freeUses).filter (!(e.binds ++ bound).contains ·) := by
    rw [List.flatMap_singleton, freeUses_eq hident, List.filter_filter]
    -- to be bound by the node or around it is to be bound in its parts
    congr 1
    funext x
    simp [Bool.and_comm]
  rw [scanned, scanned, horder, huses]

theorem scanList_eq_scanned (ih : ∀ e ∈ es, ∀ free, scan bound e free = scanned bound [e] free) :
    scanList bound es free = scanned bound es free := by
  induction es generalizing free with
  | nil => rfl
  | cons e es ihes =>
    rw [scanned_cons, ← ih e List.mem_cons_self]
    have ihes : scanList bound es = scanned bound es :=
      funext fun free => ihes fun d hd => ih d (List.mem_cons_of_mem _ hd)
    rw [← ihes]
    rfl

theorem scan_of_fault? (h : e.fault? = some f) : scan bound e free = .error f := by
  cases e <;> cases h <;> rfl

theorem scan_eq_scanned : scan bound e free = scanned bound [e] free := by
  induction e using induction_on_children generalizing bound free with
  | h e ih =>
    cases hfault : e.fault? with
    | some f =>
      -- a runtime form comes before all that is below it
      have horder : ([e].flatMap scanOrder).findSome? fault? = some f := by
        rw [List.flatMap_singleton, scanOrder_eq, List.findSome?_cons, hfault]
      rw [scan_of_fault? hfault, scanned_of_some horder]
    | none =>
      have hform := fault?_eq_none_iff.1 hfault
      cases hident : e.ident? with
      | some name =>
        obtain ⟨site, rfl⟩ := eq_ident_of_ident? hident
        rw [scan, scanned_of_none (by simp [scanOrder_eq, children, hfault])]
        simp only [List.flatMap_singleton, freeUses_ident]
        cases hb : bound.contains name with
        | true =>
          simp only [List.filter_cons, hb]
          rfl
        | false =>
          simp only [List.filter_cons, hb]
          rfl
      | none =>
        rw [scan_eq_scanList hform hident, scanned_node hform hident]
        exact scanList_eq_scanned fun c hc free => ih c hc

theorem scan_of_findSome? (h : e.scanOrder.findSome? fault? = some f) :
    scan bound e free = .error f := by
  rw [scan_eq_scanned, scanned_of_some]
  rwa [List.flatMap_singleton]

theorem scan_of_lambdaForm (h : e.LambdaForm) :
    scan bound e free =
      .ok ((e.freeUses.filter (!bound.contains ·)).foldl Symbols.insert free) := by
  rw [scan_eq_scanned, scanned_of_none, List.flatMap_singleton]
  rwa [List.flatMap_singleton, findSome?_fault?_eq_none_iff]

end Scanned

/-- What a scan of `e` yields: `e` is in lambda form, and the names added are those that occur free
and are not bound. -/
def Scans (bound : List String) (e : Expr) (free free' : Symbols) : Prop :=
  e.LambdaForm ∧ ∀ x, x ∈ free'.names ↔ x ∈ free.names ∨ e.OccursFree x ∧ x ∉ bound

/-- **The scan finds the names that occur free.** -/
theorem scan_spec {bound : List String} {e : Expr} {free free' : Symbols}
    (h : scan bound e free = .ok free') : e.Scans bound free free' := by
  cases hfind : e.scanOrder.findSome? fault? with
  | some f =>
    rw [scan_of_findSome? hfind] at h
    cases h
  | none =>
    have hform := findSome?_fault?_eq_none_iff.1 hfind
    rw [scan_of_lambdaForm hform] at h
    cases h
    refine ⟨hform, fun x => ?_⟩
    rw [Symbols.mem_names_foldl_insert, List.mem_filter, mem_freeUses]
    simp

/-- **Normalizing finds the free names in the order of their first use.** A tree with a runtime form
is refused, with the name and the place of the first one in the order of the scan. Any other is
returned as it is, with the names that occur free in it, but for the namespace and the symbols: each
once, and ordered by their first free use. -/
theorem normalize_collects_free (ns : String) (symbols : Symbols) (e : Expr) :
    (¬ e.LambdaForm →
      ∃ before s after form, e.scanOrder = before ++ s :: after ∧
        (∀ b ∈ before, b.isRuntimeForm = false) ∧ s.form? = some form ∧
        e.normalize ns symbols = .error ⟨form, s.span⟩) ∧
    (e.LambdaForm →
      ∃ free, e.normalize ns symbols = .ok ⟨e, free⟩ ∧ free.names.Nodup ∧
        (∀ x, x ∈ free.names ↔ x ≠ ns ∧ x ∉ symbols.names ∧ e.OccursFree x) ∧
        free.names.Pairwise (e.freeUses.idxOf · < e.freeUses.idxOf ·)) := by
  constructor
  · intro h
    cases hfind : e.scanOrder.findSome? fault? with
    | none => exact absurd (findSome?_fault?_eq_none_iff.1 hfind) h
    | some f =>
      obtain ⟨before, s, after, horder, hs, hbefore⟩ := List.findSome?_eq_some_iff.1 hfind
      obtain ⟨form, hform, rfl⟩ := Option.map_eq_some_iff.1 hs
      refine ⟨before, s, after, form, horder, fun b hb => ?_, hform, ?_⟩
      · exact fault?_eq_none_iff.1 (hbefore b hb)
      · rw [normalize, freeNames, scan_of_findSome? hfind]
        rfl
  · intro h
    have hsorted := Symbols.pairwise_names_ofList_filter (l := e.freeUses)
      (p := (!(ns :: symbols.names).contains ·))
    refine ⟨.ofList _, ?_, ?_, fun x => ?_, hsorted⟩
    · rw [normalize, freeNames, scan_of_lambdaForm h]
      rfl
    · exact hsorted.imp fun hlt heq => absurd (heq ▸ hlt) (Nat.lt_irrefl _)
    · rw [Symbols.mem_names_ofList, List.mem_filter, mem_freeUses, and_comm (a := e.OccursFree x)]
      simp [and_assoc]

/-- `f(y => y(x), z, x)`. -/
def shadowedCall : Expr :=
  .call default (.ident default "f")
    [.function default none [.required "y" default]
      (.call default (.ident default "y") [.ident default "x"]) true,
    .ident default "z", .ident default "x"]

/-- The free names of a tree where one name is bound and one is a symbol, and the refusal of the
same tree inside a runtime form. -/
theorem normalize_collects_free_call :
    shadowedCall.LambdaForm ∧
      (∃ free, shadowedCall.normalize "δ" ⟨["z"]⟩ = .ok ⟨shadowedCall, free⟩ ∧ free.names.Nodup ∧
        (∀ x, x ∈ free.names ↔ x ≠ "δ" ∧ x ∉ ["z"] ∧ shadowedCall.OccursFree x) ∧
        free.names.Pairwise (shadowedCall.freeUses.idxOf · < shadowedCall.freeUses.idxOf ·)) ∧
      ¬ (array default [success default shadowedCall]).LambdaForm ∧
      ∃ fault, (array default [success default shadowedCall]).normalize "δ" ⟨["z"]⟩ =
        .error fault := by
  have hform : shadowedCall.LambdaForm := by decide
  have hruntime : ¬ (array default [success default shadowedCall]).LambdaForm := by decide
  obtain ⟨_, s, _, form, -, -, -, hfault⟩ := (normalize_collects_free "δ" ⟨["z"]⟩ _).1 hruntime
  exact ⟨hform, (normalize_collects_free "δ" ⟨["z"]⟩ _).2 hform, hruntime, _, hfault⟩

end Expr

end DeltaForm
