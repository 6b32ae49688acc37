import DeltaForm.Proofs.Parser.Reductions
import Mathlib.Data.List.Perm.Basic

/-!
# The numbers of nodes

The parser gives every node that it finishes the next number, and finishes a node when it has
finished all the nodes below it, from left to right. A node is only made when it has its place in
the tree: whatever the parser looks at ahead of time, it makes no node for it. So the numbers of a
tree in post-order are `0, 1, 2, …` (`parseSource_numbers`).

The invariant is about all the fragments that the parser keeps: the numbers of their nodes are those
below the next one.
-/

namespace DeltaForm

namespace Expr

/-- The nodes of a tree, each after those below it. -/
def postorder (e : Expr) : List Expr := e.parts.attach.flatMap (fun c => c.1.postorder) ++ [e]
termination_by sizeOf e
decreasing_by exact sizeOf_lt_of_mem_parts c.2

theorem postorder_eq {e : Expr} : e.postorder = e.parts.flatMap postorder ++ [e] := by
  rw [postorder, List.flatMap_subtype fun _ _ => rfl, List.unattach_attach]

/-- Both orders list the same nodes. -/
theorem postorder_perm (e : Expr) : e.postorder.Perm e.nodes := by
  induction e using induction_on_parts with
  | h e ih =>
    rw [postorder_eq, nodes_eq]
    refine (List.perm_append_singleton e _).trans (.cons e ?_)
    exact List.Perm.flatMap_left _ ih

end Expr

namespace Parser

variable {ls : List Lexeme} {fs gs : List Fragment} {c : Cursor} {e : Expr}

/-- The nodes of a fragment, each after those below it. -/
def Fragment.nodes : Fragment → List Expr
  | token _ => []
  | expr e => e.postorder
  | param p => p.default?.toList.flatMap Expr.postorder

/-- The numbers of the nodes of fragments, in post-order. -/
def numbers (fs : List Fragment) : List (Option Nat) :=
  (fs.flatMap Fragment.nodes).map fun e => e.site.id

theorem numbers_append : numbers (fs ++ gs) = numbers fs ++ numbers gs := by
  rw [numbers, List.flatMap_append, List.map_append]
  rfl

theorem nodes_params (ps : List Param) :
    (ps.map Fragment.param).flatMap Fragment.nodes =
      (ps.filterMap Param.default?).flatMap Expr.postorder := by
  rw [List.flatMap_map, List.filterMap_eq_flatMap_toList, List.flatMap_assoc]
  rfl

theorem nodes_exprs (es : List Expr) :
    (es.map Fragment.expr).flatMap Fragment.nodes = es.flatMap Expr.postorder :=
  List.flatMap_map ..

/-- The nodes below a tree are those of its parts. -/
theorem nodes_below (e : Expr) :
    (Fragment.expr e).below.flatMap Fragment.nodes = e.parts.flatMap Expr.postorder := by
  cases e with
  | function _ _ ps body _ =>
    rw [Fragment.below, List.flatMap_append, nodes_params, Expr.parts, Expr.children,
      List.flatMap_append]
    · rfl
    · simp
  | _ => exact nodes_exprs _

/-- Tokens have no nodes. -/
theorem nodes_trees (gs : List Fragment) :
    (trees gs).flatMap Fragment.nodes = gs.flatMap Fragment.nodes := by
  induction gs with
  | nil => rfl
  | cons g gs ih =>
    cases g with
    | token => exact ih
    | expr | param => exact congrArg (_ ++ ·) ih

theorem numbers_trees (gs : List Fragment) : numbers (trees gs) = numbers gs := by
  rw [numbers, nodes_trees]
  rfl

/-- A node comes after the nodes below it. -/
theorem numbers_expr (e : Expr) : numbers [.expr e] =
    (e.parts.flatMap Expr.postorder).map (fun s => s.site.id) ++ [e.site.id] := by
  rw [numbers, List.flatMap_singleton, Fragment.nodes, Expr.postorder_eq, List.map_append]
  rfl

theorem numbers_param {p : Param} (h : trees gs = (Fragment.param p).below) :
    numbers [.param p] = numbers gs := by
  rw [← numbers_trees gs, h, Fragment.below, numbers, numbers, nodes_exprs, List.flatMap_singleton]
  rfl

theorem numbers_node (h : trees gs = (Fragment.expr e).below) :
    numbers [.expr e] = numbers gs ++ [e.site.id] := by
  rw [numbers_expr, ← numbers_trees gs, h, numbers, nodes_below]

/-- Parentheses change no number. -/
theorem numbers_enclosed {s : Span} (h : trees gs = [.expr e]) :
    numbers [.expr (e.withSpan s)] = numbers gs := by
  rw [← numbers_trees gs, h, numbers_expr, numbers_expr, Expr.parts_withSpan, Expr.id_withSpan]

/-- The numbers of what has been built are those below the next one. -/
theorem Builds.numbers_eq (h : Builds ls fs c) : numbers fs = (List.range c.next).map some := by
  induction h with
  | start => rfl
  | shift _ ht ih =>
    rw [numbers_append, ih, ht.next]
    exact List.append_nil _
  | reduce _ _ _ hf ih =>
    rw [numbers_append] at ih ⊢
    cases hf with
    | param hp => rw [numbers_param hp, ih]
    | @node e he hid =>
      rw [numbers_node he, hid, ← List.append_assoc, ih, Cursor.counted, List.range_succ,
        List.map_append]
      rfl
    | enclosed he => rw [numbers_enclosed he, ih]

end Parser

/-- **Nodes are numbered in post-order.** The numbers of the tree of a source, each after those of
the nodes below it, are `0, 1, 2, …`, whether or not there are tokens after the expression. -/
theorem parseSource_numbers {source : String} {e : Expr} (h : (parseSource source).expr = some e) :
    e.postorder.map (fun s => s.site.id) = (List.range e.size).map some ∧
      e.ids.Nodup ∧ ∀ s ∈ e.nodes, ∃ n < e.size, s.site.id = some n := by
  have hparse := parseSource_of_expr h
  rw [hparse] at h
  obtain ⟨c, hexpr⟩ := Parser.exists_expr_of_parseTokens h
  have hbuilds := Parser.builds_of_expr (Parser.ordered_tokenize source) hexpr
  have hpost : e.postorder.map (fun s => s.site.id) = (List.range c.next).map some := by
    rw [← hbuilds.numbers_eq, Parser.numbers, List.flatMap_singleton]
    rfl
  have hsize : e.size = c.next := by
    have hlength := congrArg List.length hpost
    rwa [List.length_map, List.length_map, List.length_range, e.postorder_perm.length_eq] at hlength
  rw [← hsize] at hpost
  have hperm : (e.nodes.map fun s => s.site.id).Perm ((List.range e.size).map some) :=
    (e.postorder_perm.symm.map _).trans (.of_eq hpost)
  refine ⟨hpost, ?_, fun s hs => ?_⟩
  · have hids : e.ids.Perm (List.range e.size) := by
      simpa [Expr.ids, List.filterMap_map, Function.comp_def] using hperm.filterMap id
    exact hids.nodup_iff.2 List.nodup_range
  · obtain ⟨n, hn, hid⟩ := List.mem_map.1 (hperm.mem_iff.1 (List.mem_map_of_mem hs))
    exact ⟨n, List.mem_range.1 hn, hid.symm⟩

/-- A default before the body, a property, and a token after the expression. -/
theorem parseSource_numbers_default :
    ∃ e, (parseSource "(a, b = c) => a.d(b) e").expr = some e ∧ e.size = 7 ∧
      (parseSource "(a, b = c) => a.d(b) e").faults ≠ [] ∧
      e.postorder.map (fun s => s.site.id) = (List.range e.size).map some := by
  have hcheck : (parseSource "(a, b = c) => a.d(b) e").expr.any (fun e => e.size == 7) = true := by
    decide +kernel
  have hfaults : (parseSource "(a, b = c) => a.d(b) e").faults ≠ [] := by decide +kernel
  cases he : (parseSource "(a, b = c) => a.d(b) e").expr with
  | none =>
    rw [he] at hcheck
    cases hcheck
  | some e =>
    rw [he] at hcheck
    exact ⟨e, rfl, beq_iff_eq.1 hcheck, hfaults, (parseSource_numbers he).1⟩

end DeltaForm
