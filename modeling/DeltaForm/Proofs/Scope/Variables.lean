import DeltaForm.Proofs.Scope.Strict

/-!
# The variables of lifted trees

The free names of a program are collected before its tree is lifted, but the lifted tree is what
runs. Both have the same variables, except where the source has delta expressions: `ns[f]` becomes
the variable `f`, and `o.ns[m]` becomes the property `m` of `o`, of which no variable is left. A
name **occurs as a variable** if it has a free occurrence that is still one when delta expressions
are read without the step through the namespace (`Expr.OccursAsVariable`).

The names that occur free in a lifted tree are the names that occur as variables in its source
(`Lifts.occursFree_iff`). So lifting introduces and captures no variable, and the parameters of a
program are enough for its body (`Program.parameters_cover`). The converse fails: a free name need
not occur in the body, if the source only has it behind the step through the namespace
(`Program.free_occurs_iff`).
-/

namespace DeltaForm

namespace Expr

/-- The name has a free occurrence as a variable, where a delta expression of the namespace `ns` is
read as what it stands for. -/
inductive OccursAsVariable (ns x : String) : Expr → Prop
  | ident {site : Site} : OccursAsVariable ns x (.ident site x)
  | child {e c : Expr} (hd : e.stripDelta? ns = none) (hc : c ∈ e.children) (hx : x ∉ e.binds)
    (h : OccursAsVariable ns x c) : OccursAsVariable ns x e
  | delta {e s : Expr} (hd : e.stripDelta? ns = some s) (h : OccursAsVariable ns x s) :
    OccursAsVariable ns x e

variable {ns x : String} {e s : Expr}

/-! ### Delta expressions -/

/-- A delta expression is a variable of the namespace, or a property behind it. -/
theorem stripDelta?_eq_some (h : e.stripDelta? ns = some s) :
    (∃ site os ps name, e = .member site (.ident os ns) (.ident ps name) true ∧
      s = .ident ⟨site.id, ps.span⟩ name) ∨
    ∃ site os hs ps inner name,
      e = .member site (.member os inner (.ident hs ns) false) (.ident ps name) true ∧
        s = .member site inner (.ident ps name) false := by
  unfold stripDelta? at h
  split at h
  · rename_i site object property
    obtain ⟨d, hd, rfl⟩ := Option.map_eq_some_iff.1 h
    unfold deltaOf? at hd
    split at hd
    · rename_i ps name os hop
      split at hd
      · rename_i hns
        cases hd
        exact .inl ⟨site, os, ps, name, by rw [hns], rfl⟩
      · cases hd
    · rename_i ps name os inner hs hop
      split at hd
      · rename_i hns
        cases hd
        exact .inr ⟨site, os, hs, ps, inner, name, by rw [hns], rfl⟩
      · cases hd
    · cases hd
  · cases h

theorem occursAsVariable_ident {name : String} {site : Site} :
    (Expr.ident site name).OccursAsVariable ns x ↔ x = name := by
  constructor
  · intro h
    cases h with
    | ident => rfl
    | child _ hc => cases hc
    | delta hd => cases hd
  · rintro rfl
    exact .ident

theorem occursAsVariable_iff (hident : e.ident? = none) (hd : e.stripDelta? ns = none) :
    e.OccursAsVariable ns x ↔ (∃ c ∈ e.children, c.OccursAsVariable ns x) ∧ x ∉ e.binds := by
  constructor
  · intro h
    cases h with
    | ident => cases hident
    | child _ hc hx h => exact ⟨⟨_, hc, h⟩, hx⟩
    | delta hd' => cases hd.symm.trans hd'
  · rintro ⟨⟨c, hc, h⟩, hx⟩
    exact .child hd hc hx h

theorem occursAsVariable_of_strip (hd : e.stripDelta? ns = some s) :
    e.OccursAsVariable ns x ↔ s.OccursAsVariable ns x := by
  constructor
  · intro h
    cases h with
    | ident => cases hd
    | child hd' => cases hd'.symm.trans hd
    | delta hd' h =>
      cases hd'.symm.trans hd
      exact h
  · exact .delta hd

/-- A node that is neither a name nor a function nor a delta expression. -/
theorem occursAsVariable_node (hident : e.ident? = none) (hf : e.isFunction = false)
    (hd : e.stripDelta? ns = none) :
    e.OccursAsVariable ns x ↔ ∃ c ∈ e.children, c.OccursAsVariable ns x := by
  have hb : e.binds = [] := by cases e <;> first | rfl | cases hf
  rw [occursAsVariable_iff hident hd, hb]
  exact and_iff_left List.not_mem_nil

theorem occursAsVariable_hop {site os hs ps : Site} {inner : Expr} {name : String} :
    (Expr.member site (.member os inner (.ident hs ns) false) (.ident ps name)
      true).OccursAsVariable ns x ↔ inner.OccursAsVariable ns x := by
  have hstrip : (Expr.member site (.member os inner (.ident hs ns) false) (.ident ps name)
      true).stripDelta? ns = some (.member site inner (.ident ps name) false) := by
    simp [stripDelta?, deltaOf?, Expr.site]
  rw [occursAsVariable_of_strip hstrip, occursAsVariable_node rfl rfl rfl]
  simp [children]

theorem OccursAsVariable.occursFree (h : e.OccursAsVariable ns x) : e.OccursFree x := by
  induction h with
  | ident => exact .ident
  | child _ hc hx _ ih => exact .child hc hx ih
  | delta hd _ ih =>
    rcases stripDelta?_eq_some hd with ⟨site, os, ps, name, rfl, rfl⟩ |
      ⟨site, os, hs, ps, inner, name, rfl, rfl⟩
    · rw [occursFree_ident] at ih
      exact .child (.tail _ (.head _)) List.not_mem_nil (occursFree_ident.2 ih)
    · obtain ⟨c, hc, h⟩ := ((ofParts_occursFree x).node rfl rfl).1 ih
      exact .child (.head _) List.not_mem_nil (.child hc List.not_mem_nil h)

/-- **A name that occurs free and not as a variable is a property behind the namespace.** -/
theorem exists_hop_of_occursFree (h : e.OccursFree x) (hns : x ≠ ns)
    (hvar : ¬ e.OccursAsVariable ns x) :
    ∃ site os hs ps inner, (Expr.member site (.member os inner (.ident hs ns) false) (.ident ps x)
      true).IsPartOf e := by
  induction h with
  | ident => exact absurd .ident hvar
  | @child e c hc hx h ih =>
    cases hd : e.stripDelta? ns with
    | none =>
      obtain ⟨site, os, hs, ps, inner, hpart⟩ := ih fun h => hvar (.child hd hc hx h)
      exact ⟨site, os, hs, ps, inner, .child hc hpart⟩
    | some s =>
      rcases stripDelta?_eq_some hd with ⟨site, os, ps, name, rfl, rfl⟩ |
        ⟨site, os, hs, ps, inner, name, rfl, rfl⟩
      · rw [occursAsVariable_of_strip hd, occursAsVariable_ident] at hvar
        simp only [children, if_true, List.mem_cons, List.not_mem_nil, or_false] at hc
        rcases hc with rfl | rfl
        · exact absurd (occursFree_ident.1 h) hns
        · exact absurd (occursFree_ident.1 h) hvar
      · -- The name stands further inside the object, or it is the property looked for.
        simp only [children, if_true, List.mem_cons, List.not_mem_nil, or_false] at hc
        rcases hc with rfl | rfl
        · rw [occursAsVariable_hop] at hvar
          have hobject : ¬ (Expr.member os inner (.ident hs ns) false).OccursAsVariable ns x := by
            rw [occursAsVariable_node rfl rfl rfl]
            simpa [children] using hvar
          obtain ⟨site', os', hs', ps', inner', hpart⟩ := ih hobject
          exact ⟨site', os', hs', ps', inner', .child (.head _) hpart⟩
        · cases occursFree_ident.1 h
          exact ⟨site, os, hs, ps, inner, .refl⟩

end Expr

/-! ### Lifting -/

variable {ns x : String}

theorem exists_occurs_iff_of_forall₂ {es : List Expr} {ls : List Lifted}
    (h : List.Forall₂ (fun e l => ∃ _ : Lifts ns e l,
      (l.expr.OccursFree x ↔ e.OccursAsVariable ns x)) es ls) :
    (∃ l ∈ ls, l.expr.OccursFree x) ↔ ∃ e ∈ es, e.OccursAsVariable ns x := by
  induction h with
  | nil => simp
  | cons he _ ih => rw [List.exists_mem_cons_iff, List.exists_mem_cons_iff, he.2, ih]

theorem exists_default_occurs_iff {ps qs : List Param}
    (h : List.Forall₂ (Param.Lifts fun e l => ∃ _ : Lifts ns e l,
      (l.expr.OccursFree x ↔ e.OccursAsVariable ns x)) ps qs) :
    (∃ d ∈ qs.filterMap Param.default?, d.OccursFree x) ↔
      ∃ d ∈ ps.filterMap Param.default?, d.OccursAsVariable ns x := by
  obtain ⟨ls, hls, heq⟩ := Param.Lifts.defaults h
  rw [← exists_occurs_iff_of_forall₂ hls, heq]
  simp

theorem names_eq_of_forall₂ {R : Expr → Lifted → Prop} {ps qs : List Param}
    (h : List.Forall₂ (Param.Lifts R) ps qs) : qs.map Param.name = ps.map Param.name := by
  induction h with
  | nil => rfl
  | cons hp _ ih =>
    cases hp with
    | required => rw [List.map_cons, List.map_cons, ih]
    | optional => rw [List.map_cons, List.map_cons, ih]; rfl

/-- **The names that occur free in a lifted tree are those that occur as variables in its
source.** -/
theorem Lifts.occursFree_iff {e : Expr} {l : Lifted} (h : Lifts ns e l) :
    l.expr.OccursFree x ↔ e.OccursAsVariable ns x := by
  have hQ := Expr.ofParts_occursFree x
  induction h using Lifts.induction with
  | @leaf e h =>
    cases e with
    | ident => rw [Expr.occursFree_ident, Expr.occursAsVariable_ident]
    | number | string | bool | null | undefined =>
      rw [hQ.node rfl rfl, Expr.occursAsVariable_node rfl rfl rfl]
      simp [Expr.children]
    | _ => cases h
  | unary he ih =>
    rw [hQ.operation_of_children rfl rfl rfl, Expr.occursAsVariable_node rfl rfl rfl]
    exact exists_occurs_iff_of_forall₂ (.cons ⟨he, ih⟩ .nil)
  | binary ha hb iha ihb | logical ha hb iha ihb =>
    rw [hQ.operation_of_children rfl rfl rfl, Expr.occursAsVariable_node rfl rfl rfl]
    exact exists_occurs_iff_of_forall₂ (.cons ⟨ha, iha⟩ (.cons ⟨hb, ihb⟩ .nil))
  | call hf _ ihf ihargs =>
    rw [hQ.application, Expr.occursAsVariable_node rfl rfl rfl]
    exact exists_occurs_iff_of_forall₂ (.cons ⟨hf, ihf⟩ ihargs)
  | array _ ih =>
    rw [hQ.operation_of_children rfl rfl rfl, Expr.occursAsVariable_node rfl rfl rfl]
    exact exists_occurs_iff_of_forall₂ ih
  | named ho ih =>
    rw [hQ.namedMember, Expr.occursAsVariable_node rfl rfl rfl]
    exact ih.trans (by simp [Expr.children])
  | @computed site o p _ _ hd ho hp iho ihp =>
    have hstrip : (Expr.member site o p true).stripDelta? ns = none := by
      simp [Expr.stripDelta?, hd]
    rw [Lifted.computedMember, hQ.operation_of_children rfl rfl rfl,
      Expr.occursAsVariable_node rfl rfl hstrip]
    exact exists_occurs_iff_of_forall₂ (.cons ⟨ho, iho⟩ (.cons ⟨hp, ihp⟩ .nil))
  | @var site os ps name =>
    have hstrip : (Expr.member site (.ident os ns) (.ident ps name) true).stripDelta? ns =
        some (.ident ⟨site.id, ps.span⟩ name) := by
      simp [Expr.stripDelta?, Expr.deltaOf?, Expr.span, Expr.site]
    rw [Expr.occursAsVariable_of_strip hstrip, Expr.occursFree_ident, Expr.occursAsVariable_ident]
  | hop ho ih => exact hQ.namedMember.trans (ih.trans Expr.occursAsVariable_hop.symm)
  | conditional ht hc ha hty iht ihc iha =>
    rw [hQ.choose, Expr.occursAsVariable_node rfl rfl rfl]
    exact exists_occurs_iff_of_forall₂ (.cons ⟨ht, iht⟩ (.cons ⟨hc, ihc⟩ (.cons ⟨ha, iha⟩ .nil)))
  | function hps _ ihps ihbody =>
    -- Lifted parameters keep their names, so both functions bind the same ones.
    rw [Expr.occursFree_iff rfl, Expr.occursAsVariable_iff rfl rfl]
    simp only [Expr.binds, Expr.boundNames, names_eq_of_forall₂ hps, Expr.children]
    refine and_congr_left fun _ => ?_
    have hbody : _ ↔ _ := ihbody
    simp only [List.mem_append, List.mem_singleton, or_and_right, exists_or, exists_eq_left]
    rw [exists_default_occurs_iff ihps, hbody]

/-! ### Programs -/

namespace Program

variable {source : String} {symbols : Symbols} {p : Program}

theorem mem_of_occursFree {free : Symbols} {e : Expr} {l : Lifted} {bound : List String}
    (hscan : e.Scans bound .empty free) (hlift : e.lift ns = .ok l) (hx : l.expr.OccursFree x) :
    e.OccursFree x ∧ (x ∈ bound ∨ x ∈ free.names) := by
  have hsource := ((Lifts.of_lift hscan.1 hlift).occursFree_iff.1 hx).occursFree
  refine ⟨hsource, ?_⟩
  by_cases hb : x ∈ bound
  · exact .inl hb
  · exact .inr ((hscan.2 x).2 (.inr ⟨hsource, hb⟩))

/-- **Lifting introduces and captures no variable.** A name that occurs free in a lifted tree is the
namespace, a symbol or a free name of its source, and a name that occurs as a variable in the source
is not bound in the lifted tree. So a program needs no more than its parameters and the symbols. -/
theorem parameters_cover :
    (∀ (ns : String) (symbols free : Symbols) (e : Expr) (l : Lifted),
      e.freeNames ns symbols = .ok free → e.lift ns = .ok l →
      (∀ x, l.expr.OccursFree x → x = ns ∨ x ∈ symbols.names ∨ x ∈ free.names) ∧
        ∀ x, e.OccursAsVariable ns x → l.expr.OccursFree x) ∧
    ∀ (ns : String) (symbols : Symbols) (source : String) (p : Program),
      compile ns symbols source = .ok p →
      ∀ x, p.body.OccursFree x → x ∈ p.parameters ∨ x ∈ symbols.names := by
  constructor
  · intro ns symbols free e l hfree hlift
    have hscan := Expr.scan_spec hfree
    refine ⟨fun x hx => ?_, fun x hx => (Lifts.of_lift hscan.1 hlift).occursFree_iff.2 hx⟩
    rw [← or_assoc, ← List.mem_cons]
    exact (mem_of_occursFree hscan hlift hx).2
  · intro ns symbols source p h x hx
    obtain ⟨e, free, -, hscan, hlift, hns, hfree⟩ := of_compile_symbols h
    obtain ⟨hsource, hmem⟩ := mem_of_occursFree hscan hlift hx
    rw [parameters, hns, hfree, List.mem_cons]
    rcases hmem with hbound | hmem
    · rcases List.mem_cons.1 hbound with hx | hscope
      · exact .inl (.inl hx)
      · exact .inr (mem_symbols_of_mem_scope hsource hscope)
    · exact .inl (.inr hmem)

/-- A state chooses between a call of a function that binds a name which is free elsewhere, and a
property behind the namespace. -/
theorem parameters_cover_choice :
    ∃ e free l p, read "δ[ready](x) ? ((x) => x + y)(s) : o.δ[get]()" = .ok e ∧
      e.freeNames "δ" ⟨["s"]⟩ = .ok free ∧ e.lift "δ" = .ok l ∧
      compile "δ" ⟨["s"]⟩ "δ[ready](x) ? ((x) => x + y)(s) : o.δ[get]()" = .ok p ∧
      (∀ x, l.expr.OccursFree x → x = "δ" ∨ x ∈ ["s"] ∨ x ∈ free.names) ∧
      ∀ x, p.body.OccursFree x → x ∈ p.parameters ∨ x ∈ ["s"] := by
  have hcheck : (read "δ[ready](x) ? ((x) => x + y)(s) : o.δ[get]()").toOption.any (fun e =>
      (e.freeNames "δ" ⟨["s"]⟩).toOption.any fun _ => (e.lift "δ").toOption.any fun _ =>
        (compile "δ" ⟨["s"]⟩ "δ[ready](x) ? ((x) => x + y)(s) : o.δ[get]()").toOption.any
          fun _ => true) = true := by
    decide +kernel
  obtain ⟨e, hread, hcheck⟩ := exists_of_any hcheck
  obtain ⟨free, hfree, hcheck⟩ := exists_of_any hcheck
  obtain ⟨l, hlift, hcheck⟩ := exists_of_any hcheck
  obtain ⟨p, hp, -⟩ := exists_of_any hcheck
  exact ⟨e, free, l, p, hread, hfree, hlift, hp,
    (parameters_cover.1 _ _ _ _ _ hfree hlift).1, parameters_cover.2 _ _ _ _ hp⟩

theorem missing_subset {values : Entries Value} {names : List String}
    (h : p.check true values = .error (.missing names)) : names ⊆ p.free := by
  simp only [check] at h
  split at h
  · cases h
    exact List.filter_sublist.subset
  · cases h

/-- **A free name occurs in the body of a program if and only if it occurs as a variable in the
source.** A free name that does not is the name of a property behind the namespace. -/
theorem free_occurs_iff (h : compile ns symbols source = .ok p) :
    ∃ e, read source = .ok e ∧
      (∀ x ∈ p.free, (p.body.OccursFree x ↔ e.OccursAsVariable ns x) ∧
        (¬ p.body.OccursFree x → ∃ site os hs ps inner,
          (Expr.member site (.member os inner (.ident hs ns) false) (.ident ps x)
            true).IsPartOf e)) ∧
      ∀ values names, p.check true values = .error (.missing names) → names ⊆ p.free := by
  obtain ⟨e, free, hread, hscan, hlift, -, hfree⟩ := of_compile_symbols h
  refine ⟨e, hread, fun x hx => ?_, fun values names => missing_subset⟩
  have hiff : p.body.OccursFree x ↔ e.OccursAsVariable ns x :=
    (Lifts.of_lift hscan.1 hlift).occursFree_iff
  rw [hfree, hscan.2 x] at hx
  obtain ⟨hsource, hbound⟩ := hx.resolve_left List.not_mem_nil
  rw [List.mem_cons, not_or] at hbound
  exact ⟨hiff, fun hx => Expr.exists_hop_of_occursFree hsource hbound.1 (mt hiff.2 hx)⟩

/-- In `m + o.δ[m]` the name `m` is a variable besides being the name of a property. -/
theorem free_occurs_sum :
    ∃ p e, compile "δ" .empty "m + o.δ[m]" = .ok p ∧ read "m + o.δ[m]" = .ok e ∧ "m" ∈ p.free ∧
      p.body.OccursFree "m" ∧ e.OccursAsVariable "δ" "m" := by
  have hcheck : (compile "δ" .empty "m + o.δ[m]").toOption.any (fun p => p.free.contains "m" &&
      (Expr.scan [] p.body .empty).toOption.any fun free => free.names.contains "m") = true := by
    decide +kernel
  obtain ⟨p, hp, hcheck⟩ := exists_of_any hcheck
  obtain ⟨hfree, hscan⟩ := (Bool.and_eq_true _ _).mp hcheck
  obtain ⟨free, hscan, hmem⟩ := exists_of_any hscan
  have hfree := List.contains_iff_mem.1 hfree
  have hbody : p.body.OccursFree "m" := by
    have hmem := ((Expr.scan_spec hscan).2 "m").1 (List.contains_iff_mem.1 hmem)
    exact (hmem.resolve_left List.not_mem_nil).1
  obtain ⟨e, hread, hoccurs, -⟩ := free_occurs_iff hp
  exact ⟨p, e, hp, hread, hfree, hbody, (hoccurs "m" hfree).1.1 hbody⟩

/-- `m` is free in `o.δ[m]`, and strict mode asks for its value, but it does not occur in the
body. -/
theorem free_not_occurs_hop :
    ∃ p, compile "δ" .empty "o.δ[m]" = .ok p ∧ "m" ∈ p.free ∧
      p.check true [("o", .null)] = .error (.missing ["m"]) ∧ ¬ p.body.OccursFree "m" := by
  have hcheck : (compile "δ" .empty "o.δ[m]").toOption.any (fun p =>
      decide (p.missing [("o", .null)] = ["m"]) &&
        (Expr.scan [] p.body .empty).toOption.any fun free => !free.names.contains "m") = true := by
    decide +kernel
  obtain ⟨p, hp, hcheck⟩ := exists_of_any hcheck
  obtain ⟨hmissing, hscan⟩ := (Bool.and_eq_true _ _).mp hcheck
  obtain ⟨free, hscan, hfree⟩ := exists_of_any hscan
  have hstrict : p.check true [("o", .null)] = .error (.missing ["m"]) := by
    simp [check, of_decide_eq_true hmissing]
  refine ⟨p, hp, missing_subset hstrict List.mem_cons_self, hstrict, fun hx => ?_⟩
  have hmem := ((Expr.scan_spec hscan).2 "m").2 (.inr ⟨hx, List.not_mem_nil⟩)
  simp [hmem] at hfree

end Program

end DeltaForm
