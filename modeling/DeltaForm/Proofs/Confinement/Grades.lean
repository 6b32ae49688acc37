import DeltaForm.Eval
import DeltaForm.Proofs.Operators
import DeltaForm.Proofs.Run
import Mathlib.Data.List.Forall2

/-!
# Grades

A **grade** says what may be done with a value. A plain value can be used directly; a state has to
be resolved first; a function literal can be called, but its calls may yield states. `Value.Graded`
gives grades to values and `Expr.Graded` to trees, runtime forms included. The grades of a tree
depend on what is known of the names that it reads, which is a `Scope`.

Two things are never graded: an operator of the runtime, which only a waiting call meets, and the
runtime itself, so the namespace can have no grade unless a function binds it anew.
-/

namespace DeltaForm

/-- What may be done with a value. -/
inductive Grade
  /-- Data, or a function whose calls yield plain values. -/
  | plain
  /-- A plain value, a state, or a function whose calls yield states. -/
  | any
  /-- A state that resolves to a plain value. -/
  | state
  /-- The value of a function literal. `loose` tells the parameters that take any value from those
  that take plain ones. If `direct`, its calls yield plain values, else states. -/
  | function (loose : List Bool) (direct : Bool)

namespace Grade

/-- Values of the first grade are of the second one, too. -/
inductive Le : Grade → Grade → Prop
  | refl {g : Grade} : Le g g
  | any {g : Grade} : Le g any
  | direct {loose : List Bool} : Le (function loose true) plain

/-- What a parameter takes. -/
def taken (loose : Bool) : Grade := if loose then any else plain

/-- What the body of a function yields. -/
def yielded (direct : Bool) : Grade := if direct then plain else state

/-- Arguments of these grades suit the parameters. Missing arguments are undefined, and ones too
many are ignored. -/
def Suit : List Grade → List Bool → Prop
  | g :: gs, loose :: rest => g.Le (taken loose) ∧ Suit gs rest
  | _, _ => True

/-- Values of the grade can be called with arguments of these grades. If `direct`, the calls yield
plain values, else they may yield states. -/
inductive Accepts : Grade → List Grade → Bool → Prop
  | plain {gs : List Grade} (h : ∀ g ∈ gs, g.Le plain) : Accepts plain gs true
  | any {gs : List Grade} (h : ∀ g ∈ gs, g.Le plain) : Accepts any gs false
  /-- A call of a state fails. -/
  | state {gs : List Grade} {direct : Bool} : Accepts state gs direct
  | function {gs : List Grade} {loose : List Bool} {direct : Bool} (h : Suit gs loose) :
      Accepts (function loose direct) gs direct

theorem Le.of_plain {g : Grade} (h : g.Le plain) (loose : Bool) : g.Le (taken loose) := by
  cases loose with
  | false => exact h
  | true => exact .any

theorem suit_of_plain {gs : List Grade} (h : ∀ g ∈ gs, g.Le plain) (loose : List Bool) :
    Suit gs loose := by
  induction gs generalizing loose with
  | nil => trivial
  | cons g gs ih =>
    rw [List.forall_mem_cons] at h
    cases loose with
    | nil => trivial
    | cons l loose => exact ⟨h.1.of_plain l, ih h.2 loose⟩

/-- Whatever can be called can be called with plain arguments. -/
theorem exists_accepts (g : Grade) {gs : List Grade} (h : ∀ g ∈ gs, g.Le plain) :
    ∃ direct, g.Accepts gs direct ∧ (g.Le plain → direct = true) := by
  cases g with
  | plain => exact ⟨true, .plain h, fun _ => rfl⟩
  | any => exact ⟨false, .any h, by intro h; cases h⟩
  | state => exact ⟨true, .state, fun _ => rfl⟩
  | function loose direct =>
    refine ⟨direct, .function (suit_of_plain h loose), ?_⟩
    intro h
    cases h
    rfl

end Grade

/-- An operator of the runtime can be called with resolved operands of these grades. If `lifted`,
the call yields a plain value, else it may yield a state. -/
def Native.Handles : Native → Bool → List Grade → Prop
  | unary _, lifted, _ | binary _, lifted, _ | member, lifted, _ => lifted = true
  -- These hand their operands on.
  | logical _, lifted, gs | array, lifted, gs => lifted = true ∧ ∀ g ∈ gs, g.Le .plain
  | choice, lifted, gs => lifted = false ∧
      ∃ g loose direct loose' direct', gs = [g, .function loose direct, .function loose' direct']
  | _, _, _ => False

/-- The names that are known to have plain values. -/
abbrev Scope := String → Prop

namespace Scope

/-- The scope in which a name is bound anew, to a plain value or, if `loose`, to any value. -/
def bind (P : Scope) (x : String) (loose : Bool) : Scope := fun y =>
  if y = x then loose = false else P y

/-- The scope of the parameters of a function, which sees itself under its name. -/
def withSelf (P : Scope) (name : Option String) (direct : Bool) : Scope :=
  match name with
  | some x => P.bind x !direct
  | none => P

end Scope

/-! ### Trees -/

namespace Expr

/-- Whether an expression is a literal other than that of a function or an array. -/
def isLiteral : Expr → Bool
  | number .. | string .. | bool .. | null _ | undefined _ => true
  | _ => false

/-- The operator of the runtime that a runtime form names. -/
def native? : Expr → Option Native
  | operator _ name => Native.ofOperator? name
  | choice _ => some .choice
  | _ => none

mutual

/-- The grade of a tree in a scope. The operands of operators that yield data have no part in it,
nor have tests and keys. -/
inductive Graded (ns : String) : Scope → Expr → Grade → Prop
  | literal {P : Scope} {e : Expr} (h : e.isLiteral = true) : Graded ns P e .plain
  | plainName {P : Scope} {site : Site} {x : String} (h : P x) : Graded ns P (.ident site x) .plain
  | name {P : Scope} {site : Site} {x : String} (h : x ≠ ns) : Graded ns P (.ident site x) .any
  | unary {P : Scope} {site : Site} {op : UnaryOp} {e : Expr} :
      Graded ns P (.unary site op e) .plain
  | binary {P : Scope} {site : Site} {op : BinaryOp} {l r : Expr} :
      Graded ns P (.binary site op l r) .plain
  | logical {P : Scope} {site : Site} {op : LogicalOp} {l r : Expr} {gl gr : Grade}
      (hl : Graded ns P l gl) (hgl : gl.Le .plain) (hr : Graded ns P r gr) (hgr : gr.Le .plain) :
      Graded ns P (.logical site op l r) .plain
  | call {P : Scope} {site : Site} {f : Expr} {args : List Expr} {g : Grade} {gs : List Grade}
      (hf : Graded ns P f g) (hargs : GradedList ns P args gs) (h : g.Accepts gs true) :
      Graded ns P (.call site f args) .plain
  | conditional {P : Scope} {site : Site} {t c a : Expr} {g gc ga : Grade}
      (hc : Graded ns P c gc) (hgc : gc.Le g) (ha : Graded ns P a ga) (hga : ga.Le g) :
      Graded ns P (.conditional site t c a) g
  | array {P : Scope} {site : Site} {es : List Expr} {gs : List Grade}
      (hes : GradedList ns P es gs) (hgs : ∀ g ∈ gs, g.Le .plain) :
      Graded ns P (.array site es) .plain
  | member {P : Scope} {site : Site} {o p : Expr} {computed : Bool} {g : Grade}
      (ho : Graded ns P o g) : Graded ns P (.member site o p computed) .plain
  | function {P Q : Scope} {site : Site} {name : Option String} {ps : List Param} {body : Expr}
      {arrow direct : Bool} {loose : List Bool} {g : Grade}
      (hps : GradedParams ns (P.withSelf name direct) ps loose Q) (hbody : Graded ns Q body g)
      (hg : g.Le (.yielded direct)) :
      Graded ns P (.function site name ps body arrow) (.function loose direct)
  | success {P : Scope} {site : Site} {e : Expr} {g : Grade} (he : Graded ns P e g)
      (hg : g.Le .plain) : Graded ns P (.success site e) .state
  | wrap {P : Scope} {site : Site} {f : Expr} {args : List Expr} {g : Grade} {gs : List Grade}
      {direct : Bool} (hf : Graded ns P f g) (hargs : GradedList ns P args gs)
      (h : g.Accepts gs direct) : Graded ns P (.wrap site f args) .state
  | operator {P : Scope} {site : Site} {lifted : Bool} {f : Expr} {args : List Expr} {op : Native}
      {gs : List Grade} (hf : f.native? = some op) (hargs : GradedOperands ns P args gs)
      (h : op.Handles lifted gs) : Graded ns P (.depend site lifted f args) .state
  | depend {P : Scope} {site : Site} {lifted : Bool} {f : Expr} {args : List Expr} {g : Grade}
      {gs : List Grade} {direct : Bool} (h : GradedOperands ns P (f :: args) (g :: gs))
      (hg : g.Accepts gs direct) (hlifted : lifted = true → direct = true) :
      Graded ns P (.depend site lifted f args) .state

/-- The grades of trees one after another. -/
inductive GradedList (ns : String) : Scope → List Expr → List Grade → Prop
  | nil {P : Scope} : GradedList ns P [] []
  | cons {P : Scope} {e : Expr} {es : List Expr} {g : Grade} {gs : List Grade}
      (he : Graded ns P e g) (hes : GradedList ns P es gs) : GradedList ns P (e :: es) (g :: gs)

/-- The grades that the values of trees have once they are resolved. -/
inductive GradedOperands (ns : String) : Scope → List Expr → List Grade → Prop
  | nil {P : Scope} : GradedOperands ns P [] []
  | state {P : Scope} {e : Expr} {es : List Expr} {gs : List Grade} (he : Graded ns P e .state)
      (hes : GradedOperands ns P es gs) : GradedOperands ns P (e :: es) (.plain :: gs)
  | success {P : Scope} {site : Site} {e : Expr} {es : List Expr} {g : Grade} {gs : List Grade}
      (he : Graded ns P e g) (hes : GradedOperands ns P es gs) :
      GradedOperands ns P (.success site e :: es) (g :: gs)

/-- What parameters take, and the scope after them. A default stands in for an argument, so the
parameter has to take it. -/
inductive GradedParams (ns : String) : Scope → List Param → List Bool → Scope → Prop
  | nil {P : Scope} : GradedParams ns P [] [] P
  | required {P Q : Scope} {x : String} {span : Span} {ps : List Param} {loose : Bool}
      {rest : List Bool} (hps : GradedParams ns (P.bind x loose) ps rest Q) :
      GradedParams ns P (.required x span :: ps) (loose :: rest) Q
  | optional {P Q : Scope} {x : String} {span : Span} {d : Expr} {ps : List Param} {loose : Bool}
      {rest : List Bool} {g : Grade} (hd : Graded ns P d g) (hg : g.Le (.taken loose))
      (hps : GradedParams ns (P.bind x loose) ps rest Q) :
      GradedParams ns P (.optional x span d :: ps) (loose :: rest) Q

end

end Expr

/-! ### Values -/

/-- The grade that an operand has once it is resolved, where `R` gives grades to values. -/
inductive Value.Awaited (R : Grade → Value → Prop) : Grade → Value → Prop
  | state {v : Value} (h : R .state v) : Awaited R .plain v
  | success {l : Label} {v : Value} {g : Grade} (h : R g v) : Awaited R g (.state l (.success v))

/-- The grade of a value. -/
inductive Value.Graded (ns : String) : Grade → Value → Prop
  | undefined : Graded ns .plain .undefined
  | null : Graded ns .plain .null
  | bool {b : Bool} : Graded ns .plain (.bool b)
  | number {x : Float} : Graded ns .plain (.number x)
  | string {s : String} : Graded ns .plain (.string s)
  | array {l : Label} {vs : List Value} (h : ∀ v ∈ vs, Graded ns .plain v) :
      Graded ns .plain (.array l vs)
  | object {l : Label} {fs : List (String × Value)} (h : ∀ f ∈ fs, Graded ns .plain f.2) :
      Graded ns .plain (.object l fs)
  | direct {loose : List Bool} {v : Value} (h : Graded ns (.function loose true) v) :
      Graded ns .plain v
  | closure {l : Label} {name : Option String} {ps : List Param} {body : Expr} {env : Env}
      {P Q : Scope} {loose : List Bool} {direct : Bool} {g : Grade}
      (hps : Expr.GradedParams ns (P.withSelf name direct) ps loose Q)
      (hbody : Expr.Graded ns Q body g) (hg : g.Le (.yielded direct))
      (hany : ∀ x v, env.get? x = some v → x ≠ ns → Graded ns .any v)
      (hplain : ∀ x v, env.get? x = some v → P x → Graded ns .plain v) :
      Graded ns (.function loose direct) (.closure l name ps body env)
  | lookup {l : Label} {name : String} {table : Value} (h : Graded ns .plain table) :
      Graded ns .any (.native l (.lookup name table))
  | any {g : Grade} {v : Value} (h : Graded ns g v) (hg : g ≠ .any) : Graded ns .any v
  | success {l : Label} {v : Value} (h : Graded ns .plain v) :
      Graded ns .state (.state l (.success v))
  | deferred {l : Label} {f : Value} {args : List Value} {g : Grade} {gs : List Grade}
      {direct : Bool} (hf : Graded ns g f) (hargs : List.Forall₂ (Graded ns) gs args)
      (h : g.Accepts gs direct) : Graded ns .state (.state l (.deferred f args))
  | operator {l l' : Label} {lifted : Bool} {op : Native} {args : List Value} {gs : List Grade}
      (hargs : List.Forall₂ (Awaited (Graded ns)) gs args) (h : op.Handles lifted gs) :
      Graded ns .state (.state l (.depend lifted (.native l' op) args))
  | depend {l : Label} {lifted : Bool} {f : Value} {args : List Value} {g : Grade}
      {gs : List Grade} {direct : Bool} (hf : Awaited (Graded ns) g f)
      (hargs : List.Forall₂ (Awaited (Graded ns)) gs args) (h : g.Accepts gs direct)
      (hlifted : lifted = true → direct = true) :
      Graded ns .state (.state l (.depend lifted f args))

/-- The names of a scope have plain values, and all names but the namespace have values with a
grade. -/
structure Env.Graded (ns : String) (P : Scope) (env : Env) : Prop where
  any : ∀ x v, env.get? x = some v → x ≠ ns → Value.Graded ns .any v
  plain : ∀ x v, env.get? x = some v → P x → Value.Graded ns .plain v

namespace Value

variable {ns : String} {g g' : Grade} {v w : Value}

theorem graded_of_isPrimitive (h : v.isPrimitive = true) : v.Graded ns .plain := by
  cases v with
  | undefined | null | bool | number | string => constructor
  | _ => cases h

theorem Graded.mono (h : v.Graded ns g) (hg : g.Le g') : v.Graded ns g' := by
  cases hg with
  | refl => exact h
  | direct => exact .direct h
  | any =>
    by_cases hany : g = .any
    · exact hany ▸ h
    · exact .any h hany

/-- A value with a grade is a table, or has a grade that says more than that it has one. -/
theorem Graded.lookup_or (h : v.Graded ns g) :
    (∃ l name table, v = .native l (.lookup name table) ∧ table.Graded ns .plain) ∨
      ∃ g, g ≠ .any ∧ v.Graded ns g := by
  by_cases hg : g = .any
  · subst hg
    cases h with
    | lookup h => exact .inl ⟨_, _, _, rfl, h⟩
    | any h hg => exact .inr ⟨_, hg, h⟩
  · exact .inr ⟨g, hg, h⟩

theorem Graded.isState_eq_false (h : v.Graded ns .plain) : v.isState = false := by
  cases h with
  | direct h => cases h; rfl
  | _ => rfl

/-- A state that has a grade resolves to a plain value. -/
theorem Graded.of_isState (h : v.Graded ns g) (hs : v.isState = true) : v.Graded ns .state := by
  rcases h.lookup_or with ⟨_, _, _, rfl, -⟩ | ⟨g, hg, h⟩
  · cases hs
  · cases g with
    | plain => simp [h.isState_eq_false] at hs
    | any => exact absurd rfl hg
    | state => exact h
    | function => cases h; cases hs

theorem Graded.parts (h : v.Graded ns g) (hw : w ∈ v.parts) : w.Graded ns .plain := by
  rcases h.lookup_or with ⟨_, _, _, rfl, -⟩ | ⟨g, hg, hv⟩
  · cases hw
  · clear h
    cases hv with
    | array h => exact h w hw
    | object h =>
      obtain ⟨f, hf, rfl⟩ := List.mem_map.1 hw
      exact h f hf
    | direct h => cases h; cases hw
    | any => exact absurd rfl hg
    | _ => cases hw

/-- The properties of whatever has a grade are plain. -/
theorem Graded.of_property {key : String} (h : v.Graded ns g) (hw : v.property key = .ok w) :
    w.Graded ns .plain :=
  (property_eq_ok hw).elim graded_of_isPrimitive h.parts

end Value

/-! ### Environments and arguments -/

variable {ns : String} {P : Scope} {env : Env}

namespace Env

theorem get?_bind (env : Env) (x y : String) (v : Value) :
    (env.bind x v).get? y = if y = x then some v else env.get? y := by
  by_cases h : y = x
  · simp [get?, bind, h]
  · simp [get?, bind, List.lookup_cons, beq_eq_false_iff_ne.2 h, h]

theorem Graded.bind {x : String} {v : Value} {loose : Bool} (h : Env.Graded ns P env)
    (hv : v.Graded ns (.taken loose)) : (env.bind x v).Graded ns (P.bind x loose) := by
  constructor
  · intro y w hw hy
    rw [get?_bind] at hw
    split at hw
    · cases hw
      exact hv.mono .any
    · exact h.any y w hw hy
  · intro y w hw hy
    rw [get?_bind] at hw
    rw [Scope.bind] at hy
    split at hw
    · rename_i hyx
      cases hw
      rw [if_pos hyx] at hy
      rwa [hy] at hv
    · rename_i hyx
      rw [if_neg hyx] at hy
      exact h.plain y w hw hy

theorem Graded.withSelf {name : Option String} {self : Value} {loose : List Bool} {direct : Bool}
    (h : Env.Graded ns P env) (hself : self.Graded ns (.function loose direct)) :
    (env.withSelf name self).Graded ns (P.withSelf name direct) := by
  cases name with
  | none => exact h
  | some x =>
    refine h.bind ?_
    cases direct with
    | true => exact .direct hself
    | false => exact hself.mono .any

end Env

/-- The first of the arguments suits the first parameter, and the others suit the others. -/
theorem graded_arguments {gs : List Grade} {args : List Value} {loose : Bool} {rest : List Bool}
    (hargs : List.Forall₂ (Value.Graded ns) gs args) (h : Grade.Suit gs (loose :: rest)) :
    (argument args 0).Graded ns (.taken loose) ∧
      List.Forall₂ (Value.Graded ns) gs.tail args.tail ∧ Grade.Suit gs.tail rest := by
  cases hargs with
  | nil =>
    refine ⟨Value.Graded.undefined.mono (Grade.Le.refl.of_plain loose), .nil, ?_⟩
    cases rest <;> trivial
  | cons hv hvs => exact ⟨hv.mono h.1, hvs, h.2⟩

end DeltaForm
