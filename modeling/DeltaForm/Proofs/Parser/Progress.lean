import DeltaForm.Expr.Parser
import Mathlib.Data.List.Basic

/-!
# Progress of the parser

The parser consumes tokens from the front of its input and never the end of the input. Every
expression, access, list of items and list of parameters takes at least one token, so the depth of
its recursion is bounded by the number of tokens: the bound that the parser is given is never
reached.

`Passes k c c'` says that the parser comes from `c` to `c'` by consuming at least `k` tokens, and
`Ends deep k c r` that `r` is a result at such a place, a fault of a token that the parser has come
to, or a depth that was too small, which happens only if `deep`. All of this holds with any strategy
that takes one of the two ways it is given.
-/

namespace DeltaForm

namespace Parser

/-- `c'` is reached from `c` by consuming at least `k` tokens, none of them the end of the input. -/
def Passes (k : Nat) (c c' : Cursor) : Prop :=
  ∃ taken, c.rest = taken ++ c'.rest ∧ (∀ l ∈ taken, l.token ≠ .eof) ∧ k ≤ taken.length

namespace Passes

variable {k m : Nat} {c c' c'' : Cursor}

theorem refl (c : Cursor) : Passes 0 c c := ⟨[], rfl, by simp, Nat.le_refl _⟩

theorem trans (h : Passes k c c') (h' : Passes m c' c'') : Passes (k + m) c c'' := by
  obtain ⟨taken, hrest, heof, hk⟩ := h
  obtain ⟨taken', hrest', heof', hm⟩ := h'
  refine ⟨taken ++ taken', by rw [hrest, hrest', List.append_assoc], ?_, ?_⟩
  · rw [List.forall_mem_append]
    exact ⟨heof, heof'⟩
  · rw [List.length_append]
    omega

theorem mono (h : Passes k c c') (hm : m ≤ k) : Passes m c c' := by
  obtain ⟨taken, hrest, heof, hk⟩ := h
  exact ⟨taken, hrest, heof, Nat.le_trans hm hk⟩

theorem length_le (h : Passes k c c') : c'.rest.length + k ≤ c.rest.length := by
  obtain ⟨taken, hrest, -, hk⟩ := h
  rw [hrest, List.length_append]
  omega

end Passes

/-- The result is reached by consuming at least `k` tokens, or there is a fault of a token that the
parser has come to, or the depth was too small. The last happens only if `deep`. -/
def Ends {α : Type} (deep : Prop) (k : Nat) (c : Cursor) (r : Except Failure (α × Cursor)) : Prop :=
  match r with
  | .ok (_, c') => Passes k c c'
  | .error (.fault f) => ∃ c', Passes 0 c c' ∧ f.found = c'.current
  | .error .tooDeep => deep

/-- The strategy takes one of the two ways. -/
def Strategy.Selects (σ : Strategy) : Prop :=
  ∀ arrow paren c, σ arrow paren c = arrow c ∨ σ arrow paren c = paren c

theorem selects_lookahead : lookahead.Selects := by
  intro arrow paren c
  unfold lookahead
  split
  · exact .inl rfl
  · exact .inr rfl

section Steps

variable {α β : Type} {deep deep' : Prop} {k m : Nat} {c c' : Cursor}

theorem Ends.mono {r : Except Failure (α × Cursor)} (h : Ends deep k c r) (hm : m ≤ k) :
    Ends deep m c r := by
  rcases r with (f | _) | ⟨a, c'⟩
  · exact h
  · exact h
  · exact Passes.mono h hm

theorem Ends.imp {r : Except Failure (α × Cursor)} (h : Ends deep k c r) (hd : deep → deep') :
    Ends deep' k c r := by
  rcases r with (f | _) | ⟨a, c'⟩
  · exact h
  · exact hd h
  · exact h

theorem Ends.after {r : Except Failure (α × Cursor)} (h : Ends deep m c' r) (hc : Passes k c c') :
    Ends deep (k + m) c r := by
  rcases r with (f | _) | ⟨a, c''⟩
  · obtain ⟨c'', hpass, hfound⟩ := h
    exact ⟨c'', (hc.trans hpass).mono (Nat.zero_le _), hfound⟩
  · exact h
  · exact hc.trans h

theorem Ends.weaken {r : Except Failure (α × Cursor)} (h : Ends deep k c r) : Ends deep 0 c r :=
  h.mono (Nat.zero_le k)

theorem Ends.bind {s : Step α} {next : α → Step β} (h : Ends deep k c (s c))
    (hnext : ∀ a c', c'.rest.length + k ≤ c.rest.length → Ends deep m c' (next a c')) :
    Ends deep (k + m) c ((s >>= next) c) := by
  change Ends deep (k + m) c (Step.bind s next c)
  unfold Step.bind
  rcases hs : s c with (f | _) | ⟨a, c'⟩
  · rw [hs] at h
    exact h
  · rw [hs] at h
    exact h
  · rw [hs] at h
    exact (hnext a c' h.length_le).after h

/-- A step that is chosen by its context can be split into what it may be. -/
theorem Ends.of_step {s : Step α} (h : ∀ t, s = t → Ends deep k c (t c)) : Ends deep k c (s c) :=
  h s rfl

theorem ends_pure {a : α} : Ends deep 0 c ((pure a : Step α) c) := Passes.refl c

theorem ends_refuse {wanted : Wanted} : Ends deep k c (refuse (α := α) wanted c) :=
  ⟨c, Passes.refl c, rfl⟩

theorem ends_peek : Ends deep 0 c (peek c) := Passes.refl c

theorem bind_peek {next : Lexeme → Step α} : (peek >>= next) c = next c.current c := rfl

theorem ends_lastEnd : Ends deep 0 c (lastEnd c) := Passes.refl c

theorem ends_finish {span : Span} {node : Site → Expr} : Ends deep 0 c (finish span node c) :=
  ⟨[], rfl, by simp, Nat.le_refl _⟩

theorem ends_advance (h : c.current.token ≠ .eof) : Ends deep 1 c (advance c) := by
  obtain ⟨rest, before, next⟩ := c
  cases rest with
  | nil => exact absurd rfl h
  | cons l rest =>
    obtain ⟨t, span⟩ := l
    have ht : t ≠ .eof := h
    have heq : advance ⟨⟨t, span⟩ :: rest, before, next⟩ = .ok (span, ⟨rest, span.stop, next⟩) := by
      cases t <;> first | rfl | exact absurd rfl ht
    rw [heq]
    exact ⟨[⟨t, span⟩], rfl, by simpa using ht, Nat.le_refl _⟩

theorem ne_eof_of_sameKind {t u : Token} (h : t.sameKind u = true) (hu : u ≠ .eof) : t ≠ .eof := by
  rintro rfl
  cases u <;> simp_all [Token.sameKind]

theorem ends_expect {t : Token} (ht : t ≠ .eof) : Ends deep 1 c (expect t c) := by
  unfold expect
  split
  · rename_i h
    exact ends_advance (ne_eof_of_sameKind h ht)
  · exact ends_refuse

theorem ends_accept {t : Token} (ht : t ≠ .eof) : Ends deep 0 c (accept t c) := by
  unfold accept
  split
  · rename_i h
    exact ((ends_advance (ne_eof_of_sameKind h ht)).bind fun _ _ _ => ends_pure).weaken
  · exact Passes.refl c

theorem ends_expectName : Ends deep 1 c (expectName c) := by
  unfold expectName
  split
  · rename_i h
    exact (ends_advance (by simp [h])).bind fun _ _ _ => ends_pure
  · exact ends_refuse

theorem ends_expectProperty : Ends deep 1 c (expectProperty c) := by
  unfold expectProperty
  split
  · rename_i h
    refine (ends_advance ?_).bind fun _ _ _ => ends_pure
    intro heof
    simp [heof, Token.propertyName?] at h
  · exact ends_refuse

end Steps

/-! ### The parser -/

/-- Every part of the parser ends, and eight levels for each token and a few more are deep
enough. -/
structure ProgressTo (σ : Strategy) (fuel : Nat) : Prop where
  expr : ∀ {least : Nat} {c : Cursor},
    Ends (fuel < 8 * c.rest.length + 4) 1 c (expr σ fuel least c)
  operators : ∀ {least start : Nat} {left : Expr} {c : Cursor},
    Ends (fuel < 8 * c.rest.length + 2) 0 c (operators σ fuel least start left c)
  operand : ∀ {c : Cursor}, Ends (fuel < 8 * c.rest.length + 3) 1 c (operand σ fuel c)
  paren : ∀ {c : Cursor}, Ends (fuel < 8 * c.rest.length + 2) 1 c (paren σ fuel c)
  items : ∀ {closing : Token} {c : Cursor}, closing ≠ .eof →
    Ends (fuel < 8 * c.rest.length + 5) 1 c (items σ fuel closing c)
  access : ∀ {left : Expr} {c : Cursor},
    Ends (fuel < 8 * c.rest.length + 1) 1 c (access σ fuel left c)
  arrow : ∀ {c : Cursor}, Ends (fuel < 8 * c.rest.length + 2) 1 c (arrow σ fuel c)
  function : ∀ {c : Cursor}, Ends (fuel < 8 * c.rest.length + 2) 1 c (function σ fuel c)
  params : ∀ {c : Cursor}, Ends (fuel < 8 * c.rest.length + 1) 1 c (params σ fuel c)
  moreParams : ∀ {c : Cursor}, Ends (fuel < 8 * c.rest.length + 1) 1 c (moreParams σ fuel c)
  block : ∀ {c : Cursor}, Ends (fuel < 8 * c.rest.length + 1) 1 c (block σ fuel c)

namespace ProgressTo

variable {σ : Strategy} {fuel : Nat} {c : Cursor}

theorem zero : ProgressTo σ 0 := by
  constructor <;> intros <;> exact Nat.zero_lt_succ _

theorem expr_succ (ih : ProgressTo σ fuel) {least : Nat} :
    Ends (fuel + 1 < 8 * c.rest.length + 4) 1 c (Parser.expr σ (fuel + 1) least c) := by
  rw [Parser.expr]
  refine ends_peek.bind (m := 1) fun first c₁ h₁ => ?_
  refine (ih.operand.imp (by omega)).bind (m := 0) fun left c₂ h₂ => ?_
  exact ih.operators.imp (by omega)

theorem operators_succ (ih : ProgressTo σ fuel) {least start : Nat} {left : Expr} :
    Ends (fuel + 1 < 8 * c.rest.length + 2) 0 c
      (Parser.operators σ (fuel + 1) least start left c) := by
  have haccess : Ends (fuel + 1 < 8 * c.rest.length + 2) 0 c ((do
      let left ← Parser.access σ fuel left
      Parser.operators σ fuel least start left : Step Expr) c) := by
    refine ((ih.access.imp (by omega)).bind (m := 0) fun left c₁ h₁ => ?_).weaken
    exact ih.operators.imp (by omega)
  simp only [Parser.operators]
  split
  · split
    · exact Passes.refl c
    · exact haccess
  · split
    · exact Passes.refl c
    · exact haccess
  · split
    · exact Passes.refl c
    · exact haccess
  · rename_i hquestion
    split
    · exact Passes.refl c
    · refine ((ends_advance (by simp [hquestion])).bind (m := 0) fun _ c₁ h₁ => ?_).weaken
      refine ((ih.expr.imp (by omega)).bind (m := 0) fun _ c₂ h₂ => ?_).weaken
      refine ((ends_expect (by simp)).bind (m := 0) fun _ c₃ h₃ => ?_).weaken
      refine ((ih.expr.imp (by omega)).bind (m := 0) fun _ c₄ h₄ => ?_).weaken
      refine ends_finish.bind (m := 0) fun _ c₅ h₅ => ?_
      exact ih.operators.imp (by omega)
  · split
    · exact Passes.refl c
    · rename_i op hop
      split
      · exact Passes.refl c
      · have hne : c.current.token ≠ .eof := by
          intro heof
          simp [heof, Token.connective?] at hop
        refine ((ends_advance hne).bind (m := 0) fun _ c₁ h₁ => ?_).weaken
        refine ((ih.expr.imp (by omega)).bind (m := 0) fun _ c₂ h₂ => ?_).weaken
        refine ends_finish.bind (m := 0) fun _ c₃ h₃ => ?_
        exact ih.operators.imp (by omega)

theorem operand_succ (hσ : σ.Selects) (ih : ProgressTo σ fuel) :
    Ends (fuel + 1 < 8 * c.rest.length + 3) 1 c (Parser.operand σ (fuel + 1) c) := by
  simp only [Parser.operand]
  split
  · rename_i op hop
    have hne : c.current.token ≠ .eof := by
      intro heof
      simp [heof, Token.unary?] at hop
    refine (ends_advance hne).bind (m := 0) fun _ c₁ h₁ => ?_
    refine ((ih.expr.imp (by omega)).bind (m := 0) fun _ c₂ h₂ => ?_).weaken
    exact ends_finish
  · split
    · rcases hσ (Parser.arrow σ fuel) (Parser.paren σ fuel) c with hway | hway
      · rw [hway]
        exact ih.arrow.imp (by omega)
      · rw [hway]
        exact ih.paren.imp (by omega)
    · rename_i hbracket
      refine (ends_advance (by simp [hbracket])).bind (m := 0) fun _ c₁ h₁ => ?_
      refine (((ih.items (by simp)).imp (by omega)).bind (m := 0) fun _ c₂ h₂ => ?_).weaken
      exact ends_lastEnd.bind (m := 0) fun _ c₃ h₃ => ends_finish
    · exact ih.function.imp (by omega)
    · rename_i hname
      split
      · exact ih.arrow.imp (by omega)
      · exact (ends_advance (by simp [hname])).bind (m := 0) fun _ c₁ h₁ => ends_finish
    · split
      · rename_i node hleaf
        have hne : c.current.token ≠ .eof := by
          intro heof
          simp [heof, leaf?] at hleaf
        exact (ends_advance hne).bind (m := 0) fun _ c₁ h₁ => ends_finish
      · exact ends_refuse

theorem paren_succ (ih : ProgressTo σ fuel) :
    Ends (fuel + 1 < 8 * c.rest.length + 2) 1 c (Parser.paren σ (fuel + 1) c) := by
  rw [Parser.paren]
  refine (ends_expect (by simp)).bind (m := 0) fun _ c₁ h₁ => ?_
  refine ((ih.expr.imp (by omega)).bind (m := 0) fun _ c₂ h₂ => ?_).weaken
  exact ((ends_expect (by simp)).bind (m := 0) fun _ c₃ h₃ => ends_pure).weaken

theorem items_succ (ih : ProgressTo σ fuel) {closing : Token} (hclosing : closing ≠ .eof) :
    Ends (fuel + 1 < 8 * c.rest.length + 5) 1 c (Parser.items σ (fuel + 1) closing c) := by
  rw [Parser.items]
  split
  · exact (ends_expect hclosing).bind (m := 0) fun _ _ _ => ends_pure
  · refine (ih.expr.imp (by omega)).bind (m := 0) fun _ c₁ h₁ => ?_
    refine (ends_accept (by simp)).bind (m := 0) fun more c₂ h₂ => ?_
    split
    · exact (((ih.items hclosing).imp (by omega)).bind (m := 0) fun _ _ _ => ends_pure).weaken
    · exact ((ends_expect hclosing).bind (m := 0) fun _ _ _ => ends_pure).weaken

theorem access_succ (ih : ProgressTo σ fuel) {left : Expr} :
    Ends (fuel + 1 < 8 * c.rest.length + 1) 1 c (Parser.access σ (fuel + 1) left c) := by
  simp only [Parser.access]
  split
  · rename_i hparen
    refine (ends_advance (by simp [hparen])).bind (m := 0) fun _ c₁ h₁ => ?_
    refine (((ih.items (by simp)).imp (by omega)).bind (m := 0) fun _ c₂ h₂ => ?_).weaken
    exact ends_lastEnd.bind (m := 0) fun _ c₃ h₃ => ends_finish
  · rename_i hbracket
    refine (ends_advance (by simp [hbracket])).bind (m := 0) fun _ c₁ h₁ => ?_
    refine ((ih.expr.imp (by omega)).bind (m := 0) fun _ c₂ h₂ => ?_).weaken
    exact ((ends_expect (by simp)).bind (m := 0) fun _ c₃ h₃ => ends_finish).weaken
  · refine (ends_expect (by simp)).bind (m := 0) fun _ c₁ h₁ => ?_
    refine ends_peek.bind (m := 0) fun _ c₂ h₂ => ?_
    refine (ends_expectProperty.bind (m := 0) fun _ c₃ h₃ => ?_).weaken
    exact ends_finish.bind (m := 0) fun _ c₄ h₄ => ends_finish

theorem arrow_succ (ih : ProgressTo σ fuel) :
    Ends (fuel + 1 < 8 * c.rest.length + 2) 1 c (Parser.arrow σ (fuel + 1) c) := by
  simp only [Parser.arrow]
  refine Ends.bind (k := 1) (m := 0) ?_ fun ps c₁ h₁ => ?_
  · refine .of_step fun s hs => ?_
    split at hs <;> subst hs
    · exact ih.params.imp (by omega)
    · exact ends_expectName.bind (m := 0) fun _ _ _ => ends_pure
  refine ((ends_expect (by simp)).bind (m := 0) fun _ c₂ h₂ => ?_).weaken
  refine ends_peek.bind (m := 0) fun next c₃ h₃ => ?_
  refine (Ends.bind (k := 1) (m := 0) ?_ fun _ c₄ h₄ => ?_).weaken
  · refine .of_step fun s hs => ?_
    split at hs <;> subst hs
    · exact ih.block.imp (by omega)
    · exact ih.expr.imp (by omega)
  exact ends_lastEnd.bind (m := 0) fun _ c₅ h₅ => ends_finish

theorem function_succ (ih : ProgressTo σ fuel) :
    Ends (fuel + 1 < 8 * c.rest.length + 2) 1 c (Parser.function σ (fuel + 1) c) := by
  rw [Parser.function]
  refine (ends_expect (by simp)).bind (m := 0) fun _ c₁ h₁ => ?_
  refine ends_peek.bind (m := 0) fun next c₂ h₂ => ?_
  refine Ends.bind (k := 0) (m := 0) ?_ fun _ c₃ h₃ => ?_
  · refine .of_step fun s hs => ?_
    split at hs <;> subst hs
    · exact (ends_expectName.bind (m := 0) fun _ _ _ => ends_pure).weaken
    · exact ends_pure
  refine ((ih.params.imp (by omega)).bind (m := 0) fun _ c₄ h₄ => ?_).weaken
  refine ((ih.block.imp (by omega)).bind (m := 0) fun _ c₅ h₅ => ?_).weaken
  exact ends_lastEnd.bind (m := 0) fun _ c₆ h₆ => ends_finish

theorem params_succ (ih : ProgressTo σ fuel) :
    Ends (fuel + 1 < 8 * c.rest.length + 1) 1 c (Parser.params σ (fuel + 1) c) := by
  rw [Parser.params]
  refine (ends_expect (by simp)).bind (m := 0) fun _ c₁ h₁ => ?_
  exact (ih.moreParams.imp (by omega)).weaken

theorem moreParams_succ (ih : ProgressTo σ fuel) :
    Ends (fuel + 1 < 8 * c.rest.length + 1) 1 c (Parser.moreParams σ (fuel + 1) c) := by
  rw [Parser.moreParams]
  split
  · exact (ends_expect (by simp)).bind (m := 0) fun _ _ _ => ends_pure
  · refine ends_expectName.bind (m := 0) fun name c₁ h₁ => ?_
    have hdefault : Ends (fuel + 1 < 8 * c.rest.length + 1) 0 c₁ ((do
        if ← accept (.mark .assign) then some <$> Parser.expr σ fuel 0 else pure none :
          Step (Option Expr)) c₁) := by
      refine (ends_accept (by simp)).bind (m := 0) fun given c₂ h₂ => ?_
      split
      · exact ((ih.expr.imp (by omega)).bind (m := 0) fun _ _ _ => ends_pure).weaken
      · exact ends_pure
    refine hdefault.bind (m := 0) fun _ c₂ h₂ => ?_
    refine ends_lastEnd.bind (m := 0) fun _ c₃ h₃ => ?_
    refine (ends_accept (by simp)).bind (m := 0) fun more c₄ h₄ => ?_
    split
    · exact ((ih.moreParams.imp (by omega)).bind (m := 0) fun _ _ _ => ends_pure).weaken
    · exact ((ends_expect (by simp)).bind (m := 0) fun _ _ _ => ends_pure).weaken

theorem block_succ (ih : ProgressTo σ fuel) :
    Ends (fuel + 1 < 8 * c.rest.length + 1) 1 c (Parser.block σ (fuel + 1) c) := by
  rw [Parser.block]
  refine (ends_expect (by simp)).bind (m := 0) fun opening c₁ h₁ => ?_
  rw [bind_peek]
  refine .of_step fun s hs => ?_
  split at hs <;> subst hs
  · rename_i hbrace
    have hne : c₁.current.token ≠ .eof := by simp [hbrace]
    exact ((ends_advance hne).bind (m := 0) fun _ _ _ => ends_finish).weaken
  · rename_i hreturn
    have hne : c₁.current.token ≠ .eof := by simp [hreturn]
    refine ((ends_advance hne).bind (m := 0) fun word c₂ h₂ => ?_).weaken
    refine ends_peek.bind (m := 0) fun next c₃ h₃ => ?_
    refine Ends.bind (k := 0) (m := 0) ?_ fun _ c₄ h₄ => ?_
    · refine .of_step fun s hs => ?_
      split at hs <;> subst hs
      · exact ends_finish
      · exact ends_finish
      · exact (ih.expr.imp (by omega)).weaken
    refine (ends_accept (by simp)).bind (m := 0) fun _ c₅ h₅ => ?_
    exact ((ends_expect (by simp)).bind (m := 0) fun _ _ _ => ends_pure).weaken
  · exact ends_refuse

end ProgressTo

theorem progressTo {σ : Strategy} (hσ : σ.Selects) (fuel : Nat) : ProgressTo σ fuel := by
  induction fuel with
  | zero => exact .zero
  | succ fuel ih =>
    exact ⟨ih.expr_succ, ih.operators_succ, ih.operand_succ hσ, ih.paren_succ, ih.items_succ,
      ih.access_succ, ih.arrow_succ, ih.function_succ, ih.params_succ, ih.moreParams_succ,
      ih.block_succ⟩

end Parser

end DeltaForm
