import DeltaForm.Run

/-!
# Laws of runs

Runs obey the laws of a monad. `Run.Ends E P` says how a run may end: with a value of which `P`
holds, or for a reason of which `E` holds. What one run after another ends with follows from what
its parts end with.
-/

namespace DeltaForm

namespace Run

variable {α β γ : Type}

theorem bind_apply (r : Run α) (k : α → Run β) (l : Label) :
    (r >>= k) l =
      match r l with
      | .ok (a, l) => k a l
      | .error e => .error e :=
  rfl

theorem bind_eq_ok_iff {r : Run α} {k : α → Run β} {l n : Label} {b : β} :
    (r >>= k) l = .ok (b, n) ↔ ∃ a m, r l = .ok (a, m) ∧ k a m = .ok (b, n) := by
  rw [bind_apply]
  constructor
  · intro h
    cases hr : r l with
    | error => rw [hr] at h; cases h
    | ok p => rw [hr] at h; exact ⟨p.1, p.2, rfl, h⟩
  · rintro ⟨a, m, hr, hk⟩
    rw [hr]
    exact hk

theorem bind_pure_eq (r : Run α) : (r >>= fun a => pure a) = r := by
  funext l
  rw [bind_apply]
  cases r l with
  | ok p => rfl
  | error e => rfl

theorem bind_bind (r : Run α) (k : α → Run β) (k' : β → Run γ) :
    r >>= k >>= k' = r >>= fun a => k a >>= k' := by
  funext l
  simp only [bind_apply]
  cases r l with
  | ok p => rfl
  | error e => rfl

instance : LawfulMonad Run := LawfulMonad.mk' Run bind_pure_eq (fun _ _ => rfl) bind_bind

/-- From every label on, the run yields a value with `P` or stops for a reason with `E`. -/
def Ends (E : Stop → Prop) (P : α → Prop) (r : Run α) : Prop :=
  ∀ l, match r l with
    | .ok (a, _) => P a
    | .error s => E s

variable {E : Stop → Prop} {P : α → Prop} {Q : β → Prop}

theorem ends_pure {a : α} (h : P a) : Ends E P (pure a) := fun _ => h

theorem Ends.bind {r : Run α} {k : α → Run β} (hr : Ends E P r) (hk : ∀ a, P a → Ends E Q (k a)) :
    Ends E Q (r >>= k) := by
  intro l
  have h := hr l
  rw [bind_apply]
  cases hrl : r l with
  | ok p =>
    rw [hrl] at h
    exact hk p.1 h p.2
  | error s =>
    rw [hrl] at h
    exact h

theorem Ends.of_eq_ok {r : Run α} {l l' : Label} {a : α} (hr : Ends E P r)
    (h : r l = .ok (a, l')) : P a := by
  have hl := hr l
  rwa [h] at hl

theorem Ends.of_eq_error {r : Run α} {l : Label} {s : Stop} (hr : Ends E P r)
    (h : r l = .error s) : E s := by
  have hl := hr l
  rwa [h] at hl

theorem Ends.mono {r : Run α} {Q : α → Prop} (hr : Ends E P r) (h : ∀ a, P a → Q a) :
    Ends E Q r := by
  intro l
  have hl := hr l
  cases hrl : r l with
  | ok p =>
    rw [hrl] at hl
    exact h p.1 hl
  | error s =>
    rw [hrl] at hl
    exact hl

theorem ends_fail {f : RunFault} (h : E (.fault f)) : Ends E P (fail f) := fun _ => h

theorem ends_giveUp (h : E .tooDeep) : Ends E P giveUp := fun _ => h

theorem ends_fresh {P : Value → Prop} {make : Label → Value} (h : ∀ l, P (make l)) :
    Ends E P (fresh make) := h

theorem ends_ofExcept {r : Except RunFault α} (h : ∀ a, r = .ok a → P a)
    (hE : ∀ f, r = .error f → E (.fault f)) : Ends E P (ofExcept r) := by
  cases r with
  | ok a => exact ends_pure (h a rfl)
  | error f => exact ends_fail (hE f rfl)

/-- If the run yields a value, then one with `P`. -/
abbrev Yields (P : α → Prop) (r : Run α) : Prop := Ends (fun _ => True) P r

theorem yields_true (r : Run α) : Yields (fun _ => True) r := by
  intro l
  cases r l <;> trivial

end Run

end DeltaForm
