import Mathlib.Data.List.Forall2

/-!
# Programs that raise exceptions

When a sequence of steps, and a loop over a list, come to their end.
-/

namespace Infra

variable {ε α β : Type _}

/-- **Two steps.** -/
theorem bind_eq_ok {x : Except ε α} {f : α → Except ε β} {b : β} :
    (x >>= f) = .ok b ↔ ∃ a, x = .ok a ∧ f a = .ok b := by
  cases x with
  | error e => exact ⟨fun h => absurd h (by simp [Bind.bind, Except.bind]), by simp⟩
  | ok a =>
    refine ⟨fun h => ⟨a, rfl, h⟩, ?_⟩
    rintro ⟨a', ha, h⟩
    cases ha
    exact h

/-- **A loop.** It comes to its end when its body does for each element. -/
theorem mapM_eq_ok {f : α → Except ε β} {l : List α} {l' : List β} :
    l.mapM f = .ok l' ↔ List.Forall₂ (fun x y => f x = .ok y) l l' := by
  induction l generalizing l' with
  | nil =>
    constructor
    · intro h
      cases h
      exact List.Forall₂.nil
    · intro h
      cases h
      rfl
  | cons x l ih =>
    rw [List.mapM_cons]
    constructor
    · intro h
      obtain ⟨y, hy, h⟩ := bind_eq_ok.mp h
      obtain ⟨ys, hys, h⟩ := bind_eq_ok.mp h
      cases h
      exact List.Forall₂.cons hy (ih.mp hys)
    · intro h
      cases h with
      | cons hy hys => exact bind_eq_ok.mpr ⟨_, hy, bind_eq_ok.mpr ⟨_, ih.mpr hys, rfl⟩⟩

/-- The last round of a loop. -/
theorem forall₂_concat {R : α → β → Prop} {l : List α} {x : α} {l' : List β}
    (h : List.Forall₂ R (l ++ [x]) l') :
    ∃ init y, l' = init ++ [y] ∧ List.Forall₂ R l init ∧ R x y := by
  induction l generalizing l' with
  | nil =>
    cases h with
    | cons hy hys =>
      cases hys
      exact ⟨[], _, rfl, List.Forall₂.nil, hy⟩
  | cons z l ih =>
    cases h with
    | cons hz hrest =>
      obtain ⟨init, y, rfl, hinit, hy⟩ := ih hrest
      exact ⟨_ :: init, y, rfl, List.Forall₂.cons hz hinit, hy⟩

/-- What every round makes sure of. -/
theorem forall_right {R : α → β → Prop} {P : β → Prop} {l : List α} {l' : List β}
    (h : List.Forall₂ R l l') (hP : ∀ x ∈ l, ∀ y, R x y → P y) : ∀ y ∈ l', P y := by
  induction h with
  | nil => exact fun y hy => absurd hy List.not_mem_nil
  | cons hR _ ih =>
    intro y hy
    rcases List.mem_cons.mp hy with rfl | hy
    · exact hP _ List.mem_cons_self _ hR
    · exact ih (fun x hx => hP x (List.mem_cons_of_mem _ hx)) y hy

end Infra
