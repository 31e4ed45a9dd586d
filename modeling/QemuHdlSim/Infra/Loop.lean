/-!
# Counted loops that may fault

`for (j = 0; j < n; j++) body` over an explicit state, where the body may fault (an index out
of range, a value the language leaves undefined). A fault ends the loop with `none`.

`loopM_spec` is the invariant rule: an invariant that holds at the start and that every
iteration re-establishes, without a fault, holds at the end. A loop of the model is only ever
reasoned about through it.
-/

namespace Infra

variable {σ : Type _}

/-- The state after iterations `0 .. n-1` of `body`, or `none` when one of them faults. -/
def loopM (body : Nat → σ → Option σ) : Nat → σ → Option σ
  | 0, s => some s
  | n + 1, s => (loopM body n s).bind (body n)

@[simp] theorem loopM_zero (body : Nat → σ → Option σ) (s : σ) : loopM body 0 s = some s := rfl

theorem loopM_succ (body : Nat → σ → Option σ) (n : Nat) (s : σ) :
    loopM body (n + 1) s = (loopM body n s).bind (body n) := rfl

/--
**The invariant rule.**

`Inv j` is what holds before iteration `j`. Each iteration may assume it and has to give back
both a state (no fault) and `Inv (j + 1)` of that state.
-/
theorem loopM_spec (body : Nat → σ → Option σ) (Inv : Nat → σ → Prop) (n : Nat) {s : σ}
    (h0 : Inv 0 s)
    (hstep : ∀ j t, j < n → Inv j t → ∃ t', body j t = some t' ∧ Inv (j + 1) t') :
    ∃ t, loopM body n s = some t ∧ Inv n t := by
  induction n with
  | zero => exact ⟨s, rfl, h0⟩
  | succ n ih =>
    obtain ⟨t, ht, hInv⟩ := ih (fun j t hj => hstep j t (by omega))
    obtain ⟨t', ht', hInv'⟩ := hstep n t (by omega) hInv
    exact ⟨t', by rw [loopM_succ, ht]; exact ht', hInv'⟩

end Infra
