import QemuHdlSim.Device.Msix

/-!
# The use counts of the MSI-X vectors

A request for vectors raises the counts of all of them or of none. In any sequence of
`acc_init_msix` and `acc_cleanup_msix` the first uses every vector of its table once, and the second
releases each of them once, so that none is in use (`vectors_allOrNothing`).
-/

namespace QemuHdlSim.Msix

open Infra

variable {σ : Type} {q : MsixCore σ}

/-- The request of `m` vectors in state `s` came to `r`. -/
structure AllOrNothing (q : MsixCore σ) (s : σ) (m : Int) (r : Bool × σ) : Prop where
  result : r.1 = true ↔ m ≤ q.entriesNr s
  raised : r.1 = true → ∀ j, q.used r.2 j = q.used s j + if (j : Int) < m then 1 else 0
  kept : r.1 = false → ∀ j, q.used r.2 j = q.used s j
  /-- Releasing them again brings every count back. -/
  restored : r.1 = true → ∀ j, q.used (accUnuseMsixVectors q r.2 m) j = q.used s j

/-- What the device does with its vectors. -/
inductive Op where
  | init
  | cleanup
  deriving DecidableEq, Repr

/-- One of them; `none` when `acc_init_msix` exits. -/
def step (q : MsixCore σ) (conf : ACCConf) (s : σ) : Op → Option σ
  | .init => accInitMsix q conf s
  | .cleanup => some (accCleanupMsix q conf s)

/-- A sequence of them, with the state each is done in. -/
abbrev Run (q : MsixCore σ) (conf : ACCConf) (s : σ) (tr : List (σ × Op)) (s' : σ) : Prop :=
  Path (fun a op b => step q conf a op = some b) s tr s'

/-- No vector stays used, and none is released twice. -/
structure Paired (q : MsixCore σ) (conf : ACCConf) (tr : List (σ × Op)) (s' : σ) : Prop where
  /-- A table that is there has every vector in use, once. -/
  inUse : q.present s' = true → ∀ j, q.used s' j = if j < conf.msixVecNum.toNat then 1 else 0
  /-- A set-up leaves a table, and used each vector of it once, which was not in use. -/
  setUp : ∀ c ∈ tr, c.2 = .init → ∃ t, step q conf c.1 .init = some t ∧ q.present t = true ∧
    (∀ j, q.used t j = if j < conf.msixVecNum.toNat then 1 else 0) ∧
      step q.logged conf (c.1, []) .init = some (t, eachOnce conf .use 0)
  /-- A clean-up leaves no table and no vector in use: it released each vector once, which was used
  once. -/
  cleanedUp : ∀ c ∈ tr, c.2 = .cleanup → q.present c.1 = true →
    ∃ t, step q conf c.1 .cleanup = some t ∧ q.present t = false ∧ (∀ j, q.used t j = 0) ∧
      step q.logged conf (c.1, []) .cleanup = some (t, eachOnce conf .unuse 1)
  /-- Without a table it does nothing. -/
  idle : ∀ c ∈ tr, c.2 = .cleanup → q.present c.1 = false →
    step q conf c.1 .cleanup = some c.1 ∧ step q.logged conf (c.1, []) .cleanup = some (c.1, [])

/-! ## One request -/

/-- `useFrom` in the terms of the caller. -/
theorem use_spec (hq : q.Lawful) (s : σ) (m : Int) :
    UsedFrom q m.toNat 0 s (accUseMsixVectors q s m) := useFrom_spec hq _ 0 s (Nat.zero_le _)

theorem allOrNothing (hq : q.Lawful) (s : σ) (m : Int) :
    AllOrNothing q s m (accUseMsixVectors q s m) := by
  obtain ⟨hentries, _, hresult, hraised, hundone⟩ := use_spec hq s m
  rw [Nat.zero_add] at hresult
  have hraised' : (accUseMsixVectors q s m).1 = true → ∀ j,
      q.used (accUseMsixVectors q s m).2 j = q.used s j + if (j : Int) < m then 1 else 0 := by
    intro htrue j
    rw [hraised htrue j]
    by_cases hj : (j : Int) < m
    · rw [if_pos hj, if_pos (by omega)]
    · rw [if_neg hj, if_neg (by omega)]
  refine ⟨?_, hraised', fun hfalse j => ?_, fun htrue j => ?_⟩
  · rw [hresult]
    omega
  · rw [hundone hfalse j, if_neg (Nat.not_lt_zero j)]
    rfl
  · -- the table has all the vectors that were raised
    have hle := hresult.mp htrue
    have hlower := unuse_spec hq (accUseMsixVectors q s m).2 (n := m.toNat)
      (by rw [hentries]; exact hle) j
    have hsame : accUnuseMsixVectors q (accUseMsixVectors q s m).2 m.toNat
        = accUnuseMsixVectors q (accUseMsixVectors q s m).2 m := rfl
    rw [hsame] at hlower
    rw [hlower, hraised' htrue j]
    by_cases hj : j < m.toNat
    · rw [if_pos hj, if_pos (by omega)]
      exact Nat.add_sub_cancel ..
    · rw [if_neg hj, if_neg (by omega)]
      rfl

/-! ## Sequences -/

/-- A table that is there is one that `acc_init_msix` made. -/
def IfPresent (q : MsixCore σ) (conf : ACCConf) (s : σ) : Prop :=
  q.present s = true → Served q conf s

theorem IfPresent.step (hq : q.Lawful) {conf : ACCConf} {s s' : σ} {op : Op}
    (hs : IfPresent q conf s) (h : step q conf s op = some s') : IfPresent q conf s' := by
  intro hp
  cases op with
  | init => exact (init_spec hq h).2.1
  | cleanup =>
    cases h
    cases hpresent : q.present s with
    | false =>
      rw [(cleanup_of_absent hpresent).1, hpresent] at hp
      exact absurd hp (by simp)
    | true =>
      rw [(cleanup_spec hq (hs hpresent) hpresent).1] at hp
      exact absurd hp (by simp)

theorem paired_run (hq : q.Lawful) {conf : ACCConf} {s s' : σ} {tr : List (σ × Op)}
    (h : Run q conf s tr s') (habsent : q.present s = false) : Paired q conf tr s' := by
  have h0 : IfPresent q conf s := fun hp => absurd (habsent.symm.trans hp) (by simp)
  have hend : IfPresent q conf s' :=
    h.invariant (P := fun _ _ => True) h0 (fun _ _ => trivial) fun _ _ _ ha _ hab => ha.step hq hab
  have hmem : ∀ c ∈ tr, IfPresent q conf c.1 :=
    h.invariant_mem (P := fun _ _ => True) h0 (fun _ _ => trivial)
      fun _ _ _ ha _ hab => ha.step hq hab
  refine ⟨fun hp => (hend hp).once, fun c hc hop => ?_, fun c hc _ hp => ?_, fun c _ _ hp => ?_⟩
  · obtain ⟨t, hstep⟩ := h.step_of_mem hc
    rw [hop] at hstep
    obtain ⟨hpresent, hserved, hcalls⟩ := init_spec hq hstep
    exact ⟨t, hstep, hpresent, hserved.once, hcalls⟩
  · obtain ⟨hgone, hnone, hcalls⟩ := cleanup_spec hq (hmem c hc hp) hp
    exact ⟨_, rfl, hgone, hnone, congrArg some hcalls⟩
  · obtain ⟨hsame, hcalls⟩ := @cleanup_of_absent _ q conf _ hp
    exact ⟨congrArg some hsame, congrArg some hcalls⟩

/--
**All or nothing.** For any table, whatever its counts, and any request; and over any sequence of
set-ups and clean-ups of a device that has no table yet.
-/
theorem vectors_allOrNothing (hq : q.Lawful) :
    (∀ s m, AllOrNothing q s m (accUseMsixVectors q s m)) ∧
      ∀ conf s tr s', q.present s = false → Run q conf s tr s' → Paired q conf tr s' :=
  ⟨allOrNothing hq, fun _ _ _ _ habsent h => paired_run hq h habsent⟩

/-! ## A table -/

/-- A table with its counts. -/
structure Table where
  entries : Nat
  present : Bool
  counts : Nat → Nat

/-- The count of vector `i`, changed by `f`. -/
def Table.change (t : Table) (f : Nat → Nat) (i : Nat) : Table :=
  { t with counts := fun j => if j = i then f (t.counts j) else t.counts j }

/-- The table as QEMU keeps it. -/
def table : MsixCore Table where
  entriesNr := Table.entries
  present := Table.present
  used := Table.counts
  vectorUse := fun t i => if i < t.entries then t.change (· + 1) i else t
  vectorUnuse := fun t i => if i < t.entries then t.change (· - 1) i else t
  init := fun conf _ =>
    if 0 < conf.msixVecNum.toNat ∧ conf.msixVecNum.toNat ≤ 2048 then
      some ⟨conf.msixVecNum.toNat, true, fun _ => 0⟩
    else none
  uninit := fun _ _ => ⟨0, false, fun _ => 0⟩

theorem lawful_table : table.Lawful where
  entriesNr_use := by
    intro t i
    simp only [table]
    split <;> rfl
  present_use := by
    intro t i
    simp only [table]
    split <;> rfl
  used_use := by
    intro t i j hi
    simp only [table] at hi ⊢
    rw [if_pos hi]
    rfl
  entriesNr_unuse := by
    intro t i
    simp only [table]
    split <;> rfl
  present_unuse := by
    intro t i
    simp only [table]
    split <;> rfl
  used_unuse := by
    intro t i j hi
    simp only [table] at hi ⊢
    rw [if_pos hi]
    rfl
  init_some := by
    intro conf t t' h
    simp only [table] at h ⊢
    split at h
    · cases h
      exact ⟨rfl, rfl, fun _ => rfl⟩
    · exact absurd h (by simp)
  present_uninit := fun _ _ => rfl
  used_uninit := fun _ _ _ => Nat.zero_le _

/-- Five vectors are asked for where there are three; and a device is set up and cleaned up. -/
theorem vectors_allOrNothing_five :
    ((accUseMsixVectors table ⟨3, true, fun _ => 7⟩ 5).1 = false ∧
      AllOrNothing table ⟨3, true, fun _ => 7⟩ 5
        (accUseMsixVectors table ⟨3, true, fun _ => 7⟩ 5)) ∧
      ∃ tr s', Run table defaultConf ⟨0, false, fun _ => 0⟩ tr s' ∧
        tr.map Prod.snd = [.init, .cleanup] ∧ Paired table defaultConf tr s' := by
  obtain ⟨hone, hmany⟩ := vectors_allOrNothing lawful_table
  have hrun : Run table defaultConf ⟨0, false, fun _ => 0⟩ _ _ :=
    Path.cons (i := .init) rfl (Path.cons (i := .cleanup) rfl (Path.nil _))
  exact ⟨⟨by decide, hone _ _⟩, _, _, hrun, rfl, hmany _ _ _ _ rfl hrun⟩

end QemuHdlSim.Msix
