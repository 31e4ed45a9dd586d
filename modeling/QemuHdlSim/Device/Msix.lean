import QemuHdlSim.Bridge.Acc
import QemuHdlSim.Infra.Path

/-!
# The MSI-X vectors of the device (`accelerator_pcie.c`)

The vector table itself is QEMU's; `MsixCore` is what the device uses of it, and
`MsixCore.Lawful` what it relies on. The table keeps a use count for each vector.

* `unuse_spec` — a release lowers the counts of the first vectors
* `useFrom_spec` — the loop of `acc_use_msix_vectors`, with its rollback
* `init_spec`, `cleanup_spec` — what `acc_init_msix` and `acc_cleanup_msix` leave, and which calls
  they make
-/

namespace QemuHdlSim.Msix

open Infra

variable {σ : Type}

/-- The functions of QEMU's MSI-X table, on the state of a device. -/
structure MsixCore (σ : Type) where
  /-- `msix_entries_nr` -/
  entriesNr : σ → Nat
  /-- `msix_present` -/
  present : σ → Bool
  /-- The use counts. -/
  used : σ → Nat → Nat
  /-- `msix_vector_use` -/
  vectorUse : σ → Nat → σ
  /-- `msix_vector_unuse` -/
  vectorUnuse : σ → Nat → σ
  /-- `msix_init`, `none` for a negative result; its arguments are all of the configuration. -/
  init : ACCConf → σ → Option σ
  /-- `msix_uninit` -/
  uninit : ACCConf → σ → σ

/-- What the device relies on. -/
structure MsixCore.Lawful (q : MsixCore σ) : Prop where
  entriesNr_use : ∀ s i, q.entriesNr (q.vectorUse s i) = q.entriesNr s
  present_use : ∀ s i, q.present (q.vectorUse s i) = q.present s
  /-- One count goes up. -/
  used_use : ∀ s i j, i < q.entriesNr s →
    q.used (q.vectorUse s i) j = if j = i then q.used s j + 1 else q.used s j
  entriesNr_unuse : ∀ s i, q.entriesNr (q.vectorUnuse s i) = q.entriesNr s
  present_unuse : ∀ s i, q.present (q.vectorUnuse s i) = q.present s
  /-- One count goes down, if it is positive. -/
  used_unuse : ∀ s i j, i < q.entriesNr s →
    q.used (q.vectorUnuse s i) j = if j = i then q.used s j - 1 else q.used s j
  /-- A new table has the vectors asked for, and none is in use. -/
  init_some : ∀ conf s s', q.init conf s = some s' →
    q.present s' = true ∧ q.entriesNr s' = conf.msixVecNum.toNat ∧ ∀ j, q.used s' j = 0
  present_uninit : ∀ conf s, q.present (q.uninit conf s) = false
  /-- No count goes up. -/
  used_uninit : ∀ conf s j, q.used (q.uninit conf s) j ≤ q.used s j

variable (q : MsixCore σ)

/-- `acc_unuse_msix_vectors`. -/
def accUnuseMsixVectors (s : σ) (numVectors : Int) : σ :=
  (List.range numVectors.toNat).foldl q.vectorUnuse s

/-- The loop of `acc_use_msix_vectors` from vector `i` on, with `k` vectors to go. -/
def useFrom : Nat → Nat → σ → Bool × σ
  | 0, _, s => (true, s)
  | k + 1, i, s =>
    if q.entriesNr s ≤ i then (false, accUnuseMsixVectors q s i)
    else useFrom k (i + 1) (q.vectorUse s i)

/-- `acc_use_msix_vectors`. -/
def accUseMsixVectors (s : σ) (numVectors : Int) : Bool × σ := useFrom q numVectors.toNat 0 s

/-- `acc_init_msix`; `none` when it exits. -/
def accInitMsix (conf : ACCConf) (s : σ) : Option σ :=
  (q.init conf s).map fun s' =>
    let r := accUseMsixVectors q s' conf.msixVecNum.toNat
    if r.1 then r.2 else q.uninit conf r.2

/-- `acc_cleanup_msix`. -/
def accCleanupMsix (conf : ACCConf) (s : σ) : σ :=
  if q.present s then q.uninit conf (accUnuseMsixVectors q s conf.msixVecNum.toNat) else s

/-! ## The calls -/

/-- `msix_vector_use` or `msix_vector_unuse`. -/
inductive CallKind where
  | use
  | unuse
  deriving DecidableEq, Repr

/-- One of them, with the use count that it finds. -/
structure VectorCall where
  kind : CallKind
  vector : Nat
  found : Nat
  deriving DecidableEq, Repr

/-- The same table with a log of these calls. -/
def MsixCore.logged : MsixCore (σ × List VectorCall) where
  entriesNr := fun s => q.entriesNr s.1
  present := fun s => q.present s.1
  used := fun s => q.used s.1
  vectorUse := fun s i => (q.vectorUse s.1 i, s.2 ++ [⟨.use, i, q.used s.1 i⟩])
  vectorUnuse := fun s i => (q.vectorUnuse s.1 i, s.2 ++ [⟨.unuse, i, q.used s.1 i⟩])
  init := fun conf s => (q.init conf s.1).map fun s' => (s', s.2)
  uninit := fun conf s => (q.uninit conf s.1, s.2)

/-- One call for each of the vectors, which all have the count `found`. -/
def eachOnce (conf : ACCConf) (kind : CallKind) (found : Nat) : List VectorCall :=
  (List.range conf.msixVecNum.toNat).map fun i => ⟨kind, i, found⟩

variable {q}

/-! ## The loops -/

/-- A release leaves the table in place. -/
theorem unuse_keeps (hq : q.Lawful) (s : σ) (is : List Nat) :
    q.entriesNr (is.foldl q.vectorUnuse s) = q.entriesNr s ∧
      q.present (is.foldl q.vectorUnuse s) = q.present s := by
  induction is generalizing s with
  | nil => exact ⟨rfl, rfl⟩
  | cons i is ih =>
    obtain ⟨hentries, hpresent⟩ := ih (q.vectorUnuse s i)
    exact ⟨hentries.trans (hq.entriesNr_unuse s i), hpresent.trans (hq.present_unuse s i)⟩

/-- **What a release does**: it lowers the counts of the first `n` vectors. -/
theorem unuse_spec (hq : q.Lawful) (s : σ) {n : Nat} (hn : n ≤ q.entriesNr s) (j : Nat) :
    q.used (accUnuseMsixVectors q s n) j = if j < n then q.used s j - 1 else q.used s j := by
  show q.used ((List.range n).foldl q.vectorUnuse s) j = _
  induction n with
  | zero => exact (if_neg (Nat.not_lt_zero j)).symm
  | succ n ih =>
    have hentries := (unuse_keeps hq s (List.range n)).1
    rw [List.range_succ, List.foldl_append, List.foldl_cons, List.foldl_nil,
      hq.used_unuse _ _ _ (by rw [hentries]; exact hn), ih (Nat.le_of_succ_le hn)]
    by_cases hj : j = n
    · subst hj
      rw [if_pos rfl, if_neg (Nat.lt_irrefl j), if_pos (Nat.lt_succ_self j)]
    · rw [if_neg hj]
      by_cases hlt : j < n
      · rw [if_pos hlt, if_pos (Nat.lt_succ_of_lt hlt)]
      · rw [if_neg hlt, if_neg (by omega)]

/-- What the loop from vector `i` on has done to the table `s`. -/
structure UsedFrom (q : MsixCore σ) (k i : Nat) (s : σ) (r : Bool × σ) : Prop where
  entries : q.entriesNr r.2 = q.entriesNr s
  present : q.present r.2 = q.present s
  result : r.1 = true ↔ i + k ≤ q.entriesNr s
  /-- The vectors it came to are used. -/
  raised : r.1 = true → ∀ j, q.used r.2 j = q.used s j + if i ≤ j ∧ j < i + k then 1 else 0
  /-- The rollback undoes what the loop did, and what was done before it to the first vectors. -/
  undone : r.1 = false → ∀ j, q.used r.2 j = q.used s j - if j < i then 1 else 0

/-- **The loop.** -/
theorem useFrom_spec (hq : q.Lawful) (k i : Nat) (s : σ) (hi : i ≤ q.entriesNr s) :
    UsedFrom q k i s (useFrom q k i s) := by
  induction k generalizing i s with
  | zero =>
    refine ⟨rfl, rfl, iff_of_true rfl hi, fun _ j => ?_, fun h => absurd h (by simp [useFrom])⟩
    rw [if_neg (by omega)]
    rfl
  | succ k ih =>
    unfold useFrom
    by_cases hfull : q.entriesNr s ≤ i
    · -- the table ends here: `i` vectors are used, and released again
      rw [if_pos hfull]
      obtain ⟨hentries, hpresent⟩ := unuse_keeps hq s (List.range i)
      refine ⟨hentries, hpresent, iff_of_false (by simp) (by omega), fun h => absurd h (by simp),
        fun _ j => ?_⟩
      rw [unuse_spec hq s hi]
      split <;> rfl
    · rw [if_neg hfull]
      have hlt : i < q.entriesNr s := Nat.lt_of_not_le hfull
      have hn := hq.entriesNr_use s i
      obtain ⟨hentries, hpresent, hresult, hraised, hundone⟩ :=
        ih (i + 1) (q.vectorUse s i) (by omega)
      refine ⟨hentries.trans hn, hpresent.trans (hq.present_use s i), ?_, fun h j => ?_,
        fun h j => ?_⟩
      · rw [hresult, hn]
        omega
      · rw [hraised h j, hq.used_use s i j hlt]
        by_cases hj : j = i
        · rw [if_pos hj, if_neg (by omega), if_pos (by omega)]
        · rw [if_neg hj]
          by_cases hin : i ≤ j ∧ j < i + (k + 1)
          · rw [if_pos hin, if_pos (by omega)]
          · rw [if_neg hin, if_neg (by omega)]
      · rw [hundone h j, hq.used_use s i j hlt]
        by_cases hj : j = i
        · rw [if_pos hj, if_pos (by omega), if_neg (by omega)]
          exact Nat.add_sub_cancel ..
        · rw [if_neg hj]
          by_cases hin : j < i
          · rw [if_pos hin, if_pos (by omega)]
          · rw [if_neg hin, if_neg (by omega)]

/-- The calls of a release. -/
theorem unuse_logged (q : MsixCore σ) (s : σ) (calls : List VectorCall) (n : Nat) :
    accUnuseMsixVectors q.logged (s, calls) n = (accUnuseMsixVectors q s n,
      calls ++ (List.range n).map fun i => ⟨.unuse, i, q.used (accUnuseMsixVectors q s i) i⟩) := by
  show (List.range n).foldl q.logged.vectorUnuse (s, calls) = _
  induction n with
  | zero => rw [List.range_zero, List.map_nil, List.append_nil]; rfl
  | succ n ih =>
    have hrange : ∀ (r : MsixCore σ) (a : σ), accUnuseMsixVectors r a ((n + 1 : Nat) : Int)
        = r.vectorUnuse (accUnuseMsixVectors r a n) n := by
      intro r a
      show (List.range (n + 1)).foldl r.vectorUnuse a = _
      rw [List.range_succ, List.foldl_append]
      rfl
    rw [hrange, List.range_succ, List.foldl_append, ih, List.map_append, ← List.append_assoc]
    rfl

/-- The calls of the loop, where the table has room for all of them. -/
theorem useFrom_logged (hq : q.Lawful) (k i : Nat) (s : σ) (calls : List VectorCall)
    (h : i + k ≤ q.entriesNr s) :
    useFrom q.logged k i (s, calls) = (true, (useFrom q k i s).2,
      calls ++ (List.range' i k).map fun j => ⟨.use, j, q.used s j⟩) := by
  induction k generalizing i s calls with
  | zero => rw [List.range'_zero, List.map_nil, List.append_nil]; rfl
  | succ k ih =>
    have hroom : ¬q.entriesNr s ≤ i := by omega
    have hnext := ih (i + 1) (q.vectorUse s i) (calls ++ [⟨.use, i, q.used s i⟩])
      (by rw [hq.entriesNr_use]; omega)
    -- a vector that comes later has the count it had
    have hlater : (List.range' (i + 1) k).map
        (fun j => (⟨.use, j, q.used (q.vectorUse s i) j⟩ : VectorCall))
          = (List.range' (i + 1) k).map fun j => ⟨.use, j, q.used s j⟩ := by
      refine List.map_congr_left fun j hj => ?_
      obtain ⟨hlt, _⟩ := List.mem_range'_1.mp hj
      rw [hq.used_use s i j (by omega), if_neg (by omega)]
    rw [useFrom, useFrom, if_neg hroom, List.range'_succ, List.map_cons, ← hlater,
      ← List.singleton_append, ← List.append_assoc]
    exact (if_neg hroom).trans hnext

/-! ## The device -/

/-- The table that `acc_init_msix` makes: every vector is used once. -/
structure Served (q : MsixCore σ) (conf : ACCConf) (s : σ) : Prop where
  entries : q.entriesNr s = conf.msixVecNum.toNat
  once : ∀ j, q.used s j = if j < conf.msixVecNum.toNat then 1 else 0

/-- **`acc_init_msix`** leaves a table, and has used each of its vectors once. -/
theorem init_spec (hq : q.Lawful) {conf : ACCConf} {s s' : σ}
    (h : accInitMsix q conf s = some s') :
    q.present s' = true ∧ Served q conf s' ∧
      accInitMsix q.logged conf (s, []) = some (s', eachOnce conf .use 0) := by
  obtain ⟨t, ht, heq⟩ := Option.map_eq_some_iff.mp h
  obtain ⟨hpresent, hentries, hnone⟩ := hq.init_some conf s t ht
  have hspec : UsedFrom q conf.msixVecNum.toNat 0 t
      (accUseMsixVectors q t conf.msixVecNum.toNat) := useFrom_spec hq _ 0 t (Nat.zero_le _)
  -- the table has as many vectors as are asked for
  have htrue := hspec.result.mpr (by rw [hentries, Nat.zero_add])
  rw [if_pos htrue] at heq
  subst heq
  refine ⟨hspec.present.trans hpresent, ⟨hspec.entries.trans hentries, fun j => ?_⟩, ?_⟩
  · rw [hspec.raised htrue j, hnone j, Nat.zero_add]
    by_cases hj : j < conf.msixVecNum.toNat
    · rw [if_pos hj, if_pos (by omega)]
    · rw [if_neg hj, if_neg (by omega)]
  · have hcalls : accUseMsixVectors q.logged (t, []) conf.msixVecNum.toNat
        = (true, (accUseMsixVectors q t conf.msixVecNum.toNat).2, eachOnce conf .use 0) := by
      refine (useFrom_logged hq _ 0 t [] (by rw [hentries, Nat.zero_add]; rfl)).trans ?_
      rw [List.nil_append, ← List.range_eq_range']
      simp only [hnone]
      rfl
    have hinit : q.logged.init conf (s, []) = some (t, []) := by
      simp [MsixCore.logged, ht]
    rw [accInitMsix, hinit, Option.map_some, hcalls]
    rfl

/-- **`acc_cleanup_msix`** leaves no table and no vector in use: it has released each vector once,
and found it used once. -/
theorem cleanup_spec (hq : q.Lawful) {conf : ACCConf} {s : σ} (h : Served q conf s)
    (hp : q.present s = true) :
    q.present (accCleanupMsix q conf s) = false ∧ (∀ j, q.used (accCleanupMsix q conf s) j = 0) ∧
      accCleanupMsix q.logged conf (s, []) = (accCleanupMsix q conf s, eachOnce conf .unuse 1) := by
  have hcleanup : ∀ {τ : Type} (r : MsixCore τ) (a : τ), r.present a = true →
      accCleanupMsix r conf a = r.uninit conf (accUnuseMsixVectors r a conf.msixVecNum.toNat) :=
    fun _ _ hpa => if_pos hpa
  have hlogged := unuse_logged q s [] conf.msixVecNum.toNat
  rw [hcleanup q s hp, hcleanup q.logged (s, []) hp, hlogged]
  refine ⟨hq.present_uninit _ _, fun j => Nat.eq_zero_of_le_zero ?_, ?_⟩
  · refine (hq.used_uninit _ _ j).trans (Nat.le_of_eq ?_)
    rw [unuse_spec hq s (Nat.le_of_eq h.entries.symm), h.once j]
    split <;> rfl
  · -- a release of vector `i` comes after those of the vectors below it
    have hfound : (List.range conf.msixVecNum.toNat).map
        (fun i => (⟨.unuse, i, q.used (accUnuseMsixVectors q s i) i⟩ : VectorCall))
          = eachOnce conf .unuse 1 := by
      refine List.map_congr_left fun i hi => ?_
      have hlt := List.mem_range.mp hi
      rw [unuse_spec hq s (by rw [h.entries]; exact Nat.le_of_lt hlt), if_neg (Nat.lt_irrefl i),
        h.once i, if_pos hlt]
    rw [List.nil_append, hfound]
    rfl

/-- Without a table it does nothing. -/
theorem cleanup_of_absent {conf : ACCConf} {s : σ} (h : q.present s = false) :
    accCleanupMsix q conf s = s ∧ accCleanupMsix q.logged conf (s, []) = (s, []) := by
  have hnot : ¬q.present s = true := by simp [h]
  exact ⟨if_neg hnot, if_neg hnot⟩

end QemuHdlSim.Msix
