import QemuHdlSim.Bridge.Dpi
import QemuHdlSim.Infra.Path
import Mathlib.Data.Nat.Log
import Mathlib.Order.Bounds.Defs

/-!
# What `log2c` computes

`log` starts at 1 when `x & (x - 1)` is not zero, which is when `x` is no power of two, and counts
the shifts after which a bit is left, which are as many as the floor of the logarithm.

* `loop_law` — what the loop has done after any number of rounds
* `log2c_toNat` — `log2c` is the ceiling of the logarithm
-/

namespace QemuHdlSim

open Infra

/-! ## The loop -/

/-- The variables of `log2c`. -/
structure Log2cVars where
  x : BitVec 64
  log : BitVec 8

/-- Before `while`. -/
def Log2cVars.start (x : BitVec 64) : Log2cVars := ⟨x, if x &&& (x - 1) = 0 then 0 else 1⟩

/-- `while (x >>= 1) log++`: one round, `none` when the test ends the loop. -/
def Log2cVars.next (v : Log2cVars) : Option Log2cVars :=
  if v.x >>> 1 = 0 then none else some ⟨v.x >>> 1, v.log + 1⟩

/-- Rounds of the loop, with the variables before each of them. -/
abbrev Log2cRounds (v : Log2cVars) (tr : List (Log2cVars × Unit)) (v' : Log2cVars) : Prop :=
  Path (fun a _ b => a.next = some b) v tr v'

/-- A round halves `x`, which was at least 2. -/
theorem Log2cVars.next_eq_some {v v' : Log2cVars} (h : v.next = some v') :
    2 ≤ v.x.toNat ∧ v'.x.toNat = v.x.toNat / 2 ∧ v'.log = v.log + 1 := by
  unfold next at h
  split at h
  · exact absurd h (by simp)
  · next hne =>
    cases h
    have hhalf : (v.x >>> 1).toNat = v.x.toNat / 2 := by
      rw [BitVec.toNat_ushiftRight, Nat.shiftRight_eq_div_pow, Nat.pow_one]
    have hpos : (v.x >>> 1).toNat ≠ 0 := fun h0 => hne (BitVec.eq_of_toNat_eq h0)
    exact ⟨by omega, hhalf, rfl⟩

/-- The loop ends when nothing is left to shift. -/
theorem Log2cVars.next_eq_none {v : Log2cVars} : v.next = none ↔ v.x.toNat < 2 := by
  have hhalf : (v.x >>> 1).toNat = v.x.toNat / 2 := by
    rw [BitVec.toNat_ushiftRight, Nat.shiftRight_eq_div_pow, Nat.pow_one]
  unfold next
  constructor
  · intro h
    split at h
    · next h0 =>
      rw [h0] at hhalf
      have hzero : (0 : BitVec 64).toNat = 0 := rfl
      omega
    · exact absurd h (by simp)
  · intro h
    have hzero : (v.x >>> 1).toNat = 0 := hhalf.trans (Nat.div_eq_of_lt h)
    exact if_pos (BitVec.eq_of_toNat_eq hzero)

/-- **What the rounds have done**: `log` has counted them, and `x` lost as many bits. -/
theorem loop_law {v v' : Log2cVars} {tr : List (Log2cVars × Unit)} (h : Log2cRounds v tr v')
    (hlog : v.log.toNat + Nat.log2 v.x.toNat < 256) :
    tr.length + Nat.log2 v'.x.toNat = Nat.log2 v.x.toNat ∧
      v'.log.toNat = v.log.toNat + tr.length ∧
      ∀ c ∈ tr, (c.1.log + 1).toNat = c.1.log.toNat + 1 := by
  induction h with
  | nil v => exact ⟨Nat.zero_add _, rfl, fun c hc => absurd hc List.not_mem_nil⟩
  | @cons a b c _ tr hnext hpath ih =>
    obtain ⟨htwo, hhalf, hinc⟩ := Log2cVars.next_eq_some hnext
    have hbits : Nat.log2 a.x.toNat = Nat.log2 b.x.toNat + 1 := by
      rw [hhalf, Nat.log2_def a.x.toNat, if_pos htwo]
    have hsucc : (a.log + 1).toNat = a.log.toNat + 1 := by
      rw [BitVec.toNat_add]
      exact Nat.mod_eq_of_lt (show a.log.toNat + 1 < 256 by omega)
    rw [← hinc] at hsucc
    obtain ⟨hlen, hend, hall⟩ := ih (by omega)
    refine ⟨by rw [List.length_cons]; omega, by rw [hend, List.length_cons]; omega, ?_⟩
    intro d hd
    rcases List.mem_cons.mp hd with rfl | hd
    · rw [← hinc]
      exact hsucc
    · exact hall d hd

/-- The loop comes to its end. -/
theorem exists_rounds (v : Log2cVars) : ∃ tr v', Log2cRounds v tr v' ∧ v'.next = none := by
  induction hn : v.x.toNat using Nat.strongRecOn generalizing v with
  | ind n ih =>
    cases hnext : v.next with
    | none => exact ⟨[], v, Path.nil v, hnext⟩
    | some w =>
      obtain ⟨htwo, hhalf, _⟩ := Log2cVars.next_eq_some hnext
      obtain ⟨tr, v', hrounds, hend⟩ := ih w.x.toNat (by omega) w rfl
      exact ⟨(v, ()) :: tr, v', Path.cons hnext hrounds, hend⟩

/-- The recursion of `log2cLoop` is the loop, as long as its fuel lasts. -/
theorem log2cLoop_eq {v v' : Log2cVars} {tr : List (Log2cVars × Unit)} (h : Log2cRounds v tr v')
    (hend : v'.next = none) {fuel : Nat} (hfuel : tr.length < fuel) :
    log2cLoop fuel v.x v.log = v'.log := by
  induction h generalizing fuel with
  | nil v =>
    obtain ⟨n, rfl⟩ := Nat.exists_eq_succ_of_ne_zero (Nat.ne_of_gt hfuel)
    unfold Log2cVars.next at hend
    split at hend
    · next h0 => exact if_pos h0
    · exact absurd hend (by simp)
  | @cons a b c _ tr hnext hpath ih =>
    obtain ⟨n, rfl⟩ := Nat.exists_eq_succ_of_ne_zero (Nat.ne_of_gt (Nat.zero_lt_of_lt hfuel))
    rw [List.length_cons] at hfuel
    have hrest : log2cLoop n b.x b.log = c.log := ih hend (by omega)
    unfold Log2cVars.next at hnext
    split at hnext
    · exact absurd hnext (by simp)
    · next hne =>
      cases hnext
      rw [← hrest]
      exact if_neg hne

/-! ## The result -/

theorem log2_toNat_lt (x : BitVec 64) : Nat.log2 x.toNat < 64 := by
  by_cases h : x.toNat = 0
  · rw [h]
    decide
  · exact (Nat.log2_lt h).mpr x.isLt

/-- Where `log` starts. -/
theorem start_log_toNat {x : BitVec 64} (hx : 0 < x.toNat) :
    (Log2cVars.start x).log.toNat = if x.toNat.isPowerOfTwo then 0 else 1 := by
  have hone : (1 : BitVec 64).toNat = 1 := rfl
  have hpred : (x - 1).toNat = x.toNat - 1 :=
    BitVec.toNat_sub_of_le (show 1 ≤ x.toNat from hx)
  have hiff : x &&& (x - 1) = 0 ↔ x.toNat.isPowerOfTwo := by
    rw [← Nat.and_sub_one_eq_zero_iff_isPowerOfTwo (Nat.ne_of_gt hx), ← BitVec.toNat_inj,
      BitVec.toNat_and, hpred]
    exact Iff.rfl
  unfold Log2cVars.start
  by_cases h : x &&& (x - 1) = 0
  · rw [if_pos h, if_pos (hiff.mp h)]
    rfl
  · rw [if_neg h, if_neg fun hp => h (hiff.mpr hp)]
    rfl

/-- Every run of the loop is short, never wraps `log`, and ends with the value of `log2c`. -/
theorem rounds_of_start {x : BitVec 64} {tr : List (Log2cVars × Unit)} {v : Log2cVars}
    (h : Log2cRounds (Log2cVars.start x) tr v) :
    tr.length < 64 ∧ (∀ c ∈ tr, (c.1.log + 1).toNat = c.1.log.toNat + 1) ∧
      (v.next = none → log2c x = v.log) := by
  have hbits := log2_toNat_lt x
  have hstart : (Log2cVars.start x).log.toNat ≤ 1 := by
    show (if x &&& (x - 1) = 0 then 0 else 1 : BitVec 8).toNat ≤ 1
    split <;> decide
  have hx : (Log2cVars.start x).x = x := rfl
  obtain ⟨hlen, _, hall⟩ := loop_law h (by rw [hx]; omega)
  rw [hx] at hlen
  have hshort : tr.length < 64 := by omega
  exact ⟨hshort, hall, fun hend => log2cLoop_eq h hend hshort⟩

/-- The floor of the logarithm, and one more when `x` is no power of two. -/
theorem log2c_eq_log2 {x : BitVec 64} (hx : 0 < x.toNat) :
    (log2c x).toNat = (if x.toNat.isPowerOfTwo then 0 else 1) + Nat.log2 x.toNat := by
  obtain ⟨tr, v, hrounds, hend⟩ := exists_rounds (Log2cVars.start x)
  have hbits := log2_toNat_lt x
  have hstart := start_log_toNat hx
  have hle : (if x.toNat.isPowerOfTwo then 0 else 1) ≤ 1 := by split <;> decide
  have hvx : (Log2cVars.start x).x = x := rfl
  obtain ⟨hlen, hlog, _⟩ := loop_law hrounds (by rw [hstart, hvx]; omega)
  -- nothing is left to shift, so the loop has counted all the bits
  have hlast : Nat.log2 v.x.toNat = 0 := by
    have hlt := Log2cVars.next_eq_none.mp hend
    rw [Nat.log2_def, if_neg (by omega)]
  rw [(rounds_of_start hrounds).2.2 hend, hlog, hstart]
  rw [hlast, hvx, Nat.add_zero] at hlen
  rw [hlen]

/-- **`log2c` is the ceiling of the logarithm.** -/
theorem log2c_toNat {x : BitVec 64} (hx : 0 < x.toNat) : (log2c x).toNat = Nat.clog 2 x.toNat := by
  have hne : x.toNat ≠ 0 := Nat.ne_of_gt hx
  rw [log2c_eq_log2 hx]
  by_cases hp : x.toNat.isPowerOfTwo
  · obtain ⟨k, hk⟩ := hp
    rw [if_pos ⟨k, hk⟩, hk, Nat.log2_two_pow, Nat.clog_pow 2 k (by decide), Nat.zero_add]
  · rw [if_neg hp]
    -- strictly between two powers
    have hlow : 2 ^ Nat.log2 x.toNat < x.toNat :=
      Nat.lt_of_le_of_ne (Nat.log2_self_le hne) fun h => hp ⟨_, h.symm⟩
    have hlt : Nat.log2 x.toNat < Nat.clog 2 x.toNat :=
      (Nat.lt_clog_iff_pow_lt (by decide)).mpr hlow
    have hle : Nat.clog 2 x.toNat ≤ Nat.log2 x.toNat + 1 :=
      Nat.clog_le_of_le_pow (Nat.le_of_lt Nat.lt_log2_self)
    omega

/--
**`log2c` is the ceiling logarithm.** The least `n` with `x ≤ 2 ^ n`; whatever rounds the loop has
made, they are fewer than 64 and wrapped `log` in none of them, and it comes to its end.
-/
theorem log2c_isLeast {x : BitVec 64} (hx : 1 ≤ x.toNat) :
    IsLeast {n | x.toNat ≤ 2 ^ n} (log2c x).toNat ∧
      (∀ tr v, Log2cRounds (Log2cVars.start x) tr v →
        tr.length < 64 ∧ (∀ c ∈ tr, (c.1.log + 1).toNat = c.1.log.toNat + 1) ∧
          (v.next = none → log2c x = v.log)) ∧
      ∃ tr v, Log2cRounds (Log2cVars.start x) tr v ∧ v.next = none := by
  refine ⟨?_, fun tr v h => rounds_of_start h, exists_rounds _⟩
  rw [log2c_toNat hx]
  exact ⟨Nat.le_pow_clog (by decide) _, fun n hn => Nat.clog_le_of_le_pow hn⟩

/-- Above the greatest power of two the result is 64. -/
theorem log2c_isLeast_top :
    (log2c 0x8000000000000001).toNat = 64 ∧
      IsLeast {n | (0x8000000000000001 : BitVec 64).toNat ≤ 2 ^ n}
        (log2c 0x8000000000000001).toNat :=
  ⟨by decide +kernel, (log2c_isLeast (by decide)).1⟩

end QemuHdlSim
