import QemuHdlSim.Bridge.Log2c
import QemuHdlSim.Device.Pcie

/-!
# The burst of an access

`C_poll` makes a burst out of the size of an access: the number of beats from a division by the
bus width, the size of a beat from `log2c`. The second looks at the whole access, not at what a
beat carries of it, so an access wider than the bus gets beats that are wider than the bus
(`burstGeometry_iff`).
-/

namespace QemuHdlSim

open Infra

/-- `axi_len` of `C_poll`. -/
def burstLen (busw : Nat) (f : ACCData) : BitVec 32 :=
  BitVec.ofNat 32 (axiLen busw f.dataSize.toNat)

/-- `axi_size` of `C_poll`. -/
def burstWidth (f : ACCData) : BitVec 32 := (log2c (f.dataSize.setWidth 64)).setWidth 32

/-- The burst covers an access of `size` bytes on a bus of `busw` bytes, and no more than it
must. -/
structure BurstCovers (busw size : Nat) (len width : BitVec 32) : Prop where
  /-- A beat fits the bus. -/
  legal : 2 ^ width.toNat ≤ busw
  /-- `req_len` has 8 bits. -/
  lenPort : (len.setWidth 8).toNat = len.toNat
  /-- `req_size` has 3 bits. -/
  widthPort : (width.setWidth 3).toNat = width.toNat
  /-- One beat, of the least power of two. -/
  narrow : size ≤ busw → len = 0 ∧ IsLeast {n | size ≤ 2 ^ n} width.toNat
  /-- Beats as wide as the bus. -/
  wide : busw < size → len.toNat + 1 = (size + busw - 1) / busw ∧ 2 ^ width.toNat = busw
  /-- How `C_req_read` and `C_req_write` count the bytes of a burst. -/
  decodes : size.isPowerOfTwo ∨ busw ∣ size → (burstSize width.toNat len.toNat).toNat = size

/-- `C_poll` hands these two on. -/
theorem burst_of_cPoll {busw : Nat} {conf : ACCConf} {f : ACCData} {v v' : PollVars}
    {r : Option ACCConf} (h : cPoll busw conf (.qemuReq f) v = some (v', r)) :
    v'.len = burstLen busw f ∧ v'.size = burstWidth f := by
  obtain ⟨w, hw, heq⟩ := Option.map_eq_some_iff.mp h
  cases heq
  exact (cPollQemuReq_eq_some hw).2

/-- The beat size is the ceiling logarithm of the whole access. -/
theorem burstWidth_toNat {f : ACCData} (h : 1 ≤ f.dataSize.toNat) :
    (burstWidth f).toNat = Nat.clog 2 f.dataSize.toNat := by
  have hwide : (f.dataSize.setWidth 64).toNat = f.dataSize.toNat :=
    BitVec.toNat_setWidth_of_le (by decide)
  have hlog := log2c_toNat (x := f.dataSize.setWidth 64) (by rw [hwide]; exact h)
  rw [hwide] at hlog
  unfold burstWidth
  rw [BitVec.toNat_setWidth_of_le (by decide), hlog]

/-- The number of beats is right for an access of any size. -/
theorem burstLen_succ {p : BusParams} {f : ACCData} (hlt : p.stbw < f.dataSize.toNat) :
    (burstLen p.stbw f).toNat + 1 = (f.dataSize.toNat + p.stbw - 1) / p.stbw := by
  have hpos := p.stbw_pos
  have hdiv := Nat.div_add_mod' f.dataSize.toNat p.stbw
  have hmod := Nat.mod_lt f.dataSize.toNat hpos
  have hquot : 1 ≤ f.dataSize.toNat / p.stbw := Nat.div_pos (Nat.le_of_lt hlt) hpos
  have hlen : axiLen p.stbw f.dataSize.toNat + 1
      = (f.dataSize.toNat + p.stbw - 1) / p.stbw := by
    unfold axiLen
    rw [if_pos hlt]
    symm
    -- a beat more when the division leaves a rest
    split
    · refine Nat.div_eq_of_lt_le ?_ ?_
      · rw [Nat.succ_mul]
        omega
      · rw [Nat.succ_mul, Nat.succ_mul]
        omega
    · rw [Nat.sub_add_cancel hquot]
      refine Nat.div_eq_of_lt_le ?_ ?_
      · omega
      · rw [Nat.succ_mul]
        omega
  have hbound : axiLen p.stbw f.dataSize.toNat < 2 ^ 32 := by
    have hle : axiLen p.stbw f.dataSize.toNat ≤ f.dataSize.toNat := by
      have hself := Nat.div_le_self f.dataSize.toNat p.stbw
      unfold axiLen
      rw [if_pos hlt]
      split <;> omega
    exact Nat.lt_of_le_of_lt hle f.dataSize.isLt
  unfold burstLen
  rw [BitVec.toNat_ofNat, Nat.mod_eq_of_lt hbound, hlen]

/-- An access that fits the bus goes in one beat. -/
theorem burstCovers_of_le {p : BusParams} {f : ACCData} (h : 1 ≤ f.dataSize.toNat)
    (hle : f.dataSize.toNat ≤ p.stbw) :
    BurstCovers p.stbw f.dataSize.toNat (burstLen p.stbw f) (burstWidth f) := by
  have hwidth := burstWidth_toNat h
  have hlog : Nat.clog 2 f.dataSize.toNat ≤ p.log2Stbw := Nat.clog_le_of_le_pow hle
  have hlog6 := p.log2Stbw_le
  have hlen : burstLen p.stbw f = 0 := by
    unfold burstLen
    rw [axiLen_of_le hle]
    rfl
  refine ⟨?_, by rw [hlen]; rfl, ?_, fun _ => ⟨hlen, ?_⟩, fun hlt => absurd hle (by omega), ?_⟩
  · rw [hwidth]
    exact Nat.pow_le_pow_right (by decide) hlog
  · rw [BitVec.toNat_setWidth, hwidth]
    exact Nat.mod_eq_of_lt (by omega)
  · rw [hwidth]
    exact ⟨Nat.le_pow_clog (by decide) _, fun n hn => Nat.clog_le_of_le_pow hn⟩
  · intro hexact
    -- a multiple of the bus width that fits the bus is the bus width
    have hpow : f.dataSize.toNat.isPowerOfTwo := by
      rcases hexact with hpow | hdvd
      · exact hpow
      · have hge := Nat.le_of_dvd h hdvd
        exact ⟨p.log2Stbw, Nat.le_antisymm hle hge⟩
    obtain ⟨k, hk⟩ := hpow
    have hsize : 2 ^ (burstWidth f).toNat = f.dataSize.toNat := by
      rw [hwidth, hk, Nat.clog_pow 2 k (by decide)]
    have hstbw := p.stbw_le
    have htotal :
        ((burstLen p.stbw f).toNat + 1) * 2 ^ (burstWidth f).toNat = f.dataSize.toNat := by
      rw [hlen, hsize]
      exact Nat.one_mul _
    have hfit : f.dataSize.toNat ≤ buffSize := Nat.le_trans hle (Nat.le_trans hstbw (by decide))
    rw [burstSize_toNat (by rw [htotal]; exact hfit), htotal]

/--
**When the burst is right**: exactly when the access fits the bus. It is the burst `C_poll` hands
on, for whatever frame, configuration and variables.
-/
theorem burstGeometry_iff {p : BusParams} {f : ACCData} (h : 1 ≤ f.dataSize.toNat) :
    (BurstCovers p.stbw f.dataSize.toNat (burstLen p.stbw f) (burstWidth f) ↔
        f.dataSize.toNat ≤ p.stbw) ∧
      ∀ conf v v' r, cPoll p.stbw conf (.qemuReq f) v = some (v', r) →
        v'.len = burstLen p.stbw f ∧ v'.size = burstWidth f := by
  refine ⟨⟨fun hcovers => ?_, burstCovers_of_le h⟩, fun conf v v' r => burst_of_cPoll⟩
  have hlegal := hcovers.legal
  rw [burstWidth_toNat h] at hlegal
  exact Nat.le_trans (Nat.le_pow_clog (by decide) _) hlegal

/-- A read of 8 bytes from BAR 0. -/
def readEight : ACCData := mmioReadReq 0 0 8 1

theorem burstGeometry_eight :
    BurstCovers 8 8 (burstLen 8 readEight) (burstWidth readEight) :=
  (burstGeometry_iff (p := bus64) (f := readEight) (by decide)).1.mpr (by decide)

/-- A bus of 4 bytes. -/
def bus32 : BusParams := ⟨3, 2, by decide⟩

/-- **On a bus of 4 bytes** it gets two beats of 8 bytes, which it does not even fit in one of. -/
theorem not_burstCovers_eight :
    (0 + (defaultConf.bar bar0).offset).toNat % bus32.stbw = 0 ∧
      ∃ v', cPoll bus32.stbw defaultConf (.qemuReq readEight) PollVars.zero = some (v', none) ∧
        v'.len = 1 ∧ v'.size = 3 ∧ ¬BurstCovers bus32.stbw 8 v'.len v'.size := by
  refine ⟨by decide, _, rfl, by decide, by decide, fun h => ?_⟩
  exact absurd h.legal (by decide)

end QemuHdlSim
