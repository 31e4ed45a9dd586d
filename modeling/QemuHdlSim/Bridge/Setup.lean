import QemuHdlSim.Bridge.Acc

/-!
# The configuration of the device (`C_setup_pcie_connection`)

The parameters of `axi4_ip` say which BARs there are, how large they are and where on the AXI bus.
Its `initial` block hands them to `C_setup_pcie_connection`, which keeps them in `conf`. QEMU gets
`conf` from there with the INIT exchange.
-/

namespace QemuHdlSim

/-- The parameters of `axi4_ip` that `C_setup_pcie_connection` is called with. -/
structure IpParams where
  vendorId : BitVec 16
  deviceId : BitVec 16
  is64Bit : Bool
  prefetch : Bool
  /-- `BAR0` to `BAR5`, each as a `byte` -/
  bar : Fin 6 → BitVec 8
  /-- `BAR0_SIZE` to `BAR5_SIZE`: the logarithms of the sizes -/
  barSize : Fin 6 → BitVec 64
  barOffset : Fin 6 → BitVec 64
  msixVecNum : BitVec 16
  msixTableBar : BitVec 16
  msixTableOffset : BitVec 64
  msixPbaBar : BitVec 16
  msixPbaOffset : BitVec 64

/-- `attr`: the bits that are not assigned are `x`, and 0 in the `byte` they are passed as. -/
def IpParams.attr (q : IpParams) : BitVec 8 :=
  (if q.is64Bit then 1 else 0) ||| (if q.prefetch then 2 else 0)

/-- What `C_setup_pcie_connection` makes of its arguments; a size of 64 or more is shifted out of
`1ULL`. -/
def cSetupPcieConnection (vendorid deviceid : BitVec 16) (attributes : BitVec 8)
    (validBars : Fin 6 → BitVec 8) (barSize barOffset : Fin 6 → BitVec 64)
    (msixVecNum msixTableBar : BitVec 16) (msixTableOffset : BitVec 64)
    (msixPbaBar : BitVec 16) (msixPbaOffset : BitVec 64) : Option ACCConf :=
  if ∀ i, (barSize i).toNat < 64 then some
    { bar := fun i => ⟨validBars i != 0, (1 : BitVec 64) <<< (barSize i).toNat, barOffset i⟩
      is64 := attributes &&& 1 == 1
      prefetch := attributes &&& 2 == 2
      deviceId := deviceid
      vendorId := vendorid
      msixVecNum := msixVecNum
      msixTableBar := msixTableBar
      msixTableOffset := msixTableOffset
      msixPbaBar := msixPbaBar
      msixPbaOffset := msixPbaOffset }
  else none

/-- The call in the `initial` block of `axi4_ip`. -/
def IpParams.setup (q : IpParams) : Option ACCConf :=
  cSetupPcieConnection q.vendorId q.deviceId q.attr q.bar q.barSize q.barOffset q.msixVecNum
    q.msixTableBar q.msixTableOffset q.msixPbaBar q.msixPbaOffset

/-- The default parameters. -/
def IpParams.default : IpParams where
  vendorId := 0x10EE
  deviceId := 0xC951
  is64Bit := true
  prefetch := false
  bar := fun i => if i.val = 0 ∨ i.val = 2 then 1 else 0
  barSize := fun i => if i.val = 0 then 29 else if i.val = 2 then 21 else 1
  barOffset := fun i => if i.val = 0 then 0xC0000000 else if i.val = 2 then 0x80000000 else 0
  msixVecNum := 3
  msixTableBar := 0
  msixTableOffset := 0x90000
  msixPbaBar := 0
  msixPbaOffset := 0x91000

/-- `defaultConf` is what the default parameters give. -/
theorem setup_default : IpParams.default.setup = some defaultConf := by
  have hsize : ∀ i, (IpParams.default.barSize i).toNat < 64 := by decide
  have hbar : (fun i => ⟨IpParams.default.bar i != 0,
      (1 : BitVec 64) <<< (IpParams.default.barSize i).toNat,
      IpParams.default.barOffset i⟩ : Fin 6 → BARConf) = defaultConf.bar := by
    funext i
    match i with
    | 0 | 1 | 2 | 3 | 4 | 5 => rfl
  unfold IpParams.setup cSetupPcieConnection
  rw [if_pos hsize, hbar]
  rfl

/-- The two bits of `attr` come back. -/
theorem attr_bits (q : IpParams) :
    (q.attr &&& 1 == 1) = q.is64Bit ∧ (q.attr &&& 2 == 2) = q.prefetch := by
  unfold IpParams.attr
  cases q.is64Bit <;> cases q.prefetch <;> decide

/-- **What `conf` holds of the parameters.** -/
theorem setup_eq_some {q : IpParams} {conf : ACCConf} (h : q.setup = some conf) :
    conf.is64 = q.is64Bit ∧ conf.prefetch = q.prefetch ∧ conf.vendorId = q.vendorId ∧
      conf.deviceId = q.deviceId ∧
      ∀ i, (conf.bar i).isValid = (q.bar i != 0) ∧ (conf.bar i).offset = q.barOffset i ∧
        (conf.bar i).size.toNat = 2 ^ (q.barSize i).toNat := by
  unfold IpParams.setup cSetupPcieConnection at h
  by_cases hsize : ∀ i, (q.barSize i).toNat < 64
  · rw [if_pos hsize, Option.some.injEq] at h
    rw [← h]
    refine ⟨(attr_bits q).1, (attr_bits q).2, rfl, rfl, fun i => ⟨rfl, rfl, ?_⟩⟩
    show ((1 : BitVec 64) <<< (q.barSize i).toNat).toNat = _
    have hpow : 2 ^ (q.barSize i).toNat < 2 ^ 64 :=
      Nat.pow_lt_pow_right (Nat.lt_succ_self 1) (hsize i)
    have hone : (1 : BitVec 64).toNat = 1 := rfl
    rw [BitVec.toNat_shiftLeft, hone, Nat.shiftLeft_eq, Nat.one_mul, Nat.mod_eq_of_lt hpow]
  · rw [if_neg hsize] at h
    exact absurd h (by simp)

end QemuHdlSim
