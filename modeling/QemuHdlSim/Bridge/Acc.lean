import QemuHdlSim.Infra.Bytes

/-!
# The frames and the configuration both sides share (`acc.h`)

`ACCData` is the one frame format of the four PCIe sockets, `ACCNICData` that of the two NIC
sockets, `ACCConf` is what the HDL side answers the INIT frame with. The bus parameters of the
bridge IP are here too, since the C code gets them at set-up (`busw`) and every HDL module is a
function of them.
-/

namespace QemuHdlSim

open Infra

/-- `BUFF_SIZE`, and the `DTMP` of every HDL module: the bytes of one data buffer. -/
abbrev buffSize : Nat := 4096

theorem buffSize_eq : buffSize = 4096 := rfl

/-- `ACCOp`. -/
inductive ACCOp where
  | noop
  | read
  | write
  | intr
  | init
  deriving DecidableEq, Repr

/-- `QEMUOp`, with the `NOOP` that `C_poll` reports when it found nothing. -/
inductive QEMUOp where
  | noop
  | mRd
  | mWr
  | sRd
  deriving DecidableEq, Repr

/-- `ACCData`. -/
structure ACCData where
  /-- transaction id - unused -/
  id : BitVec 32
  dataSize : BitVec 32
  address : BitVec 64
  op : ACCOp
  barNum : BitVec 8
  data : Buf buffSize
  vector : BitVec 32

/-- `memset(&acc, 0, sizeof(ACCData))`. -/
def ACCData.zero : ACCData where
  id := 0
  dataSize := 0
  address := 0
  op := .noop
  barNum := 0
  data := fun _ => 0
  vector := 0

/-- `ACCNICData`. -/
structure ACCNICData where
  last : BitVec 8
  size : BitVec 32
  id : BitVec 32
  data : Buf buffSize

/-- `memset(&acc_req, 0, sizeof(ACCNICData))`. -/
def ACCNICData.zero : ACCNICData where
  last := 0
  size := 0
  id := 0
  data := fun _ => 0

/-- The packet a frame carries. -/
def ACCNICData.payload (f : ACCNICData) : List Byte := (List.range f.size.toNat).map f.data.get

/-- `BARConf`. -/
structure BARConf where
  isValid : Bool
  size : BitVec 64
  offset : BitVec 64

/-- `ACCConf`. -/
structure ACCConf where
  bar : Fin 6 → BARConf
  is64 : Bool
  prefetch : Bool
  deviceId : BitVec 16
  vendorId : BitVec 16
  msixVecNum : BitVec 16
  msixTableBar : BitVec 16
  msixTableOffset : BitVec 64
  msixPbaBar : BitVec 16
  msixPbaOffset : BitVec 64

/-- The `conf` that `C_setup_pcie_connection` builds from the default parameters of `axi4_ip`. -/
def defaultConf : ACCConf where
  bar := fun i =>
    match i.val with
    | 0 => { isValid := true, size := 1 <<< 29, offset := 0xC0000000 }
    | 2 => { isValid := true, size := 1 <<< 21, offset := 0x80000000 }
    | _ => { isValid := false, size := 1 <<< 1, offset := 0 }
  is64 := true
  prefetch := false
  deviceId := 0xC951
  vendorId := 0x10EE
  msixVecNum := 3
  msixTableBar := 0
  msixTableOffset := 0x90000
  msixPbaBar := 0
  msixPbaOffset := 0x91000

/-- The two BARs that `defaultConf` has. -/
def bar0 : Fin 6 := 0
def bar2 : Fin 6 := 2

/-! ## Bus parameters -/

/--
The parameters of the bridge IP: the width of the AXI ids and the width of the data bus.

`DATW` is a power of two and at most 512 bits, because the strobes of a beat travel in one
`longint`.
-/
structure BusParams where
  tagw : Nat
  log2Stbw : Nat
  log2Stbw_le : log2Stbw ≤ 6

namespace BusParams

/-- `STBW = DATW / 8`, the bytes (and the strobes) of a beat; `BUSW` on the C side. -/
def stbw (p : BusParams) : Nat := 2 ^ p.log2Stbw

/-- `NSTB = DTMP / STBW`. -/
def nstb (p : BusParams) : Nat := buffSize / p.stbw

theorem stbw_pos (p : BusParams) : 0 < p.stbw := Nat.two_pow_pos _

theorem stbw_le (p : BusParams) : p.stbw ≤ 64 := by
  have h : p.stbw ≤ 2 ^ 6 := Nat.pow_le_pow_right (by omega) p.log2Stbw_le
  omega

/-- `n` beats fit the buffer exactly when there are enough strobe words for them. -/
theorem le_nstb_iff (p : BusParams) (n : Nat) : n ≤ p.nstb ↔ n * p.stbw ≤ buffSize :=
  Nat.le_div_iff_mul_le p.stbw_pos

end BusParams

/-- A 64-bit bus with 3-bit ids, for the examples. -/
def bus64 : BusParams := ⟨3, 3, by decide⟩

/-- A beat of the data bus, as its byte lanes: lane `j` is `wdata[(j*8)+:8]`. -/
abbrev BusWord (p : BusParams) := Fin p.stbw → Byte

/-- The byte on lane `j`; zero past the last lane. -/
def BusWord.lane {p : BusParams} (x : BusWord p) (j : Nat) : Byte :=
  if h : j < p.stbw then x ⟨j, h⟩ else 0

theorem BusWord.lane_mk {p : BusParams} (f : Nat → Byte) {j : Nat} (h : j < p.stbw) :
    BusWord.lane (p := p) (fun l => f l) j = f j := dif_pos h

/-- The buffer has the words `ws` one behind the other, as long as they fit it. -/
def HoldsWords {p : BusParams} (d : Buf buffSize) (ws : List (BusWord p)) : Prop :=
  ws.length * p.stbw ≤ buffSize → ∀ (i : Nat) (h : i < ws.length), ∀ j < p.stbw,
    d.get (i * p.stbw + j) = (ws.get ⟨i, h⟩).lane j

theorem holdsWords_nil {p : BusParams} (d : Buf buffSize) : HoldsWords (p := p) d [] :=
  fun _ i h => absurd h (Nat.not_lt_zero i)

/-- One word more. -/
theorem HoldsWords.snoc {p : BusParams} {d : Buf buffSize} {ws : List (BusWord p)}
    (h : HoldsWords d ws) (x : BusWord p) :
    HoldsWords (d.copyIn (ws.length * p.stbw) x.lane p.stbw) (ws ++ [x]) := by
  intro hfit i hi j hj
  rw [List.length_append, List.length_singleton] at hfit hi
  rw [Nat.succ_mul] at hfit
  rw [Buf.get_copyIn _ _ _ _ hfit]
  rcases Nat.lt_or_eq_of_le (Nat.le_of_lt_succ hi) with hlt | rfl
  · have hle : (i + 1) * p.stbw ≤ ws.length * p.stbw := Nat.mul_le_mul_right _ hlt
    rw [Nat.succ_mul] at hle
    rw [if_neg (by omega), h (by omega) i hlt j hj, List.get_eq_getElem, List.get_eq_getElem,
      List.getElem_append_left hlt]
  · rw [if_pos ⟨by omega, by omega⟩, Nat.add_sub_cancel_left, List.get_eq_getElem]
    simp

end QemuHdlSim
