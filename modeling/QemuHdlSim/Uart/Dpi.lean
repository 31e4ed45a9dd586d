import QemuHdlSim.Infra.Bytes

/-!
# The C side of the UART (`dpi-uart.c`), and its register map

The frames that have arrived on `uart_rx` are a list, the oldest one first; `zpoller_wait` finds
the socket exactly when there is one. `C_uart_rx` reads a word whatever the size of the frame, and
writes nothing when there is no frame: what lies behind a short frame, and what the caller then
gets, is `RxEnv`.
-/

namespace QemuHdlSim.Uart

open Infra

/-! ## Registers -/

/-- The registers; each is at the offset its `localparam` gives. -/
inductive Reg where
  | rxFifo
  | txFifo
  | statReg
  | ctrlReg
  deriving DecidableEq, Repr

/-- The `localparam`s. -/
def Reg.offset : Reg → BitVec 4
  | .rxFifo => 0x0
  | .txFifo => 0x4
  | .statReg => 0x8
  | .ctrlReg => 0xC

/-- The register at an offset, if there is one. -/
def regAt (a : BitVec 4) : Option Reg :=
  if a = Reg.offset .txFifo then some .txFifo
  else if a = Reg.offset .ctrlReg then some .ctrlReg
  else if a = Reg.offset .statReg then some .statReg
  else if a = Reg.offset .rxFifo then some .rxFifo
  else none

/-! ## The C functions -/

/-- A frame of `uart_rx`. -/
abbrev Frame := List Byte

/-- What one call of `C_uart_rx` meets. -/
structure RxEnv where
  /-- The memory behind the frame. -/
  behind : Nat → Byte
  /-- What the caller gets when the output argument is not written. -/
  unwritten : BitVec 32

/-- `*(unsigned int*) zframe_data(frame)` -/
def frameWord (behind : Nat → Byte) (f : Frame) : BitVec 32 :=
  BitVec.ofNat 32 (leVal (fun k => f.getD k (behind (k - f.length))) 4)

/-- Whatever lies behind the frame, its first byte is the low one of the word. -/
theorem frameWord_low (behind : Nat → Byte) (b : Byte) (f : Frame) :
    (frameWord behind (b :: f)).setWidth 8 = b := by
  refine BitVec.eq_of_toNat_eq ?_
  unfold frameWord
  rw [BitVec.toNat_setWidth, BitVec.toNat_ofNat,
    Nat.mod_mod_of_dvd _ (show 2 ^ 8 ∣ 2 ^ 32 from Nat.pow_dvd_pow 2 (by decide))]
  exact leVal_mod _ 3

/-- `C_uart_poll`: `data_available`, which is `sock == NULL`. -/
def cUartPoll (uartRx : List Frame) : Bool := uartRx.isEmpty

/-- `C_uart_rx`: what the caller gets, and what is left on `uart_rx`. -/
def cUartRx (env : RxEnv) : List Frame → BitVec 32 × List Frame
  | [] => (env.unwritten, [])
  | f :: rest => (frameWord env.behind f, rest)

/-- `C_uart_tx`: the byte sent on `uart_tx`. -/
def cUartTx (data : BitVec 32) : Byte := data.setWidth 8

end QemuHdlSim.Uart
