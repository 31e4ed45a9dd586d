import QemuHdlSim.Uart.SlaveRead
import QemuHdlSim.Uart.SlaveWrite

/-!
# The UART (`axilite_uart.sv`)

The two slaves, the status register between them, and `uart_rx`, which both look at: the write
slave polls it in every cycle, and the read slave takes a frame off it. In which order the two
combinational blocks are evaluated is not known, and frames may arrive before and between them.

`ctrl_r` and `tx_fifo_r` are registers without an input, which nothing reads, and are left out.
-/

namespace QemuHdlSim.AxiLiteUart

open Infra Uart

/-- The registers, those of the two slaves, and the frames that have arrived. -/
structure State where
  statR : BitVec 32
  rxFifoR : BitVec 32
  sr : AxiLiteSR.Regs
  sw : AxiLiteSW.Regs
  uartRx : List Frame

/-- What one cycle meets. -/
structure Cycle where
  iRstN : Bool
  iSAraddr : BitVec 32
  iSArvalid : Bool
  iSRready : Bool
  iSAwaddr : BitVec 32
  iSAwvalid : Bool
  iSWdata : BitVec 32
  iSWvalid : Bool
  iSBready : Bool
  rx : RxEnv
  /-- `COMBO_WRITE` is evaluated before `COMBO_READ`. -/
  writeFirst : Bool
  /-- The frames that arrive before both. -/
  arrives : List Frame
  /-- The frames that arrive between them. -/
  between : List Frame

/-- After a reset, which leaves the latch of the read slave as it is. -/
def afterReset (sRdata : BitVec 32) (uartRx : List Frame) : State where
  statR := 0
  rxFifoR := 0
  sr := ⟨false, 0, sRdata⟩
  sw := AxiLiteSW.reset
  uartRx := uartRx

/-- The inputs of `axilite_s_r`. -/
def srInput (s : State) (c : Cycle) : AxiLiteSR.Input where
  iRstN := c.iRstN
  iSAraddr := c.iSAraddr
  iSArvalid := c.iSArvalid
  iSRready := c.iSRready
  iStat := s.statR
  rx := c.rx

/-- The inputs of `axilite_s_w`. -/
def swInput (s : State) (c : Cycle) : AxiLiteSW.Input where
  iRstN := c.iRstN
  iSAwaddr := c.iSAwaddr
  iSAwvalid := c.iSAwvalid
  iSWdata := c.iSWdata
  iSWvalid := c.iSWvalid
  iSBready := c.iSBready
  iStat := s.statR
  iRxFifo := s.rxFifoR

/-- `COMBO_READ` in this cycle. -/
def readCombo (s : State) (c : Cycle) : AxiLiteSR.Combo :=
  AxiLiteSR.comboRead s.sr (srInput s c)
    (if c.writeFirst then s.uartRx ++ c.arrives ++ c.between else s.uartRx ++ c.arrives)

/-- What `C_uart_poll` finds in this cycle. -/
def polled (s : State) (c : Cycle) : List Frame :=
  if c.writeFirst then s.uartRx ++ c.arrives else (readCombo s c).uartRx ++ c.between

/-- `COMBO_WRITE` in this cycle. -/
def writeCombo (s : State) (c : Cycle) : AxiLiteSW.Combo :=
  AxiLiteSW.comboWrite s.sw (swInput s c) (cUartPoll (polled s c))

/-- One clock edge. -/
def step (s : State) (c : Cycle) : State where
  statR := if c.iRstN then (writeCombo s c).oStat else 0
  rxFifoR := if c.iRstN then (writeCombo s c).oRxFifo else 0
  -- the slaves reset their own registers; a reset leaves `uart_rx` alone
  sr := AxiLiteSR.ff (srInput s c) (readCombo s c)
  sw := AxiLiteSW.ff (swInput s c) (writeCombo s c)
  uartRx := if c.writeFirst then (readCombo s c).uartRx else (readCombo s c).uartRx ++ c.between

/-- A read of `STAT_REG`. -/
def StatRead (s : State) (c : Cycle) : Prop :=
  c.iSArvalid = true ∧ (srInput s c).reg = some .statReg

/-- The write of `CTRL_REG` that is completed in this cycle, if there is one. -/
def ctrlWrite (s : State) (c : Cycle) : List (BitVec 32) := AxiLiteSW.ctrlWrite s.sw (swInput s c)

/-- A frame is pending on `uart_rx` in this cycle, when it is polled. -/
def pending (s : State) (c : Cycle) : Bool := !(polled s c).isEmpty

variable {s : State} {c : Cycle}

/-- A read of `STAT_REG` is answered with the status register. -/
theorem rdata_of_statRead (hr : c.iRstN = true) (h : StatRead s c) :
    (step s c).sr.rSRvalid = true ∧ (step s c).sr.rSRdata = s.statR := by
  obtain ⟨hv, hreg⟩ := h
  have hv' : (srInput s c).iSArvalid = true := hv
  have hr' : (srInput s c).iRstN = true := hr
  show (AxiLiteSR.ff (srInput s c) (readCombo s c)).rSRvalid = true ∧
    (AxiLiteSR.ff (srInput s c) (readCombo s c)).rSRdata = s.statR
  simp only [AxiLiteSR.ff, readCombo, AxiLiteSR.comboRead, hv', hr', hreg, if_true]
  exact ⟨trivial, rfl⟩

/-- **The status register after a cycle.** -/
theorem statR_step (hr : c.iRstN = true) {k : Nat} (hk : k < 32) :
    (step s c).statR.getLsbD k =
      if k = 4 then (match ctrlWrite s c with
        | [] => s.statR.getLsbD 4
        | w :: _ => w.getLsbD 4)
      else s.statR.getLsbD k || decide (k = 2) || (!pending s c && decide (k = 0)) := by
  have hstat : (step s c).statR = (writeCombo s c).oStat := if_pos hr
  have hpoll : cUartPoll (polled s c) = !pending s c := (Bool.not_not _).symm
  rw [hstat, writeCombo, AxiLiteSW.oStat_getLsbD _ _ _ hk, hpoll]
  rfl

end QemuHdlSim.AxiLiteUart
