import QemuHdlSim.Infra.Path
import QemuHdlSim.Uart.Dpi

/-!
# The read slave of the UART (`axilite_s_r.sv`)

One step is one rising clock edge; the combinational block is evaluated once a cycle. `arready` is
constantly high, so every cycle with `arvalid` is a handshake. There is one response register, and
an address overwrites it; an address at which there is no register clears `rvalid`.

* `owed_step` — the law of a step that loses no response (`Answerable`)
* `length_step` — a step never gains a response, and one that is not `Answerable` loses one
-/

namespace QemuHdlSim.AxiLiteSR

open Infra Uart

/-- The registers, and `s_rdata`, which is a latch. -/
structure Regs where
  rSRvalid : Bool
  rSRdata : BitVec 32
  sRdata : BitVec 32

/-- The inputs of one cycle. -/
structure Input where
  iRstN : Bool
  iSAraddr : BitVec 32
  iSArvalid : Bool
  iSRready : Bool
  iStat : BitVec 32
  /-- For the call of `C_uart_rx`. -/
  rx : RxEnv

/-- `s_rvalid` and `s_rdata`, and what is left on `uart_rx`. -/
structure Combo where
  sRvalid : Bool
  sRdata : BitVec 32
  uartRx : List Frame

/-- The value of a register, and what reading it leaves on `uart_rx`. -/
def readReg (i : Input) (uartRx : List Frame) : Reg → BitVec 32 × List Frame
  | .txFifo => (0xDEADBEEF, uartRx)
  | .ctrlReg => (0xABADCAFE, uartRx)
  | .statReg => (i.iStat, uartRx)
  | .rxFifo => cUartRx i.rx uartRx

/-- The register that `i_s_araddr[3:0]` selects, if there is one. -/
def Input.reg (i : Input) : Option Reg := regAt (i.iSAraddr.setWidth 4)

/-- `COMBO_READ`. -/
def comboRead (r : Regs) (i : Input) (uartRx : List Frame) : Combo :=
  let sRvalid := if i.iSRready then false else r.rSRvalid
  if i.iSArvalid then
    match i.reg with
    | some reg => ⟨true, (readReg i uartRx reg).1, (readReg i uartRx reg).2⟩
    -- a response that waits is cleared with it
    | none => ⟨false, r.sRdata, uartRx⟩
  else ⟨sRvalid, r.sRdata, uartRx⟩

/-- `FF`; the latch keeps what `COMBO_READ` gave it. -/
def ff (i : Input) (c : Combo) : Regs where
  rSRvalid := if i.iRstN then c.sRvalid else false
  rSRdata := if i.iRstN then c.sRdata else 0
  sRdata := c.sRdata

/-! ## Runs of the module -/

/-- The module, and the frames that have arrived. -/
structure State where
  regs : Regs
  uartRx : List Frame

/-- What one cycle meets; the frames arrive before `COMBO_READ` is evaluated. -/
structure Cycle where
  inp : Input
  arrives : List Frame

/-- After a reset, which leaves the latch as it is. -/
def afterReset (sRdata : BitVec 32) (uartRx : List Frame) : State := ⟨⟨false, 0, sRdata⟩, uartRx⟩

/-- What `COMBO_READ` gives in this cycle. -/
def combo (s : State) (c : Cycle) : Combo := comboRead s.regs c.inp (s.uartRx ++ c.arrives)

/-- One clock edge. -/
def step (s : State) (c : Cycle) : State := ⟨ff c.inp (combo s c), (combo s c).uartRx⟩

/-- The address of this cycle: the value of the register it selects, `none` where there is none. -/
def arHandshake (s : State) (c : Cycle) : List (Option (BitVec 32)) :=
  if c.inp.iSArvalid then [c.inp.reg.map fun reg => (readReg c.inp (s.uartRx ++ c.arrives) reg).1]
  else []

/-- The response that is taken in this cycle, if there is one. -/
def rHandshake (s : State) (c : Cycle) : List (Option (BitVec 32)) :=
  if s.regs.rSRvalid = true ∧ c.inp.iSRready = true then [some s.regs.rSRdata] else []

/-- The response that is shown. -/
def owed (s : State) : List (Option (BitVec 32)) :=
  if s.regs.rSRvalid then [some s.regs.rSRdata] else []

/-- The frame that this cycle takes off `uart_rx`, if it takes one. -/
def popped (s : State) (c : Cycle) : List Frame :=
  if c.inp.iSArvalid = true ∧ c.inp.reg = some .rxFifo then (s.uartRx ++ c.arrives).take 1 else []

/-- An address comes only where there is a register, and not over a response that stays. -/
def Answerable (s : State) (c : Cycle) : Prop :=
  c.inp.iSArvalid = true →
    c.inp.reg ≠ none ∧ (s.regs.rSRvalid = true → c.inp.iSRready = true)

/-- What is shown is in the latch. -/
def Wf (s : State) : Prop := s.regs.rSRvalid = true → s.regs.sRdata = s.regs.rSRdata

theorem wf_afterReset (sRdata : BitVec 32) (uartRx : List Frame) :
    Wf (afterReset sRdata uartRx) := fun h => absurd h (by simp [afterReset])

/-! ## One step -/

variable {s : State} {c : Cycle}

/-- Out of reset the registers get what `COMBO_READ` gives. -/
theorem step_regs (hr : c.inp.iRstN = true) :
    (step s c).regs = ⟨(combo s c).sRvalid, (combo s c).sRdata, (combo s c).sRdata⟩ := by
  simp [step, ff, hr]

theorem Wf.of_step (hr : c.inp.iRstN = true) : Wf (step s c) := by
  intro _
  rw [step_regs hr]

/-- A cycle without an address: the response stays until it is taken. -/
theorem combo_of_quiet (hv : c.inp.iSArvalid = false) :
    combo s c = ⟨if c.inp.iSRready then false else s.regs.rSRvalid, s.regs.sRdata,
      s.uartRx ++ c.arrives⟩ := by
  simp [combo, comboRead, hv]

/-- An address at which there is a register. -/
theorem combo_of_reg {reg : Reg} (hv : c.inp.iSArvalid = true) (hreg : c.inp.reg = some reg) :
    combo s c = ⟨true, (readReg c.inp (s.uartRx ++ c.arrives) reg).1,
      (readReg c.inp (s.uartRx ++ c.arrives) reg).2⟩ := by
  simp [combo, comboRead, hv, hreg]

/-- An address at which there is none. -/
theorem combo_of_none (hv : c.inp.iSArvalid = true) (hreg : c.inp.reg = none) :
    combo s c = ⟨false, s.regs.sRdata, s.uartRx ++ c.arrives⟩ := by
  simp [combo, comboRead, hv, hreg]

/-- **The step law**: every address is owed the value of its register, and nothing is lost. -/
theorem owed_step (hr : c.inp.iRstN = true) (hw : Wf s) (ha : Answerable s c) :
    Wf (step s c) ∧ owed s ++ arHandshake s c = rHandshake s c ++ owed (step s c) := by
  refine ⟨Wf.of_step hr, ?_⟩
  unfold owed
  rw [step_regs hr]
  cases hv : c.inp.iSArvalid with
  | false =>
    rw [combo_of_quiet hv]
    have hnone : arHandshake s c = [] := by simp [arHandshake, hv]
    rw [hnone, List.append_nil]
    unfold rHandshake
    -- the response on the bus is taken, or stays as the latch has it
    cases hready : c.inp.iSRready with
    | true => cases s.regs.rSRvalid <;> simp
    | false =>
      cases hvalid : s.regs.rSRvalid with
      | false => simp
      | true => simp [hw hvalid]
  | true =>
    obtain ⟨hreg, hready⟩ := ha hv
    obtain ⟨reg, hreg⟩ := Option.ne_none_iff_exists'.mp hreg
    rw [combo_of_reg hv hreg]
    have hone : arHandshake s c = [some (readReg c.inp (s.uartRx ++ c.arrives) reg).1] := by
      simp [arHandshake, hv, hreg]
    rw [hone]
    unfold rHandshake
    cases hvalid : s.regs.rSRvalid with
    | false => simp
    | true => simp [hready hvalid]

/-- **No response is gained**, and one is lost where the address is not `Answerable`. -/
theorem length_step (hr : c.inp.iRstN = true) :
    (rHandshake s c).length + (owed (step s c)).length
        ≤ (owed s).length + (arHandshake s c).length ∧
      (¬Answerable s c → (rHandshake s c).length + (owed (step s c)).length
        < (owed s).length + (arHandshake s c).length) := by
  unfold owed
  rw [step_regs hr]
  cases hv : c.inp.iSArvalid with
  | false =>
    refine ⟨?_, fun hna => absurd (fun h => absurd (hv.symm.trans h) (by simp)) hna⟩
    rw [combo_of_quiet hv]
    unfold rHandshake arHandshake
    rw [hv]
    cases c.inp.iSRready <;> cases s.regs.rSRvalid <;> simp
  | true =>
    have hone : (arHandshake s c).length = 1 := by simp [arHandshake, hv]
    rw [hone]
    -- the address that gets no response, or gets it over one that was not taken
    cases hreg : c.inp.reg with
    | none =>
      rw [combo_of_none hv hreg]
      unfold rHandshake
      cases c.inp.iSRready <;> cases s.regs.rSRvalid <;> simp
    | some reg =>
      rw [combo_of_reg hv hreg]
      unfold rHandshake Answerable
      cases hready : c.inp.iSRready <;> cases s.regs.rSRvalid <;> simp [hreg]

/-- A response that is not taken stays, unless an address comes. -/
theorem stable_step (hr : c.inp.iRstN = true) (hw : Wf s) (ha : Answerable s c)
    (hv : s.regs.rSRvalid = true) (hready : c.inp.iSRready = false) :
    (step s c).regs.rSRvalid = true ∧ (step s c).regs.rSRdata = s.regs.rSRdata := by
  have hquiet : c.inp.iSArvalid = false := by
    by_contra har
    exact absurd (hready.symm.trans ((ha (by simpa using har)).2 hv)) (by simp)
  rw [step_regs hr, combo_of_quiet hquiet, hready]
  exact ⟨hv, hw hv⟩

/-- **What is taken off `uart_rx`**: a frame by an address of `RX_FIFO`, whose word it answers. -/
theorem popped_step (s : State) (c : Cycle) :
    s.uartRx ++ c.arrives = popped s c ++ (step s c).uartRx ∧
      ∀ f ∈ popped s c, arHandshake s c = [some (frameWord c.inp.rx.behind f)] := by
  show _ = popped s c ++ (combo s c).uartRx ∧ _
  cases hv : c.inp.iSArvalid with
  | false =>
    rw [combo_of_quiet hv]
    simp [popped, hv]
  | true =>
    cases hreg : c.inp.reg with
    | none =>
      rw [combo_of_none hv hreg]
      simp [popped, hreg]
    | some reg =>
      rw [combo_of_reg hv hreg]
      unfold popped arHandshake
      rw [hv, hreg]
      cases reg with
      | rxFifo =>
        -- the head of the queue, if there is one
        cases hq : s.uartRx ++ c.arrives with
        | nil => simp [readReg, cUartRx]
        | cons f rest => simp [readReg, cUartRx]
      | txFifo => simp [readReg]
      | statReg => simp [readReg]
      | ctrlReg => simp [readReg]

end QemuHdlSim.AxiLiteSR
