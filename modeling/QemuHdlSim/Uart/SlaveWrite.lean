import QemuHdlSim.Infra.Path
import QemuHdlSim.Uart.Dpi

/-!
# The write slave of the UART (`axilite_s_w.sv`)

One step is one rising clock edge; the combinational block is evaluated once a cycle. It also makes
the next value of the status register out of the present one: bit 2 is set, bit 0 is set when
`C_uart_poll` says so, and a write of `CTRL_REG` gives bit 4.

`i_s_wstrb` is an input the module never reads, and is left out.

* `oStat_getLsbD` — the next status register, bit by bit
* `wf_step`, `step_idle`, … — one step, by the kinds of cycle
-/

namespace QemuHdlSim.AxiLiteSW

open Infra Uart

/-- `r_state`. -/
inductive WriteState where
  | idle
  | data
  | response
  deriving DecidableEq, Repr

/-- The registers. -/
structure Regs where
  rSBvalid : Bool
  rSWready : Bool
  rSAwready : Bool
  rSAwaddr : BitVec 4
  rState : WriteState

/-- The inputs of one cycle. -/
structure Input where
  iRstN : Bool
  iSAwaddr : BitVec 32
  iSAwvalid : Bool
  iSWdata : BitVec 32
  iSWvalid : Bool
  iSBready : Bool
  iStat : BitVec 32
  iRxFifo : BitVec 32

/-- The reset branch of the flip-flops. -/
def reset : Regs where
  rSBvalid := false
  rSWready := false
  rSAwready := false
  rSAwaddr := 0
  rState := .idle

/-- What `COMBO_WRITE` gives: the values for the registers, the outputs, and `print` and `data`. -/
structure Combo where
  regs : Regs
  oStat : BitVec 32
  oRxFifo : BitVec 32
  print : Bool
  data : Byte

/-- The values before the state is looked at. -/
def Combo.default (r : Regs) (i : Input) (dataAvailable : Bool) : Combo where
  regs := { r with rSAwready := true }
  -- bit 0 is set here and cleared nowhere
  oStat := if dataAvailable then (i.iStat ||| 4) ||| 1 else i.iStat ||| 4
  oRxFifo := i.iRxFifo
  print := false
  data := i.iSWdata.setWidth 8

/-- What the write of a register does, besides ending the handshake. -/
def writeReg (r : Regs) (i : Input) (c : Combo) : Combo :=
  if r.rSAwaddr = Reg.offset .ctrlReg then
    { c with
      data := if i.iSWdata &&& 1 ≠ 0 then 0 else c.data
      oRxFifo := if i.iSWdata &&& 2 ≠ 0 then 0 else c.oRxFifo
      oStat := if i.iSWdata &&& 16 ≠ 0 then c.oStat ||| 16 else c.oStat &&& ~~~16 }
  else if r.rSAwaddr = Reg.offset .txFifo then { c with print := true }
  else c

/-- `COMBO_WRITE`. -/
def comboWrite (r : Regs) (i : Input) (dataAvailable : Bool) : Combo :=
  let c := Combo.default r i dataAvailable
  match r.rState with
  | .idle =>
    if i.iSAwvalid && r.rSAwready then
      { c with regs := { r with
          rSAwready := false
          rSAwaddr := i.iSAwaddr.setWidth 4
          rSWready := true
          rState := .data } }
    else c
  | .data =>
    if i.iSWvalid && r.rSWready then
      { writeReg r i c with regs := { r with
          rSAwready := false
          rSWready := false
          rSBvalid := true
          rState := .response } }
    else { c with regs := { r with rSAwready := false } }
  | .response =>
    if i.iSBready && r.rSBvalid then
      { c with regs := { r with rSBvalid := false, rSAwready := true, rState := .idle } }
    else { c with regs := { r with rSAwready := false } }

/-- `FF`. -/
def ff (i : Input) (c : Combo) : Regs := if i.iRstN then c.regs else reset

/-- `C_req`: the byte of the `C_uart_tx` call of this edge, if one is made. -/
def cReq (c : Combo) : List Byte := if c.print then [cUartTx (c.data.signExtend 32)] else []

/-- The write of `CTRL_REG` that is completed in this cycle, if there is one. -/
def ctrlWrite (r : Regs) (i : Input) : List (BitVec 32) :=
  if r.rState = .data ∧ (i.iSWvalid && r.rSWready) = true ∧ r.rSAwaddr = Reg.offset .ctrlReg then
    [i.iSWdata]
  else []

theorem ctrlWrite_cases (r : Regs) (i : Input) :
    ctrlWrite r i = [] ∨ ctrlWrite r i = [i.iSWdata] := by
  unfold ctrlWrite
  split
  · exact Or.inr rfl
  · exact Or.inl rfl

/-! ## The next status register -/

theorem writeReg_oStat (r : Regs) (i : Input) (c : Combo) :
    (writeReg r i c).oStat =
      if r.rSAwaddr = Reg.offset .ctrlReg then
        if i.iSWdata &&& 16 ≠ 0 then c.oStat ||| 16 else c.oStat &&& ~~~16
      else c.oStat := by
  unfold writeReg
  split
  · rfl
  · split <;> rfl

/-- Only a write of `CTRL_REG` changes it further. -/
theorem oStat_eq (r : Regs) (i : Input) (dataAvailable : Bool) :
    (comboWrite r i dataAvailable).oStat =
      match ctrlWrite r i with
      | [] => (Combo.default r i dataAvailable).oStat
      | w :: _ =>
        if w &&& 16 ≠ 0 then (Combo.default r i dataAvailable).oStat ||| 16
        else (Combo.default r i dataAvailable).oStat &&& ~~~16 := by
  unfold comboWrite ctrlWrite
  cases hs : r.rState with
  | idle =>
    simp only [reduceCtorEq, false_and, if_false]
    cases i.iSAwvalid && r.rSAwready <;> rfl
  | response =>
    simp only [reduceCtorEq, false_and, if_false]
    cases i.iSBready && r.rSBvalid <;> rfl
  | data =>
    cases hw : i.iSWvalid && r.rSWready with
    | false => simp
    | true =>
      simp only [true_and, if_true]
      rw [writeReg_oStat]
      by_cases ha : r.rSAwaddr = Reg.offset .ctrlReg
      · rw [if_pos ha, if_pos ha]
      · rw [if_neg ha, if_neg ha]

/-- Whether bit 4 of a word is set. -/
theorem and_sixteen_ne_zero (w : BitVec 32) : w &&& 16 ≠ 0 ↔ w.getLsbD 4 = true := by
  rw [show (16 : BitVec 32) = BitVec.twoPow 32 4 from rfl, BitVec.and_twoPow]
  cases w.getLsbD 4 <;> decide

/-- The bits before the state is looked at. -/
theorem default_oStat_getLsbD (r : Regs) (i : Input) (dataAvailable : Bool) {k : Nat}
    (hk : k < 32) : (Combo.default r i dataAvailable).oStat.getLsbD k
      = (i.iStat.getLsbD k || decide (k = 2) || (dataAvailable && decide (k = 0))) := by
  have hfour : (4 : BitVec 32) = BitVec.twoPow 32 2 := rfl
  have hone : (1 : BitVec 32) = BitVec.twoPow 32 0 := rfl
  unfold Combo.default
  cases dataAvailable with
  | false => simp [hfour, hk]
  | true => simp [hfour, hone, hk, Bool.or_assoc]

/-- **The next status register, bit by bit.** -/
theorem oStat_getLsbD (r : Regs) (i : Input) (dataAvailable : Bool) {k : Nat} (hk : k < 32) :
    (comboWrite r i dataAvailable).oStat.getLsbD k =
      if k = 4 then (match ctrlWrite r i with
        | [] => i.iStat.getLsbD 4
        | w :: _ => w.getLsbD 4)
      else i.iStat.getLsbD k || decide (k = 2) || (dataAvailable && decide (k = 0)) := by
  have hsixteen : (16 : BitVec 32) = BitVec.twoPow 32 4 := rfl
  have hdefault := default_oStat_getLsbD r i dataAvailable hk
  rw [oStat_eq]
  -- a write of the register decides bit 4, and that bit only
  cases ctrlWrite r i with
  | nil =>
    simp only
    rw [hdefault]
    by_cases h4 : k = 4
    · subst h4
      simp
    · simp [h4]
  | cons w rest =>
    simp only
    by_cases hw : w &&& 16 ≠ 0
    · have hbit := (and_sixteen_ne_zero w).mp hw
      rw [if_pos hw, BitVec.getLsbD_or, hdefault, hsixteen, BitVec.getLsbD_twoPow,
        hbit]
      by_cases h4 : k = 4
      · simp [h4]
      · simp [h4, Ne.symm h4, hk]
    · have hbit : w.getLsbD 4 = false := by
        simpa using fun h => hw ((and_sixteen_ne_zero w).mpr h)
      rw [if_neg hw, BitVec.getLsbD_and, hdefault, BitVec.getLsbD_not, hsixteen,
        BitVec.getLsbD_twoPow, hbit]
      by_cases h4 : k = 4
      · simp [h4]
      · simp [h4, Ne.symm h4, hk]

/-! ## The three channels -/

/-- One clock edge. -/
def step (r : Regs) (i : Input) (dataAvailable : Bool) : Regs :=
  ff i (comboWrite r i dataAvailable)

/-- The `C_uart_tx` call of this edge, if one is made. -/
def txCalls (r : Regs) (i : Input) (dataAvailable : Bool) : List Byte :=
  cReq (comboWrite r i dataAvailable)

/-- A handshake of one of the channels. -/
inductive Handshake where
  | aw (awaddr : BitVec 32)
  | w (wdata : BitVec 32)
  | b
  deriving DecidableEq, Repr

/-- The handshakes of this cycle. -/
def handshakes (r : Regs) (i : Input) : List Handshake :=
  (if i.iSAwvalid && r.rSAwready then [.aw i.iSAwaddr] else []) ++
    (if i.iSWvalid && r.rSWready then [.w i.iSWdata] else []) ++
    (if i.iSBready && r.rSBvalid then [.b] else [])

/-- `awready`, `wready` and `bvalid` are high in one state each. -/
structure Wf (r : Regs) : Prop where
  aw : r.rSAwready = true → r.rState = .idle
  w : r.rSWready = true ↔ r.rState = .data
  b : r.rSBvalid = true ↔ r.rState = .response

theorem wf_reset : Wf reset where
  aw := by simp [reset]
  w := by simp [reset]
  b := by simp [reset]

theorem Wf.awready_of_ne {r : Regs} (hw : Wf r) (h : r.rState ≠ .idle) : r.rSAwready = false := by
  rw [← Bool.not_eq_true]
  exact fun haw => h (hw.aw haw)

theorem Wf.wready_of_ne {r : Regs} (hw : Wf r) (h : r.rState ≠ .data) : r.rSWready = false := by
  rw [← Bool.not_eq_true, hw.w]
  exact h

theorem Wf.bvalid_of_ne {r : Regs} (hw : Wf r) (h : r.rState ≠ .response) :
    r.rSBvalid = false := by
  rw [← Bool.not_eq_true, hw.b]
  exact h

/-- In a state whose channel is not used nothing is handed over. -/
theorem handshakes_eq_nil {r : Regs} {i : Input} (haw : (i.iSAwvalid && r.rSAwready) = false)
    (hw : (i.iSWvalid && r.rSWready) = false) (hb : (i.iSBready && r.rSBvalid) = false) :
    handshakes r i = [] := by
  unfold handshakes
  rw [haw, hw, hb]
  rfl

/-- What `axilite_s_w` does in one cycle: the handshakes, the calls, and the registers after it. -/
structure StepIs (r : Regs) (i : Input) (dataAvailable : Bool) (hs : List Handshake)
    (calls : List Byte) (state : WriteState) (awaddr : BitVec 4) : Prop where
  handshakes : handshakes r i = hs
  calls : txCalls r i dataAvailable = calls
  state : (step r i dataAvailable).rState = state
  awaddr : (step r i dataAvailable).rSAwaddr = awaddr
  wf : Wf (step r i dataAvailable)

/-- The byte a write sends: the low one of its word, when it is a write of `TX_FIFO`. -/
def txByte (awaddr : BitVec 4) (wdata : BitVec 32) : List Byte :=
  if awaddr = Reg.offset .txFifo then [wdata.setWidth 8] else []

section Steps

variable {r : Regs} {i : Input} (dataAvailable : Bool)

/-- In `WRITE_IDLE` an address is taken, if there is one. -/
theorem step_idle (hr : i.iRstN = true) (hw : Wf r) (hs : r.rState = .idle) :
    if i.iSAwvalid && r.rSAwready then
      StepIs r i dataAvailable [.aw i.iSAwaddr] [] .data (i.iSAwaddr.setWidth 4)
    else StepIs r i dataAvailable [] [] .idle r.rSAwaddr := by
  have hwready : r.rSWready = false := hw.wready_of_ne (by simp [hs])
  have hbvalid : r.rSBvalid = false := hw.bvalid_of_ne (by simp [hs])
  cases haw : i.iSAwvalid && r.rSAwready with
  | true =>
    have hnext : comboWrite r i dataAvailable = { Combo.default r i dataAvailable with
        regs := { r with
          rSAwready := false
          rSAwaddr := i.iSAwaddr.setWidth 4
          rSWready := true
          rState := .data } } := by
      simp [comboWrite, hs, haw]
    rw [if_pos rfl]
    refine ⟨by simp [AxiLiteSW.handshakes, haw, hwready, hbvalid], ?_, ?_, ?_, ?_⟩
    all_goals simp only [txCalls, step, ff, hnext, hr, if_true]
    · rfl
    · exact ⟨by simp, by simp, by simp [hbvalid]⟩
  | false =>
    have hnext : comboWrite r i dataAvailable = Combo.default r i dataAvailable := by
      simp [comboWrite, hs, haw]
    rw [if_neg (by simp)]
    refine ⟨handshakes_eq_nil haw (by simp [hwready]) (by simp [hbvalid]), ?_, ?_, ?_, ?_⟩
    all_goals simp only [txCalls, step, ff, hnext, hr, if_true]
    · rfl
    · exact hs
    · rfl
    · exact ⟨fun _ => hs, hw.w, hw.b⟩

/-- The call sends the byte that was written. -/
theorem cUartTx_signExtend (data : Byte) : cUartTx (data.signExtend 32) = data := by
  unfold cUartTx
  refine BitVec.eq_of_getLsbD_eq fun k hk => ?_
  rw [BitVec.getLsbD_setWidth, BitVec.getLsbD_signExtend]
  simp [hk, Nat.lt_of_lt_of_le hk (show 8 ≤ 32 by decide)]

/-- What the write of a register sends. -/
theorem cReq_writeReg (r : Regs) (i : Input) (dataAvailable : Bool) (regs : Regs) :
    cReq { writeReg r i (Combo.default r i dataAvailable) with regs := regs }
      = txByte r.rSAwaddr i.iSWdata := by
  unfold writeReg txByte
  by_cases hctrl : r.rSAwaddr = Reg.offset .ctrlReg
  · have htx : r.rSAwaddr ≠ Reg.offset .txFifo := by
      rw [hctrl]
      decide
    rw [if_pos hctrl, if_neg htx]
    rfl
  · rw [if_neg hctrl]
    by_cases htx : r.rSAwaddr = Reg.offset .txFifo
    · rw [if_pos htx, if_pos htx]
      exact congrArg (fun b => [b]) (cUartTx_signExtend _)
    · rw [if_neg htx, if_neg htx]
      rfl

/-- A cycle that only lowers `awready`, with nothing handed over, stays in its state. -/
theorem step_stay (hr : i.iRstN = true) (hw : Wf r) (hidle : handshakes r i = [])
    (hnext : comboWrite r i dataAvailable =
      { Combo.default r i dataAvailable with regs := { r with rSAwready := false } }) :
    StepIs r i dataAvailable [] [] r.rState r.rSAwaddr := by
  refine ⟨hidle, ?_, ?_, ?_, ?_⟩
  all_goals simp only [txCalls, step, ff, hnext, hr, if_true]
  · rfl
  · exact ⟨by simp, hw.w, hw.b⟩

/-- In `WRITE_DATA` a word is taken, if there is one, and sent when it is for `TX_FIFO`. -/
theorem step_data (hr : i.iRstN = true) (hw : Wf r) (hs : r.rState = .data) :
    if i.iSWvalid then
      StepIs r i dataAvailable [.w i.iSWdata] (txByte r.rSAwaddr i.iSWdata) .response r.rSAwaddr
    else StepIs r i dataAvailable [] [] .data r.rSAwaddr := by
  have hwready : r.rSWready = true := hw.w.mpr hs
  have hawready : r.rSAwready = false := hw.awready_of_ne (by simp [hs])
  have hbvalid : r.rSBvalid = false := hw.bvalid_of_ne (by simp [hs])
  cases hv : i.iSWvalid with
  | true =>
    have hnext : comboWrite r i dataAvailable =
        { writeReg r i (Combo.default r i dataAvailable) with regs := { r with
          rSAwready := false
          rSWready := false
          rSBvalid := true
          rState := .response } } := by
      simp [comboWrite, hs, hv, hwready]
    rw [if_pos rfl]
    refine ⟨by simp [AxiLiteSW.handshakes, hv, hwready, hawready, hbvalid], ?_, ?_, ?_, ?_⟩
    · rw [txCalls, hnext, cReq_writeReg]
    all_goals simp only [step, ff, hnext, hr, if_true]
    exact ⟨by simp, by simp, by simp⟩
  | false =>
    have hnext : comboWrite r i dataAvailable =
        { Combo.default r i dataAvailable with regs := { r with rSAwready := false } } := by
      simp [comboWrite, hs, hv]
    have hidle : handshakes r i = [] :=
      handshakes_eq_nil (by simp [hawready]) (by simp [hv]) (by simp [hbvalid])
    rw [if_neg (by simp), ← hs]
    exact step_stay dataAvailable hr hw hidle hnext

/-- In `WRITE_RESPONSE` the response stays until it is taken. -/
theorem step_response (hr : i.iRstN = true) (hw : Wf r) (hs : r.rState = .response) :
    if i.iSBready then StepIs r i dataAvailable [.b] [] .idle r.rSAwaddr
    else StepIs r i dataAvailable [] [] .response r.rSAwaddr := by
  have hbvalid : r.rSBvalid = true := hw.b.mpr hs
  have hawready : r.rSAwready = false := hw.awready_of_ne (by simp [hs])
  have hwready : r.rSWready = false := hw.wready_of_ne (by simp [hs])
  cases hv : i.iSBready with
  | true =>
    have hnext : comboWrite r i dataAvailable = { Combo.default r i dataAvailable with
        regs := { r with rSBvalid := false, rSAwready := true, rState := .idle } } := by
      simp [comboWrite, hs, hv, hbvalid]
    rw [if_pos rfl]
    refine ⟨by simp [AxiLiteSW.handshakes, hv, hwready, hawready, hbvalid], ?_, ?_, ?_, ?_⟩
    all_goals simp only [txCalls, step, ff, hnext, hr, if_true]
    · rfl
    · exact ⟨by simp, by simp [hwready], by simp⟩
  | false =>
    have hnext : comboWrite r i dataAvailable =
        { Combo.default r i dataAvailable with regs := { r with rSAwready := false } } := by
      simp [comboWrite, hs, hv]
    have hidle : handshakes r i = [] :=
      handshakes_eq_nil (by simp [hawready]) (by simp [hwready]) (by simp [hv])
    rw [if_neg (by simp), ← hs]
    exact step_stay dataAvailable hr hw hidle hnext

/-- After an edge `awready` is high in `WRITE_IDLE` and nowhere else. -/
theorem step_awready (hr : i.iRstN = true) :
    (step r i dataAvailable).rSAwready = true ↔ (step r i dataAvailable).rState = .idle := by
  unfold step ff comboWrite
  rw [if_pos hr]
  cases hs : r.rState with
  | idle => cases i.iSAwvalid && r.rSAwready <;> simp [Combo.default, hs]
  | data => cases i.iSWvalid && r.rSWready <;> simp
  | response => cases i.iSBready && r.rSBvalid <;> simp

end Steps

end QemuHdlSim.AxiLiteSW
