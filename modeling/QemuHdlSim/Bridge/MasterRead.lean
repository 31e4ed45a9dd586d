import QemuHdlSim.Bridge.Acc

/-!
# The AXI read master (`axi4_m_r.sv`)

One step is one rising clock edge; every register samples values from before the edge. The
`C_req` process looks at the `n_*` values, so the last bus word is in the data it hands over.

* `step_idle_iff`, `step_accepts` — when a request is taken, and when it is through
* `step_wait`, `step_beat`, `step_last` — the three kinds of cycle in `READ_DATA`
* `Wf.of_step` — what holds of the registers, as long as the slave's beats come `InTime`
-/

namespace QemuHdlSim.Axi4MR

open Infra

variable {p : BusParams}

/-- `r_read_state`. -/
inductive ReadState where
  | idle
  | data
  deriving DecidableEq, Repr

/-- The registers. -/
structure State where
  rReadState : ReadState
  rAddr : BitVec 64
  rSize : BitVec 3
  rLen : BitVec 8
  rLenCnt : BitVec 8
  rMArvalid : Bool
  rMRready : Bool
  rDataTmp : Buf buffSize

/-- The inputs of one cycle. -/
structure Input (p : BusParams) where
  iRstN : Bool
  reqAddr : BitVec 64
  reqLen : BitVec 8
  reqSize : BitVec 3
  reqValid : Bool
  iMArready : Bool
  iMRdata : BusWord p
  iMRlast : Bool
  iMRvalid : Bool

/-- The arguments of a `C_resp_read` call. -/
structure RespReadCall where
  addr : BitVec 64
  dataTmp : Buf buffSize

/-- The reset branch of the flip-flops. -/
def reset : State where
  rReadState := .idle
  rAddr := 0
  rSize := 0
  rLen := 0
  rLenCnt := 0
  rMArvalid := false
  rMRready := false
  rDataTmp := fun _ => 0

/-- `COMBO_READ`: the `n_*` values. -/
def comboRead (s : State) (i : Input p) : State :=
  match s.rReadState with
  | .idle =>
    if i.reqValid then
      { s with
        rReadState := .data
        rMArvalid := true
        rMRready := true
        rLenCnt := 0
        rAddr := i.reqAddr
        rSize := i.reqSize
        rLen := i.reqLen }
    else s
  | .data =>
    let s' : State := { s with rMArvalid := if i.iMArready then false else s.rMArvalid }
    if i.iMRvalid then
      let s'' : State := { s' with
        rDataTmp := s.rDataTmp.copyIn (s.rLenCnt.toNat * p.stbw) i.iMRdata.lane p.stbw }
      if i.iMRlast = false then { s'' with rLenCnt := s.rLenCnt + 1 }
      else { s'' with rMRready := false, rReadState := .idle }
    else s'

/-- `FF`. -/
def step (s : State) (i : Input p) : State := if i.iRstN then comboRead s i else reset

/-- The `C_req` process: the `C_resp_read` call made on this edge, if one is. -/
def cReq (s : State) (i : Input p) : List RespReadCall :=
  if s.rReadState = .data ∧ i.iMRlast = true ∧ i.iMRvalid = true then
    [{ addr := (comboRead s i).rAddr, dataTmp := (comboRead s i).rDataTmp }]
  else []

/-- The module takes a request in this cycle. -/
def Accepts (s : State) (i : Input p) : Prop :=
  i.iRstN = true ∧ s.rReadState = .idle ∧ i.reqValid = true

/-- The last beat of the read is taken in this cycle. -/
def Finishes (s : State) (i : Input p) : Prop :=
  s.rReadState = .data ∧ i.iMRlast = true ∧ i.iMRvalid = true

instance (s : State) (i : Input p) : Decidable (Finishes s i) :=
  inferInstanceAs (Decidable (_ ∧ _ ∧ _))

/-- The call made with the last beat has that beat in it. -/
theorem cReq_of_finishes {s : State} {i : Input p} (h : Finishes s i) :
    cReq s i = [{
      addr := s.rAddr
      dataTmp := s.rDataTmp.copyIn (s.rLenCnt.toNat * p.stbw) i.iMRdata.lane p.stbw }] := by
  obtain ⟨hs, hl, hv⟩ := h
  simp [cReq, comboRead, hs, hl, hv]

theorem cReq_of_not_finishes {s : State} {i : Input p} (h : ¬Finishes s i) : cReq s i = [] :=
  if_neg h

/-- When the state is idle after a step out of reset. -/
theorem step_idle_iff {s : State} {i : Input p} (hr : i.iRstN = true) :
    (step s i).rReadState = .idle ↔
      (s.rReadState = .idle ∧ i.reqValid = false) ∨ Finishes s i := by
  simp only [step, hr, if_true, comboRead, Finishes]
  cases hst : s.rReadState with
  | idle => cases i.reqValid <;> simp [hst]
  | data => cases i.iMRvalid <;> cases i.iMRlast <;> simp

/-- A request the module takes is the one its registers hold. -/
theorem step_accepts {s : State} {i : Input p} (h : Accepts s i) :
    (step s i).rReadState = .data ∧ (step s i).rAddr = i.reqAddr ∧ (step s i).rLen = i.reqLen ∧
      (step s i).rSize = i.reqSize := by
  obtain ⟨hr, hs, hq⟩ := h
  simp [step, hr, comboRead, hs, hq]

/-! ## The channels -/

/-- The payload of the AR channel. -/
structure ArReq where
  araddr : BitVec 64
  arlen : BitVec 8
  arsize : BitVec 3
  deriving DecidableEq

/-- What the AR channel shows in state `s`. -/
def State.arShown (s : State) : ArReq := ⟨s.rAddr, s.rLen, s.rSize⟩

/-- The AR handshake of this cycle, if there is one. -/
def arHandshake (s : State) (i : Input p) : List ArReq :=
  if s.rMArvalid = true ∧ i.iMArready = true then [s.arShown] else []

/-- The R handshake of this cycle, if there is one. -/
def rHandshake (s : State) (i : Input p) : List (BusWord p) :=
  if i.iMRvalid = true ∧ s.rMRready = true then [i.iMRdata] else []

/-- What holds of the registers in a run whose beats are `InTime`. -/
structure Wf (s : State) : Prop where
  idle : s.rReadState = .idle → s.rMArvalid = false
  data : s.rReadState = .data → s.rMRready = true ∧ s.rLenCnt.toNat ≤ s.rLen.toNat

/-- A beat comes after the address was taken, and the last one has `rlast`. -/
def InTime (s : State) (i : Input p) : Prop :=
  i.iMRvalid = true →
    s.rReadState = .data ∧ s.rMArvalid = false ∧ (i.iMRlast = true ↔ s.rLenCnt = s.rLen)

theorem wf_reset : Wf reset where
  idle := fun _ => rfl
  data := by simp [reset]

/-- A cycle without a beat. -/
theorem step_wait {s : State} {i : Input p} (hr : i.iRstN = true) (hs : s.rReadState = .data)
    (hv : i.iMRvalid = false) :
    step s i = { s with rMArvalid := if i.iMArready then false else s.rMArvalid } ∧
      cReq s i = [] ∧ rHandshake s i = [] := by
  refine ⟨by simp [step, hr, comboRead, hs, hv], by simp [cReq, hv], by simp [rHandshake, hv]⟩

/-- A beat that is not the last one. -/
theorem step_beat {s : State} {i : Input p} (hr : i.iRstN = true) (hw : Wf s)
    (hs : s.rReadState = .data) (ha : s.rMArvalid = false) (hv : i.iMRvalid = true)
    (hl : i.iMRlast = false) :
    step s i = { s with
      rDataTmp := s.rDataTmp.copyIn (s.rLenCnt.toNat * p.stbw) i.iMRdata.lane p.stbw
      rLenCnt := s.rLenCnt + 1 } ∧ cReq s i = [] ∧ rHandshake s i = [i.iMRdata] := by
  obtain ⟨hready, _⟩ := hw.data hs
  refine ⟨by simp [step, hr, comboRead, hs, hv, hl, ha], by simp [cReq, hl],
    if_pos ⟨hv, hready⟩⟩

/-- **The last beat**: it is in the call. -/
theorem step_last {s : State} {i : Input p} (hr : i.iRstN = true) (hw : Wf s)
    (hs : s.rReadState = .data) (ha : s.rMArvalid = false) (hv : i.iMRvalid = true)
    (hl : i.iMRlast = true) :
    step s i = { s with
      rDataTmp := s.rDataTmp.copyIn (s.rLenCnt.toNat * p.stbw) i.iMRdata.lane p.stbw
      rMRready := false
      rReadState := .idle } ∧
    cReq s i = [{
      addr := s.rAddr
      dataTmp := s.rDataTmp.copyIn (s.rLenCnt.toNat * p.stbw) i.iMRdata.lane p.stbw }] ∧
    rHandshake s i = [i.iMRdata] := by
  obtain ⟨hready, _⟩ := hw.data hs
  exact ⟨by simp [step, hr, comboRead, hs, hv, hl, ha], cReq_of_finishes ⟨hs, hl, hv⟩,
    if_pos ⟨hv, hready⟩⟩

theorem Wf.of_step {s : State} {i : Input p} (hr : i.iRstN = true) (hw : Wf s)
    (hin : InTime s i) : Wf (step s i) := by
  cases hst : s.rReadState with
  | idle =>
    have harv := hw.idle hst
    simp only [step, hr, if_true, comboRead, hst]
    cases hq : i.reqValid with
    | false => exact ⟨fun _ => harv, by simp [hst]⟩
    | true => exact ⟨by simp, fun _ => ⟨rfl, Nat.zero_le _⟩⟩
  | data =>
    obtain ⟨hready, hle⟩ := hw.data hst
    cases hv : i.iMRvalid with
    | false =>
      rw [(step_wait hr hst hv).1]
      exact ⟨by simp [hst], fun _ => ⟨hready, hle⟩⟩
    | true =>
      -- the slave says `rlast` on the beat the counter takes for the last one
      obtain ⟨_, harv, hlast⟩ := hin hv
      cases hl : i.iMRlast with
      | false =>
        have hne : s.rLenCnt ≠ s.rLen := fun h => absurd (hlast.mpr h) (by simp [hl])
        obtain ⟨hcnt, hle'⟩ := toNat_succ_of_ne hle hne
        rw [(step_beat hr hw hst harv hv hl).1]
        exact ⟨by simp [hst], fun _ => ⟨hready, by simp only [hcnt]; exact hle'⟩⟩
      | true =>
        rw [(step_last hr hw hst harv hv hl).1]
        exact ⟨fun _ => harv, by simp⟩

end QemuHdlSim.Axi4MR
