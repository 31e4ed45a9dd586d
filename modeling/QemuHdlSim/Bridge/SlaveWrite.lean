import QemuHdlSim.Bridge.Acc
import QemuHdlSim.Infra.Axi
import QemuHdlSim.Infra.Path

/-!
# The AXI write slave (`axi4_s_w.sv`)

One step is one rising clock edge; every register samples values from before the edge.
`comboWrite` is the combinational block, that is the `n_*` values and `send_to_qemu`, and `step`
the flip-flops behind it. The DPI process looks at `send_to_qemu` on the same edge, so the call
gets the `n_*` values: the last beat is in them, although it is not yet registered.

The inputs the module has but never reads (`i_s_awburst`, `i_s_wlast`, ...) are left out.

* `b_law` — the step law of the response channel
* `step_aw`, `step_beat`, `step_last`, `step_response` — the kinds of cycle
* `call_of_feeds` — a burst that is fed beat by beat ends in one call with all of them
-/

namespace QemuHdlSim.Axi4SW

open Infra

variable {p : BusParams}

/-- `r_write_state`. -/
inductive WriteState where
  | idle
  | response
  | data
  deriving DecidableEq, Repr

/-- The registers. -/
structure State (p : BusParams) where
  rWriteState : WriteState
  rId : BitVec p.tagw
  rAddr : BitVec 64
  rSize : BitVec 3
  rLen : BitVec 8
  rLenCnt : BitVec 8
  rSAwready : Bool
  rSWready : Bool
  rSBid : BitVec p.tagw
  rSBresp : BitVec 2
  rSBvalid : Bool
  rDataTmp : Buf buffSize
  rStrbTmp : Fin p.nstb → BitVec 64

/-- The inputs of one cycle. -/
structure Input (p : BusParams) where
  iRstN : Bool
  iSAwid : BitVec p.tagw
  iSAwaddr : BitVec 64
  iSAwlen : BitVec 8
  iSAwsize : BitVec 3
  iSAwvalid : Bool
  iSWdata : BusWord p
  iSWstrb : BitVec p.stbw
  iSWvalid : Bool
  iSBready : Bool

/-- The arguments of a `C_req_write` call. -/
structure ReqWriteCall (p : BusParams) where
  addr : BitVec 64
  width : BitVec 3
  len : BitVec 8
  data : Buf buffSize
  strb : Fin p.nstb → BitVec 64

/-- The reset branch of the flip-flops. -/
def reset : State p where
  rWriteState := .idle
  rId := 0
  rAddr := 0
  rSize := 0
  rLen := 0
  rLenCnt := 0
  rSAwready := true
  rSWready := false
  rSBid := 0
  rSBresp := 0
  rSBvalid := false
  rDataTmp := fun _ => 0
  rStrbTmp := fun _ => 0

/-- `n_strb_tmp[r_len_cnt] = i_s_wstrb`. -/
def setStrb (strb : Fin p.nstb → BitVec 64) (k : Nat) (x : BitVec p.stbw) :
    Fin p.nstb → BitVec 64 :=
  fun i => if i.val = k then x.setWidth 64 else strb i

/-- `COMBO_WRITE`: the `n_*` values and `send_to_qemu`. -/
def comboWrite (s : State p) (i : Input p) : State p × Bool :=
  match s.rWriteState with
  | .idle =>
    if i.iSAwvalid then
      ({ s with
          rWriteState := .data
          rSAwready := false
          rSWready := true
          rId := i.iSAwid
          rAddr := i.iSAwaddr
          rSize := i.iSAwsize
          rLen := i.iSAwlen
          rLenCnt := 0 }, false)
    else (s, false)
  | .data =>
    if i.iSWvalid then
      -- a whole bus word for each beat, however narrow it is
      let s' : State p := { s with
        rDataTmp := s.rDataTmp.copyIn (s.rLenCnt.toNat * p.stbw) i.iSWdata.lane p.stbw
        rStrbTmp := setStrb s.rStrbTmp s.rLenCnt.toNat i.iSWstrb }
      if s.rLenCnt ≠ s.rLen then ({ s' with rLenCnt := s.rLenCnt + 1 }, false)
      else
        ({ s' with
            rSBid := s.rId
            rSBresp := 0
            rSBvalid := true
            rSWready := false
            rWriteState := .response }, true)
    else (s, false)
  | .response =>
    if i.iSBready then
      ({ s with rWriteState := .idle, rSAwready := true, rSBvalid := false }, false)
    else (s, false)

/-- `FF`. -/
def step (s : State p) (i : Input p) : State p := if i.iRstN then (comboWrite s i).1 else reset

/-- The `C_req` process: the `C_req_write` call made on this edge, if one is. -/
def cReq (s : State p) (i : Input p) : List (ReqWriteCall p) :=
  if (comboWrite s i).2 then
    let n := (comboWrite s i).1
    [{ addr := n.rAddr, width := n.rSize, len := n.rLen, data := n.rDataTmp, strb := n.rStrbTmp }]
  else []

theorem cReq_of_idle {s : State p} {i : Input p} (hs : s.rWriteState = .idle) :
    cReq s i = [] := by
  by_cases ha : i.iSAwvalid = true <;> simp [cReq, comboWrite, hs, ha]

/-! ## The response channel -/

/-- The B handshake of this cycle, if there is one. -/
def bHandshake (s : State p) (i : Input p) : List Unit :=
  if s.rSBvalid = true ∧ i.iSBready = true then [()] else []

/-- The response a state shows. -/
def owedB (s : State p) : List Unit := if s.rSBvalid then [()] else []

/-- What holds of the registers in every state after reset. -/
def Wf (s : State p) : Prop := s.rSBvalid = true ↔ s.rWriteState = .response

theorem wf_reset : Wf (p := p) reset := by simp [Wf, reset]

/-- **The step law**: a call makes a response owed, and the B handshake hands it over. -/
theorem b_law {s : State p} {i : Input p} (hr : i.iRstN = true) (hw : Wf s) :
    Wf (step s i) ∧
      owedB s ++ (cReq s i).map (fun _ => ()) = bHandshake s i ++ owedB (step s i) := by
  unfold Wf at hw
  simp only [Wf, owedB, bHandshake, cReq, step, hr, if_true]
  cases hst : s.rWriteState with
  | idle =>
    have hv : s.rSBvalid = false := by simpa [hst] using hw
    by_cases ha : i.iSAwvalid = true <;> simp [comboWrite, hst, hv, ha]
  | data =>
    have hv : s.rSBvalid = false := by simpa [hst] using hw
    by_cases hwv : i.iSWvalid = true
    · by_cases hl : s.rLenCnt = s.rLen <;> simp [comboWrite, hst, hv, hwv, hl]
    · simp [comboWrite, hst, hv, hwv]
  | response =>
    have hv : s.rSBvalid = true := hw.mpr hst
    by_cases hb : i.iSBready = true <;> simp [comboWrite, hst, hv, hb]

/-! ## The channels -/

/-- The outputs `o_s_awready`, `o_s_wready` and `o_s_bvalid` say which state the module is in. -/
structure ReadyWf (s : State p) : Prop where
  aw : s.rSAwready = true ↔ s.rWriteState = .idle
  w : s.rSWready = true ↔ s.rWriteState = .data
  b : s.rSBvalid = true ↔ s.rWriteState = .response

theorem readyWf_reset : ReadyWf (p := p) reset :=
  ⟨by simp [reset], by simp [reset], by simp [reset]⟩

/-- There is an AW handshake in this cycle. -/
def AwHandshake (s : State p) (i : Input p) : Prop := i.iSAwvalid = true ∧ s.rSAwready = true

/-- The W handshake of this cycle, if there is one: data and strobes. -/
def wHandshake (s : State p) (i : Input p) : List (BusWord p × BitVec p.stbw) :=
  if i.iSWvalid = true ∧ s.rSWready = true then [(i.iSWdata, i.iSWstrb)] else []

/-- The B handshake of this cycle, if there is one: its `bid`. -/
def bIds (s : State p) (i : Input p) : List (BitVec p.tagw) :=
  if s.rSBvalid = true ∧ i.iSBready = true then [s.rSBid] else []

/-- What a cycle without an AW handshake hands over besides. -/
structure Quiet (s : State p) (i : Input p) : Prop where
  w : wHandshake s i = []
  b : bIds s i = []
  call : cReq s i = []

/-- The other two channels are quiet in `WRITE_IDLE`. -/
theorem quiet_of_idle {s : State p} {i : Input p} (hw : ReadyWf s) (hs : s.rWriteState = .idle) :
    Quiet s i := by
  have hwr : ¬s.rSWready = true := fun h => absurd (hw.w.mp h) (by simp [hs])
  have hbv : ¬s.rSBvalid = true := fun h => absurd (hw.b.mp h) (by simp [hs])
  exact ⟨if_neg fun h => hwr h.2, if_neg fun h => hbv h.1, cReq_of_idle hs⟩

/-- An idle cycle without an address. -/
theorem step_idle {s : State p} {i : Input p} (hr : i.iRstN = true) (hw : ReadyWf s)
    (hs : s.rWriteState = .idle) (hna : ¬AwHandshake s i) : step s i = s ∧ Quiet s i := by
  have hv : i.iSAwvalid = false := by
    cases hv : i.iSAwvalid with
    | false => rfl
    | true => exact absurd ⟨hv, hw.aw.mpr hs⟩ hna
  exact ⟨by simp [step, hr, comboWrite, hs, hv], quiet_of_idle hw hs⟩

/-- The cycle of an AW handshake. -/
theorem step_aw {s : State p} {i : Input p} (hr : i.iRstN = true) (hw : ReadyWf s)
    (ha : AwHandshake s i) :
    step s i = { s with
      rWriteState := .data, rSAwready := false, rSWready := true, rId := i.iSAwid,
      rAddr := i.iSAwaddr, rSize := i.iSAwsize, rLen := i.iSAwlen, rLenCnt := 0 } ∧ Quiet s i := by
  obtain ⟨hv, hready⟩ := ha
  have hs := hw.aw.mp hready
  exact ⟨by simp [step, hr, comboWrite, hs, hv], quiet_of_idle hw hs⟩

/-- A cycle in `WRITE_DATA` without a beat. -/
theorem step_gap {s : State p} {i : Input p} (hr : i.iRstN = true) (hw : ReadyWf s)
    (hs : s.rWriteState = .data) (hv : i.iSWvalid = false) : step s i = s ∧ Quiet s i := by
  have hbv : ¬s.rSBvalid = true := fun h => absurd (hw.b.mp h) (by simp [hs])
  exact ⟨by simp [step, hr, comboWrite, hs, hv], ⟨if_neg fun h => absurd h.1 (by simp [hv]),
    if_neg fun h => hbv h.1, by simp [cReq, comboWrite, hs, hv]⟩⟩

/-- A beat that is not the last one. -/
theorem step_beat {s : State p} {i : Input p} (hr : i.iRstN = true) (hw : ReadyWf s)
    (hs : s.rWriteState = .data) (hv : i.iSWvalid = true) (hne : s.rLenCnt ≠ s.rLen) :
    step s i = { s with
      rDataTmp := s.rDataTmp.copyIn (s.rLenCnt.toNat * p.stbw) i.iSWdata.lane p.stbw
      rStrbTmp := setStrb s.rStrbTmp s.rLenCnt.toNat i.iSWstrb
      rLenCnt := s.rLenCnt + 1 } ∧
    wHandshake s i = [(i.iSWdata, i.iSWstrb)] ∧ bIds s i = [] ∧ cReq s i = [] := by
  have hbv : ¬s.rSBvalid = true := fun h => absurd (hw.b.mp h) (by simp [hs])
  exact ⟨by simp [step, hr, comboWrite, hs, hv, hne], if_pos ⟨hv, hw.w.mpr hs⟩,
    if_neg fun h => hbv h.1, by simp [cReq, comboWrite, hs, hv, hne]⟩

/-- **The last beat**: it is in the call, and the response is shown from the next cycle on. -/
theorem step_last {s : State p} {i : Input p} (hr : i.iRstN = true) (hw : ReadyWf s)
    (hs : s.rWriteState = .data) (hv : i.iSWvalid = true) (heq : s.rLenCnt = s.rLen) :
    (step s i = { s with
      rDataTmp := s.rDataTmp.copyIn (s.rLenCnt.toNat * p.stbw) i.iSWdata.lane p.stbw
      rStrbTmp := setStrb s.rStrbTmp s.rLenCnt.toNat i.iSWstrb
      rSBid := s.rId
      rSBresp := 0
      rSBvalid := true
      rSWready := false
      rWriteState := .response }) ∧
    wHandshake s i = [(i.iSWdata, i.iSWstrb)] ∧ bIds s i = [] ∧
    cReq s i = [{
      addr := s.rAddr, width := s.rSize, len := s.rLen
      data := s.rDataTmp.copyIn (s.rLenCnt.toNat * p.stbw) i.iSWdata.lane p.stbw
      strb := setStrb s.rStrbTmp s.rLenCnt.toNat i.iSWstrb }] := by
  have hbv : ¬s.rSBvalid = true := fun h => absurd (hw.b.mp h) (by simp [hs])
  exact ⟨by simp [step, hr, comboWrite, hs, hv, heq], if_pos ⟨hv, hw.w.mpr hs⟩,
    if_neg fun h => hbv h.1, by simp [cReq, comboWrite, hs, hv, heq]⟩

/-- A cycle in `WRITE_RESPONSE`. -/
theorem step_response {s : State p} {i : Input p} (hr : i.iRstN = true) (hw : ReadyWf s)
    (hs : s.rWriteState = .response) :
    (step s i = if i.iSBready then
        { s with rWriteState := .idle, rSAwready := true, rSBvalid := false } else s) ∧
    wHandshake s i = [] ∧ bIds s i = (if i.iSBready then [s.rSBid] else []) ∧ cReq s i = [] := by
  have hwr : ¬s.rSWready = true := fun h => absurd (hw.w.mp h) (by simp [hs])
  have hbv := hw.b.mpr hs
  refine ⟨?_, if_neg fun h => hwr h.2, by simp [bIds, hbv], ?_⟩
  · cases hb : i.iSBready <;> simp [step, hr, comboWrite, hs, hb]
  · cases hb : i.iSBready <;> simp [cReq, comboWrite, hs, hb]

theorem ReadyWf.of_step {s : State p} {i : Input p} (hr : i.iRstN = true) (hw : ReadyWf s) :
    ReadyWf (step s i) := by
  have hw' := hw
  obtain ⟨haw, hwr, hbv⟩ := hw'
  cases hs : s.rWriteState with
  | idle =>
    rw [hs] at haw hwr hbv
    by_cases ha : AwHandshake s i
    · rw [(step_aw hr hw ha).1]
      exact ⟨by simp, by simp, by simpa using hbv⟩
    · rw [(step_idle hr hw hs ha).1]
      exact hw
  | data =>
    rw [hs] at haw hwr hbv
    cases hv : i.iSWvalid with
    | false =>
      rw [(step_gap hr hw hs hv).1]
      exact hw
    | true =>
      by_cases heq : s.rLenCnt = s.rLen
      · rw [(step_last hr hw hs hv heq).1]
        exact ⟨by simpa using haw, by simp, by simp⟩
      · rw [(step_beat hr hw hs hv heq).1]
        exact ⟨hw.aw, hw.w, hw.b⟩
  | response =>
    rw [hs] at haw hwr hbv
    rw [(step_response hr hw hs).1]
    cases hb : i.iSBready with
    | false => exact hw
    | true => exact ⟨by simp, by simpa using hwr, by simp⟩

/-! ## Bursts -/

/-- A write burst as a master offers it; `data i` and `strb i` are beat `i`. -/
structure Burst (p : BusParams) where
  id : BitVec p.tagw
  addr : BitVec 64
  size : BitVec 3
  len : BitVec 8
  data : Nat → BusWord p
  strb : Nat → BitVec p.stbw

/-- The burst's geometry. -/
def Burst.geom (b : Burst p) : Axi.Burst := ⟨b.addr.toNat, b.size.toNat, b.len.toNat⟩

/-- The AW channel offers `b`. -/
def Burst.OnAw (b : Burst p) (i : Input p) : Prop :=
  i.iRstN = true ∧ i.iSAwvalid = true ∧ i.iSAwid = b.id ∧ i.iSAwaddr = b.addr ∧
    i.iSAwsize = b.size ∧ i.iSAwlen = b.len

/--
`b.Feeds c ws`: over the cycles `ws` the W channel offers the beats `c .. len` of `b` in order,
with any gaps between them, the last one in the last cycle.
-/
def Burst.Feeds (b : Burst p) (c : Nat) : List (Input p) → Prop
  | [] => False
  | i :: ws =>
    i.iRstN = true ∧
      if i.iSWvalid then
        i.iSWdata = b.data c ∧ i.iSWstrb = b.strb c ∧
          if c = b.len.toNat then ws = [] else b.Feeds (c + 1) ws
      else b.Feeds c ws

/-- The registers of an accepted burst of which the beats below `c` were taken. -/
structure Collecting (b : Burst p) (c : Nat) (s : State p) : Prop where
  state : s.rWriteState = .data
  id : s.rId = b.id
  addr : s.rAddr = b.addr
  size : s.rSize = b.size
  len : s.rLen = b.len
  cnt : s.rLenCnt.toNat = c
  cnt_le : c ≤ b.len.toNat

/-- The buffers hold the beats of `b` below `c`. -/
structure HoldsBeats (b : Burst p) (c : Nat) (data : Buf buffSize)
    (strb : Fin p.nstb → BitVec 64) : Prop where
  data : ∀ i < c, ∀ j < p.stbw, data.get (i * p.stbw + j) = (b.data i).lane j
  strb : ∀ i < c, ∀ h : i < p.nstb, strb ⟨i, h⟩ = (b.strb i).setWidth 64

/-- Accepting the address puts the module at the first beat. -/
theorem step_onAw {b : Burst p} {s : State p} {i : Input p} (hs : s.rWriteState = .idle)
    (h : b.OnAw i) :
    Collecting b 0 (step s i) ∧ HoldsBeats b 0 (step s i).rDataTmp (step s i).rStrbTmp ∧
      cReq s i = [] := by
  obtain ⟨hr, hv, hid, haddr, hsize, hlen⟩ := h
  have hstep : comboWrite s i = ({ s with
      rWriteState := .data, rSAwready := false, rSWready := true, rId := i.iSAwid,
      rAddr := i.iSAwaddr, rSize := i.iSAwsize, rLen := i.iSAwlen, rLenCnt := 0 }, false) := by
    simp [comboWrite, hs, hv]
  refine ⟨?_, ?_, by simp [cReq, hstep]⟩
  · simp only [step, hr, hstep, if_true]
    exact ⟨rfl, hid, haddr, hsize, hlen, rfl, Nat.zero_le _⟩
  · exact ⟨fun i hi => absurd hi (by omega), fun i hi => absurd hi (by omega)⟩

/-- Beat `c` written over buffers that hold the beats below it. -/
theorem HoldsBeats.succ {b : Burst p} {c : Nat} {data : Buf buffSize}
    {strb : Fin p.nstb → BitVec 64} (h : HoldsBeats b c data strb)
    (hfit : (c + 1) * p.stbw ≤ buffSize) :
    HoldsBeats b (c + 1) (data.copyIn (c * p.stbw) (b.data c).lane p.stbw)
      (setStrb strb c (b.strb c)) where
  data := by
    intro i hi j hj
    have hend : c * p.stbw + p.stbw ≤ buffSize := by rw [← Nat.succ_mul]; exact hfit
    rw [Buf.get_copyIn _ _ _ _ hend]
    by_cases hic : i = c
    · subst hic
      rw [if_pos ⟨by omega, by omega⟩, Nat.add_sub_cancel_left]
    · have hle : (i + 1) * p.stbw ≤ c * p.stbw := Nat.mul_le_mul_right _ (by omega)
      rw [Nat.succ_mul] at hle
      rw [if_neg (by omega)]
      exact h.data i (by omega) j hj
  strb := by
    intro i hi hn
    unfold setStrb
    by_cases hic : i = c
    · rw [if_pos hic, hic]
    · rw [if_neg hic]
      exact h.strb i (by omega) hn

theorem Collecting.succ_cnt {b : Burst p} {c : Nat} {s : State p} (h : Collecting b c s)
    (hne : c ≠ b.len.toNat) : (s.rLenCnt + 1).toNat = c + 1 := by
  have h1 := h.cnt
  have h2 := h.cnt_le
  have hsucc : (s.rLenCnt + 1).toNat = s.rLenCnt.toNat + 1 :=
    toNat_succ_of_lt (y := b.len) (by omega)
  rw [hsucc, h1]

theorem Collecting.cnt_eq_iff {b : Burst p} {c : Nat} {s : State p} (h : Collecting b c s) :
    s.rLenCnt = s.rLen ↔ c = b.len.toNat := by
  rw [h.len, ← BitVec.toNat_inj, h.cnt]

/-- A beat that is not the last one moves the module on to the next beat, whatever is stored. -/
theorem Collecting.succ {b : Burst p} {c : Nat} {s : State p} (h : Collecting b c s)
    (hne : c ≠ b.len.toNat) (d : Buf buffSize) (strb : Fin p.nstb → BitVec 64) :
    Collecting b (c + 1) { s with rDataTmp := d, rStrbTmp := strb, rLenCnt := s.rLenCnt + 1 } := by
  have hle := h.cnt_le
  exact ⟨h.state, h.id, h.addr, h.size, h.len, h.succ_cnt hne, by omega⟩

/--
**One burst, one call.**

From the beat the module waits for to the end of the burst, whatever the gaps, exactly one
`C_req_write` is made, with the burst's address, size and length and with all its beats and
strobes in place.
-/
theorem call_of_feeds {b : Burst p} (hfit : (b.len.toNat + 1) * p.stbw ≤ buffSize) :
    ∀ (ws : List (Input p)) (c : Nat) (s : State p), Collecting b c s →
      HoldsBeats b c s.rDataTmp s.rStrbTmp → b.Feeds c ws →
      ∃ call : ReqWriteCall p, events cReq (traceOf step s ws) = [call] ∧
        call.addr = b.addr ∧ call.width = b.size ∧ call.len = b.len ∧
        HoldsBeats b (b.len.toNat + 1) call.data call.strb
  | [], _, _, _, _, hf => absurd hf (by simp [Burst.Feeds])
  | i :: ws, c, s, hc, hb, hf => by
    obtain ⟨hr, hrest⟩ := hf
    rw [traceOf, events_cons]
    by_cases hv : i.iSWvalid = true
    · rw [if_pos hv] at hrest
      obtain ⟨hd, hs, hnext⟩ := hrest
      have hfit' : (c + 1) * p.stbw ≤ buffSize :=
        Nat.le_trans (Nat.mul_le_mul_right _ (Nat.succ_le_succ hc.cnt_le)) hfit
      have hb' := hb.succ hfit'
      by_cases hlast : c = b.len.toNat
      · -- the last beat: the call is made on this edge, with the beat in it
        rw [if_pos hlast] at hnext
        have hcall : cReq s i = [{
            addr := s.rAddr, width := s.rSize, len := s.rLen,
            data := s.rDataTmp.copyIn (c * p.stbw) (b.data c).lane p.stbw,
            strb := setStrb s.rStrbTmp c (b.strb c) }] := by
          simp [cReq, comboWrite, hc.state, hv, hc.cnt_eq_iff.mpr hlast, ← hc.cnt, hd, hs]
        refine ⟨_, by rw [hcall, hnext]; rfl, hc.addr, hc.size, hc.len, ?_⟩
        rw [← hlast]
        exact hb'
      · rw [if_neg hlast] at hnext
        have hne : s.rLenCnt ≠ s.rLen := fun he => hlast (hc.cnt_eq_iff.mp he)
        have hcombo : comboWrite s i = ({ s with
            rDataTmp := s.rDataTmp.copyIn (c * p.stbw) (b.data c).lane p.stbw
            rStrbTmp := setStrb s.rStrbTmp c (b.strb c)
            rLenCnt := s.rLenCnt + 1 }, false) := by
          simp [comboWrite, hc.state, hv, hne, ← hc.cnt, hd, hs]
        have hstep : step s i = { s with
            rDataTmp := s.rDataTmp.copyIn (c * p.stbw) (b.data c).lane p.stbw
            rStrbTmp := setStrb s.rStrbTmp c (b.strb c)
            rLenCnt := s.rLenCnt + 1 } := by
          simp [step, hr, hcombo]
        have hnocall : cReq s i = [] := by simp [cReq, hcombo]
        rw [hnocall, List.nil_append]
        refine call_of_feeds hfit ws (c + 1) (step s i) ?_ ?_ hnext
        · rw [hstep]
          exact hc.succ hlast _ _
        · rw [hstep]
          exact hb'
    · -- a gap
      rw [if_neg hv] at hrest
      have hcombo : comboWrite s i = (s, false) := by simp [comboWrite, hc.state, hv]
      have hstep : step s i = s := by simp [step, hr, hcombo]
      have hnocall : cReq s i = [] := by simp [cReq, hcombo]
      rw [hnocall, List.nil_append, hstep]
      exact call_of_feeds hfit ws c s hc hb hrest

end QemuHdlSim.Axi4SW
