import QemuHdlSim.Bridge.Acc
import QemuHdlSim.Infra.Lists
import QemuHdlSim.Infra.Path

/-!
# The AXI read slave (`axi4_s_r.sv`)

One step is one rising clock edge; every register samples values from before the edge.

The module loads its output register in `READ_RESPONSE` when `rready` is high and shows it one
cycle later, so the last beat is on the bus in the first `READ_IDLE` cycle, in which `rvalid` is
taken back whatever `rready` does. `Presentable` says that this cycle finds `rready` high.

`owed` is the list of beats a state still has to hand over: the one on the bus and those not yet
loaded.

* `owed_step` — the step law
* `run_conserve` — the same law over a run
* `run_burst` — what is handed over between two AR handshakes
* `run_served` — with `rready` high, an answered burst is through after `len + 1` cycles
-/

namespace QemuHdlSim.Axi4SR

open Infra

variable {p : BusParams}

/-- `r_read_state`. -/
inductive ReadState where
  | idle
  | data
  | response
  deriving DecidableEq, Repr

/-- The registers. -/
structure State (p : BusParams) where
  rReadState : ReadState
  rSArready : Bool
  rSRdata : BusWord p
  rSRlast : Bool
  rSRvalid : Bool
  rId : BitVec p.tagw
  rLen : BitVec 8
  rLenCnt : BitVec 8
  rData : Buf buffSize

/-- The inputs of one cycle. -/
structure Input (p : BusParams) where
  iRstN : Bool
  reqData : Buf buffSize
  reqValid : Bool
  iSArid : BitVec p.tagw
  iSAraddr : BitVec 64
  iSArlen : BitVec 8
  iSArsize : BitVec 3
  iSArvalid : Bool
  iSRready : Bool

/-- The arguments of a `C_req_read` call. -/
structure ReqReadCall (p : BusParams) where
  addr : BitVec 64
  width : BitVec 3
  len : BitVec 8
  id : BitVec p.tagw
  deriving DecidableEq

/-- The reset branch of the flip-flops. -/
def reset : State p where
  rReadState := .idle
  rSArready := true
  rSRdata := fun _ => 0xAA
  rSRlast := false
  rSRvalid := false
  rId := 0
  rLen := 0
  rLenCnt := 0
  rData := fun _ => 0

/-- `COMBO_READ`: the `n_*` values. -/
def comboRead (s : State p) (i : Input p) : State p :=
  match s.rReadState with
  | .idle =>
    -- the last beat is taken back whether or not `rready` is high
    let s' : State p := { s with rSRvalid := false, rSRlast := false }
    if i.iSArvalid then
      { s' with
        rSArready := false
        rLen := i.iSArlen
        rLenCnt := 0
        rId := i.iSArid
        rReadState := .data }
    else s'
  | .data =>
    if i.reqValid then { s with rReadState := .response, rData := i.reqData } else s
  | .response =>
    if i.iSRready then
      let s' : State p := { s with
        rSRvalid := true
        -- a whole bus word for each beat, however narrow it is
        rSRdata := fun l => s.rData.get (p.stbw * s.rLenCnt.toNat + l) }
      if s.rLenCnt = s.rLen then
        { s' with rSRlast := true, rReadState := .idle, rSArready := true }
      else { s' with rLenCnt := s.rLenCnt + 1 }
    else s

/-- `FF`. -/
def step (s : State p) (i : Input p) : State p := if i.iRstN then comboRead s i else reset

/-- The `C_slave_read_ff` process: the `C_req_read` call made on this edge, if one is. -/
def cReq (s : State p) (i : Input p) : List (ReqReadCall p) :=
  if i.iSArvalid = true ∧ s.rReadState = .idle then
    [{ addr := i.iSAraddr, width := i.iSArsize, len := i.iSArlen, id := i.iSArid }]
  else []

/-! ## The channels -/

/-- One beat of the R channel. -/
structure RBeat (p : BusParams) where
  rid : BitVec p.tagw
  rdata : BusWord p
  rlast : Bool
  deriving DecidableEq

/-- What the R channel shows in state `s`. -/
def State.shown (s : State p) : RBeat p := ⟨s.rId, s.rSRdata, s.rSRlast⟩

/-- The R handshake of this cycle, if there is one. -/
def rHandshake (s : State p) (i : Input p) : List (RBeat p) :=
  if s.rSRvalid = true ∧ i.iSRready = true then [s.shown] else []

/-- There is an AR handshake in this cycle. -/
def ArHandshake (s : State p) (i : Input p) : Prop := i.iSArvalid = true ∧ s.rSArready = true

instance (s : State p) (i : Input p) : Decidable (ArHandshake s i) :=
  inferInstanceAs (Decidable (_ ∧ _))

/-- Beat `k` of a burst of `len + 1` beats, cut out of the response data. -/
def beat (id : BitVec p.tagw) (len : BitVec 8) (d : Buf buffSize) (k : Nat) : RBeat p :=
  ⟨id, fun l => d.get (p.stbw * k + l), decide (k = len.toNat)⟩

/-- All beats of a burst. -/
def beats (id : BitVec p.tagw) (len : BitVec 8) (d : Buf buffSize) : List (RBeat p) :=
  (List.range (len.toNat + 1)).map (beat id len d)

/-! ## The step law -/

/-- What holds of the registers in every state after reset. -/
structure Wf (s : State p) : Prop where
  arready : s.rSArready = true ↔ s.rReadState = .idle
  data : s.rReadState = .data → s.rSRvalid = false ∧ s.rSRlast = false ∧ s.rLenCnt = 0
  response : s.rReadState = .response → s.rSRlast = false ∧ s.rLenCnt.toNat ≤ s.rLen.toNat

/-- The beat left on the bus in `READ_IDLE` is taken. -/
def Presentable (s : State p) (i : Input p) : Prop :=
  s.rReadState = .idle → s.rSRvalid = true → i.iSRready = true

/-- The response pulse the module takes on this edge, if any, with its data. -/
def pulse (s : State p) (i : Input p) : List (Buf buffSize) :=
  if s.rReadState = .data ∧ i.reqValid = true then [i.reqData] else []

/-- The beats that become owed on this edge. -/
def credit (s : State p) (i : Input p) : List (RBeat p) :=
  (pulse s i).flatMap (beats s.rId s.rLen)

/-- The beats a state still has to hand over: the one on the bus, and those not yet loaded. -/
def owed (s : State p) : List (RBeat p) :=
  (if s.rSRvalid then [s.shown] else []) ++
    (if s.rReadState = .response then
      segment (beat s.rId s.rLen s.rData) s.rLenCnt.toNat s.rLen.toNat else [])

theorem wf_reset : Wf (p := p) reset where
  arready := by simp [reset]
  data := by simp [reset]
  response := by simp [reset]

/-- The beat a state in `READ_IDLE` still shows is what its next cycle hands over. -/
theorem owed_of_idle {s : State p} {i : Input p} (hs : s.rReadState = .idle)
    (hp : Presentable s i) : owed s = rHandshake s i := by
  unfold owed rHandshake
  cases hv : s.rSRvalid with
  | false => simp [hs]
  | true => simp [hs, hp hs hv]

/-- In `READ_IDLE` the beat still shown goes, and an address starts a burst. -/
theorem owed_step_idle {s : State p} {i : Input p} (hr : i.iRstN = true) (hw : Wf s)
    (hp : Presentable s i) (hst : s.rReadState = .idle) :
    Wf (step s i) ∧ owed s ++ credit s i = rHandshake s i ++ owed (step s i) := by
  have hstep : step s i = comboRead s i := by simp [step, hr]
  rw [hstep]
  have hev : owed s = rHandshake s i := owed_of_idle hst hp
  have hcredit : credit s i = [] := by simp [credit, pulse, hst]
  have hcombo : owed (comboRead s i) = [] := by
    unfold owed comboRead
    rw [hst]
    by_cases hv : i.iSArvalid = true <;> simp [hv]
  refine ⟨?_, by rw [hev, hcredit, hcombo]⟩
  unfold comboRead
  rw [hst]
  by_cases hv : i.iSArvalid = true
  · simp only [hv, if_true]
    exact ⟨by simp, fun _ => ⟨rfl, rfl, rfl⟩, by simp⟩
  · simp only [hv, if_false, Bool.false_eq_true]
    exact ⟨by simp [hw.arready, hst], by simp, by simp⟩

/-- In `READ_DATA` nothing is shown; the response makes the whole burst owed. -/
theorem owed_step_data {s : State p} {i : Input p} (hr : i.iRstN = true) (hw : Wf s)
    (hst : s.rReadState = .data) :
    Wf (step s i) ∧ owed s ++ credit s i = rHandshake s i ++ owed (step s i) := by
  have hstep : step s i = comboRead s i := by simp [step, hr]
  rw [hstep]
  obtain ⟨hv, hl, hc⟩ := hw.data hst
  have hev : rHandshake s i = [] := by simp [rHandshake, hv]
  have hold : owed s = [] := by simp [owed, hv, hst]
  unfold comboRead
  rw [hst, hev, hold]
  by_cases hq : i.reqValid = true
  · have hcredit : credit s i = beats s.rId s.rLen i.reqData := by
      simp [credit, pulse, hst, hq]
    simp only [hq, if_true]
    refine ⟨⟨?_, by simp, fun _ => ⟨hl, ?_⟩⟩, ?_⟩
    · simp [hw.arready, hst]
    · rw [hc]; exact Nat.zero_le _
    · rw [hcredit]
      simp [owed, hv, hc, beats, segment_zero]
  · have hcredit : credit s i = [] := by simp [credit, pulse, hq]
    simp only [hq, if_false, Bool.false_eq_true]
    exact ⟨hw, by rw [hcredit, hold]⟩

/-- In `READ_RESPONSE` `rready` takes the beat on the bus and loads the next one. -/
theorem owed_step_response {s : State p} {i : Input p} (hr : i.iRstN = true) (hw : Wf s)
    (hst : s.rReadState = .response) :
    Wf (step s i) ∧ owed s ++ credit s i = rHandshake s i ++ owed (step s i) := by
  have hstep : step s i = comboRead s i := by simp [step, hr]
  rw [hstep]
  obtain ⟨hl, hc⟩ := hw.response hst
  have hcredit : credit s i = [] := by simp [credit, pulse, hst]
  rw [hcredit, List.append_nil]
  unfold comboRead
  rw [hst]
  by_cases hq : i.iSRready = true
  · have hold : owed s = rHandshake s i ++
        segment (beat s.rId s.rLen s.rData) s.rLenCnt.toNat s.rLen.toNat := by
      unfold owed rHandshake
      rw [if_pos hst]
      cases s.rSRvalid <;> simp [hq]
    simp only [hq, if_true]
    by_cases hlast : s.rLenCnt = s.rLen
    · -- the last beat stays on the bus in `READ_IDLE`
      rw [if_pos hlast]
      refine ⟨⟨by simp, by simp, by simp⟩, ?_⟩
      rw [hold, segment_cons _ hc, hlast, segment_of_lt _ (Nat.lt_succ_self _)]
      simp [owed, State.shown, beat]
    · have hne : s.rLenCnt.toNat ≠ s.rLen.toNat := fun h => hlast (BitVec.toNat_inj.mp h)
      obtain ⟨hcnt, hlt⟩ := toNat_succ_of_ne hc hlast
      rw [if_neg hlast]
      refine ⟨⟨by simp [hw.arready, hst], by simp, fun _ => ⟨hl, ?_⟩⟩, ?_⟩
      · simp only [hcnt]
        omega
      · rw [hold, segment_cons _ hc]
        simp only [owed, State.shown, beat, hcnt, hl, hne, if_true, decide_false]
        rfl
  · have hold : rHandshake s i = [] := by simp [rHandshake, hq]
    simp only [hq, if_false, Bool.false_eq_true]
    exact ⟨hw, by rw [hold, List.nil_append]⟩

/-- **The step law of the read slave.** -/
theorem owed_step {s : State p} {i : Input p} (hr : i.iRstN = true) (hw : Wf s)
    (hp : Presentable s i) :
    Wf (step s i) ∧ owed s ++ credit s i = rHandshake s i ++ owed (step s i) := by
  cases hst : s.rReadState with
  | idle => exact owed_step_idle hr hw hp hst
  | data => exact owed_step_data hr hw hst
  | response => exact owed_step_response hr hw hst

/-- A beat on the bus stays until it is taken. -/
theorem rvalid_step {s : State p} {i : Input p} (hr : i.iRstN = true) (hw : Wf s)
    (hp : Presentable s i) (hv : s.rSRvalid = true) (hno : rHandshake s i = []) :
    (step s i).rSRvalid = true := by
  have hready : i.iSRready = false := by
    cases h : i.iSRready with
    | false => rfl
    | true => simp [rHandshake, hv, h] at hno
  cases hst : s.rReadState with
  | idle => exact absurd ((hp hst hv).symm.trans hready) (by simp)
  | data => exact absurd ((hw.data hst).1.symm.trans hv) (by simp)
  | response => simp [step, hr, comboRead, hst, hready, hv]

/-- What is owed and not on the bus is put there. -/
theorem rvalid_of_owed {s : State p} {i : Input p} (hr : i.iRstN = true) (ho : owed s ≠ [])
    (hv : s.rSRvalid = false) (hq : i.iSRready = true) : (step s i).rSRvalid = true := by
  have hst : s.rReadState = .response := by
    by_contra hne
    exact ho (by simp [owed, hv, hne])
  by_cases hlast : s.rLenCnt = s.rLen <;> simp [step, hr, comboRead, hst, hq, hlast]

theorem Wf.of_step {s : State p} {i : Input p} (hr : i.iRstN = true) (hw : Wf s) :
    Wf (step s i) := by
  by_cases hp : Presentable s i
  · exact (owed_step hr hw hp).1
  · -- the step takes the last beat back; `Wf` does not look at `rready` in `READ_IDLE`
    have hidle : s.rReadState = .idle := by
      by_cases h : s.rReadState = .idle
      · exact h
      · exact absurd (fun h' => absurd h' h) hp
    have hsame : step s i = step s { i with iSRready := true } := by
      simp only [step, comboRead, hidle]
    rw [hsame]
    exact (owed_step (i := { i with iSRready := true }) hr hw (fun _ _ => rfl)).1

/-- The calls are the AR handshakes. -/
theorem cReq_eq {s : State p} (hw : Wf s) (i : Input p) :
    cReq s i = if ArHandshake s i then [⟨i.iSAraddr, i.iSArsize, i.iSArlen, i.iSArid⟩] else [] := by
  unfold cReq
  exact if_congr (and_congr_right fun _ => hw.arready.symm) rfl rfl

/-- An AR handshake finds the module idle and leaves it waiting for the response. -/
theorem step_ar {s : State p} {i : Input p} (hr : i.iRstN = true) (hw : Wf s)
    (ha : ArHandshake s i) :
    s.rReadState = .idle ∧ (step s i).rReadState = .data ∧ (step s i).rId = i.iSArid ∧
      (step s i).rLen = i.iSArlen := by
  have hidle : s.rReadState = .idle := hw.arready.mp ha.2
  refine ⟨hidle, ?_⟩
  simp only [step, hr, if_true, comboRead, hidle, ha.1]
  exact ⟨trivial, trivial, trivial⟩

/-- Without an AR handshake the burst's id and length stay, and only the response is waited for. -/
theorem step_no_ar {s : State p} {i : Input p} (hr : i.iRstN = true) (hw : Wf s)
    (hna : ¬ArHandshake s i) :
    (step s i).rId = s.rId ∧ (step s i).rLen = s.rLen ∧
      ((step s i).rReadState = .data ↔ s.rReadState = .data ∧ i.reqValid = false) := by
  simp only [step, hr, if_true, comboRead]
  cases hst : s.rReadState with
  | idle =>
    have hv : i.iSArvalid = false := by
      rw [← Bool.not_eq_true]
      exact fun hv => hna ⟨hv, hw.arready.mpr hst⟩
    simp [hv]
  | data => cases hq : i.reqValid <;> simp [hst]
  | response =>
    by_cases hq : i.iSRready = true
    · by_cases hl : s.rLenCnt = s.rLen <;> simp [hq, hl]
    · simp [hq, hst]

/-- In `READ_DATA` the module waits for the pulse. -/
theorem step_wait {s : State p} {i : Input p} (hr : i.iRstN = true) (hs : s.rReadState = .data)
    (hq : i.reqValid = false) : step s i = s := by
  simp [step, hr, comboRead, hs, hq]

/-- The pulse starts the burst at beat 0. -/
theorem step_pulse {s : State p} {i : Input p} (hr : i.iRstN = true) (hw : Wf s)
    (hs : s.rReadState = .data) (hq : i.reqValid = true) :
    (step s i).rReadState = .response ∧ (step s i).rLen = s.rLen ∧
      (step s i).rLenCnt.toNat = 0 := by
  simp only [step, hr, if_true, comboRead, hs, hq, (hw.data hs).2.2]
  exact ⟨trivial, trivial, rfl⟩

/-- With `rready` high a beat is loaded, and the last one leads back to `READ_IDLE`. -/
theorem step_load {s : State p} {i : Input p} (hr : i.iRstN = true)
    (hs : s.rReadState = .response) (hready : i.iSRready = true) :
    (s.rLenCnt = s.rLen → (step s i).rReadState = .idle) ∧
      (s.rLenCnt ≠ s.rLen → (step s i).rReadState = .response ∧ (step s i).rLen = s.rLen ∧
        (step s i).rLenCnt = s.rLenCnt + 1) := by
  simp only [step, hr, if_true, comboRead, hs, hready]
  refine ⟨fun h => by rw [if_pos h], fun h => ?_⟩
  rw [if_neg h]
  exact ⟨rfl, rfl, rfl⟩

/-! ## Runs -/

/-- A run: the steps of the module, each with the state it was taken in. -/
abbrev Trace (p : BusParams) := List (State p × Input p)

/-- The response pulse on the input, whether the module takes it or not. -/
def response (_ : State p) (i : Input p) : List (Buf buffSize) :=
  if i.reqValid then [i.reqData] else []

/-- There is no AR handshake in `tr`. -/
def NoAr (tr : Trace p) : Prop := ∀ c ∈ tr, ¬ArHandshake c.1 c.2

/-- A run of the module out of reset. -/
abbrev Run (s : State p) (tr : Trace p) (s' : State p) : Prop :=
  ClockedRun step (fun i => i.iRstN = true) s tr s'

/-- All steps of the run hand over the beat they find in `READ_IDLE`. -/
def AllPresentable (tr : Trace p) : Prop := ∀ c ∈ tr, Presentable c.1 c.2

theorem run_wf {s s' : State p} {tr : Trace p} (h : Run s tr s') (hw : Wf s) :
    Wf s' ∧ ∀ c ∈ tr, Wf c.1 :=
  h.invariant hw (fun _ _ ha hr => Wf.of_step hr ha)

/-- The conservation law of the R channel over a run. -/
theorem run_conserve {s s' : State p} {tr : Trace p} (h : Run s tr s') (hw : Wf s)
    (hp : AllPresentable tr) :
    owed s ++ events credit tr = events rHandshake tr ++ owed s' := by
  refine h.1.conserve (P := fun a i => i.iRstN = true ∧ Presentable a i) hw
    (fun c hc => ⟨h.2 c hc, hp c hc⟩) ?_
  rintro a i b ha ⟨hr, hpa⟩ rfl
  exact owed_step hr ha hpa

/-- While no AR handshake comes, the pulses that are taken are the first response and no other. -/
theorem run_serving {s s' : State p} {tr : Trace p} (h : Run s tr s') (hw : Wf s)
    (hna : NoAr tr) :
    s'.rId = s.rId ∧ s'.rLen = s.rLen ∧
      events credit tr = (events pulse tr).flatMap (beats s.rId s.rLen) ∧
      (s.rReadState = .data → (s'.rReadState = .data ↔ events response tr = []) ∧
        events pulse tr = (events response tr).head?.toList) ∧
      (s.rReadState ≠ .data → s'.rReadState ≠ .data ∧ events pulse tr = []) := by
  induction tr generalizing s with
  | nil =>
    cases h.1
    exact ⟨rfl, rfl, rfl, fun hd => ⟨⟨fun _ => rfl, fun _ => hd⟩, rfl⟩, fun hd => ⟨hd, rfl⟩⟩
  | cons c tr ih =>
    obtain ⟨hc, hr, hrest⟩ := h.cons_inv
    obtain ⟨hid, hlen, hdata⟩ := step_no_ar hr hw (hc ▸ hna c List.mem_cons_self)
    obtain ⟨hid', hlen', hcredit, hin, hout⟩ :=
      ih hrest (Wf.of_step hr hw) (fun d hd => hna d (List.mem_cons_of_mem _ hd))
    refine ⟨hid'.trans hid, hlen'.trans hlen, ?_, ?_, ?_⟩
    · rw [events_cons, events_cons, hcredit, List.flatMap_append, hid, hlen, hc]
      rfl
    · intro hd
      rw [events_cons, events_cons, hc]
      cases hq : c.2.reqValid with
      | true =>
        -- the first pulse is taken, and the later ones find the module past the wait
        have hleft : (step s c.2).rReadState ≠ .data := by
          intro hstay
          have hnot := (hdata.mp hstay).2
          rw [hq] at hnot
          exact absurd hnot (by simp)
        obtain ⟨hnd, hnone⟩ := hout hleft
        rw [hnone]
        simp [pulse, response, hd, hq, hnd]
      | false =>
        obtain ⟨hiff, hpulse⟩ := hin (hdata.mpr ⟨hd, hq⟩)
        rw [hpulse]
        simp only [pulse, response, hq, Bool.false_eq_true, and_false, if_false, List.nil_append]
        exact ⟨hiff, trivial⟩
    · intro hd
      obtain ⟨hnd, hnone⟩ := hout (fun hstay => hd (hdata.mp hstay).1)
      rw [events_cons, hnone, hc]
      exact ⟨hnd, by simp [pulse, hd]⟩

/-- In a waiting state nothing is owed. -/
theorem owed_of_data {s : State p} (hw : Wf s) (hs : s.rReadState = .data) : owed s = [] := by
  simp [owed, (hw.data hs).1, hs]

/-- **What a burst hands over**, from the state its AR handshake left. -/
theorem run_burst {s s' : State p} {tr : Trace p} (h : Run s tr s') (hw : Wf s)
    (hs : s.rReadState = .data) (hp : AllPresentable tr) (hna : NoAr tr) :
    (events response tr).head?.toList.flatMap (beats s.rId s.rLen)
      = events rHandshake tr ++ owed s' := by
  obtain ⟨_, _, hcredit, hin, _⟩ := run_serving h hw hna
  rw [← (hin hs).2, ← hcredit, ← run_conserve h hw hp, owed_of_data hw hs, List.nil_append]

/-! ## Progress -/

theorem not_arHandshake {s : State p} (hw : Wf s) (hs : s.rReadState ≠ .idle) (i : Input p) :
    ¬ArHandshake s i := fun ha => hs (hw.arready.mp ha.2)

/-- A cycle more that is not in `READ_IDLE`. -/
theorem NoAr.cons {s : State p} {c : State p × Input p} {tr : Trace p} (h : NoAr tr) (hw : Wf s)
    (hc : c.1 = s) (hs : s.rReadState ≠ .idle) : NoAr (c :: tr) := by
  intro d hd
  rcases List.mem_cons.mp hd with rfl | hd
  · rw [hc]
    exact not_arHandshake hw hs _
  · exact h d hd

/-- With `rready` high, the beats from `rLenCnt` on are loaded in as many cycles. -/
theorem run_drain {n : Nat} {s s' : State p} {tr : Trace p} (h : Run s tr s') (hw : Wf s)
    (hs : s.rReadState = .response) (hn : s.rLen.toNat = s.rLenCnt.toNat + n)
    (hlen : tr.length = n + 1) (hready : ∀ c ∈ tr, c.2.iSRready = true) :
    NoAr tr ∧ s'.rReadState = .idle := by
  -- on the number of beats that are not loaded yet
  induction n generalizing s tr with
  | zero =>
    obtain ⟨c, rfl⟩ := List.length_eq_one_iff.mp hlen
    obtain ⟨hc, hr, hrest⟩ := h.cons_inv
    cases hrest.1
    have hnone : NoAr ([] : Trace p) := fun d hd => absurd hd List.not_mem_nil
    exact ⟨hnone.cons hw hc (by simp [hs]), (step_load hr hs (hready c List.mem_cons_self)).1
      (BitVec.toNat_inj.mp (by rw [hn]; rfl))⟩
  | succ n ih =>
    obtain ⟨c, tr, rfl⟩ := List.exists_cons_of_length_eq_add_one hlen
    obtain ⟨hc, hr, hrest⟩ := h.cons_inv
    have hne : s.rLenCnt ≠ s.rLen := by
      intro he
      rw [he] at hn
      omega
    obtain ⟨hs', hlen', hcnt'⟩ := (step_load hr hs (hready c List.mem_cons_self)).2 hne
    obtain ⟨hcnt, _⟩ := toNat_succ_of_ne (by omega) hne
    obtain ⟨hno, hidle⟩ := ih hrest (Wf.of_step hr hw) hs' (by rw [hlen', hcnt', hcnt]; omega)
      (by simpa using hlen) (fun d hd => hready d (List.mem_cons_of_mem _ hd))
    exact ⟨hno.cons hw hc (by simp [hs]), hidle⟩

/-- The cycles of one burst: the wait for the response, the pulse, one cycle for each beat. -/
theorem run_served {s s' : State p} {waits tr : Trace p} {c : State p × Input p}
    (h : Run s (waits ++ c :: tr) s') (hw : Wf s) (hs : s.rReadState = .data)
    (hwaits : ∀ d ∈ waits, d.2.reqValid = false) (hq : c.2.reqValid = true)
    (hlen : tr.length = s.rLen.toNat + 1) (hready : ∀ d ∈ tr, d.2.iSRready = true) :
    NoAr (waits ++ c :: tr) ∧ s'.rReadState = .idle := by
  induction waits with
  | nil =>
    obtain ⟨hc, hr, hrest⟩ := h.cons_inv
    obtain ⟨hs', hlen', hcnt'⟩ := step_pulse hr hw hs hq
    obtain ⟨hno, hidle⟩ := run_drain hrest (Wf.of_step hr hw) hs' (by rw [hlen', hcnt']; omega) hlen
      hready
    exact ⟨hno.cons hw hc (by simp [hs]), hidle⟩
  | cons d waits ih =>
    obtain ⟨hc, hr, hrest⟩ := h.cons_inv
    rw [step_wait hr hs (hwaits d List.mem_cons_self)] at hrest
    obtain ⟨hno, hidle⟩ := ih hrest (fun e he => hwaits e (List.mem_cons_of_mem _ he))
    exact ⟨hno.cons hw hc (by simp [hs]), hidle⟩

end QemuHdlSim.Axi4SR
