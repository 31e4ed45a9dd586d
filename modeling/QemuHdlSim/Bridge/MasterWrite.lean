import QemuHdlSim.Bridge.Acc
import QemuHdlSim.Infra.Lists
import QemuHdlSim.Infra.Path

/-!
# The AXI write master (`axi4_m_w.sv`)

One step is one rising clock edge; every register samples values from before the edge. `C_resp`
is a process of its own: it calls `C_resp_write` in every cycle with `bvalid` high, whatever the
state is.

The module moves on when `wready` is high, whether the beat on the bus was shown already or is
only loaded in this cycle. `Ready` says that this makes no difference: in `WRITE_DATA` and in
the first cycle of `WRITE_RESPONSE` `wready` is high, and the address is taken before the last
beat is loaded.

`owedAw`, `owedW` and `owedB` are what a state still has to hand over on each channel; `aw_law`,
`w_law` and `b_law` are the step laws. A slave that answers each write once, after its last beat,
is `Compliant`; `Balanced` ties its counts to what the module owes.
-/

namespace QemuHdlSim.Axi4MW

open Infra

variable {p : BusParams}

/-- `r_write_state`. -/
inductive WriteState where
  | idle
  | data
  | response
  deriving DecidableEq, Repr

/-- The registers. -/
structure State (p : BusParams) where
  rWriteState : WriteState
  rAddr : BitVec 64
  rSize : BitVec 3
  rLen : BitVec 8
  rLenCnt : BitVec 8
  rMAwvalid : Bool
  rData : Buf buffSize
  rStrb : BitVec p.stbw
  rMWdata : BusWord p
  rMWstrb : BitVec p.stbw
  rMLast : Bool
  rMWvalid : Bool

/-- The inputs of one cycle. -/
structure Input (p : BusParams) where
  iRstN : Bool
  reqAddr : BitVec 64
  reqLen : BitVec 8
  reqSize : BitVec 3
  reqStrb : BitVec p.stbw
  reqData : Buf buffSize
  reqValid : Bool
  iMAwready : Bool
  iMWready : Bool
  iMBvalid : Bool

/-- The reset branch of the flip-flops. -/
def reset : State p where
  rWriteState := .idle
  rAddr := 0
  rSize := 0
  rLen := 0
  rLenCnt := 0
  rMAwvalid := false
  rData := fun _ => 0
  rStrb := 0
  rMWdata := fun _ => 0
  rMWstrb := 0
  rMLast := false
  rMWvalid := false

/-- `COMBO_WRITE`: the `n_*` values. -/
def comboWrite (s : State p) (i : Input p) : State p :=
  match s.rWriteState with
  | .idle =>
    if i.reqValid then
      { s with
        rWriteState := .data
        rMAwvalid := true
        rLenCnt := 0
        rAddr := i.reqAddr
        rSize := i.reqSize
        rLen := i.reqLen
        rData := i.reqData
        rStrb := i.reqStrb }
    else s
  | .data =>
    let s' : State p := { s with
      rMAwvalid := if i.iMAwready then false else s.rMAwvalid
      rMWvalid := true
      rMWdata := fun l => s.rData.get (p.stbw * s.rLenCnt.toNat + l)
      rMWstrb := if s.rLenCnt = s.rLen then s.rStrb else BitVec.allOnes p.stbw
      rMLast := decide (s.rLenCnt = s.rLen) }
    -- `wready` alone moves on, whether a beat is on the bus or not
    if i.iMWready then
      if s.rLenCnt = s.rLen then { s' with rWriteState := .response }
      else { s' with rLenCnt := s.rLenCnt + 1 }
    else s'
  | .response =>
    let s' : State p := { s with rMWvalid := false, rMLast := false }
    if i.iMBvalid then { s' with rWriteState := .idle } else s'

/-- `FF`. -/
def step (s : State p) (i : Input p) : State p := if i.iRstN then comboWrite s i else reset

/-- The `C_resp` process: the `C_resp_write` calls made on this edge. -/
def cResp (_ : State p) (i : Input p) : List Unit := if i.iMBvalid then [()] else []

/-! ## The channels -/

/-- The payload of the AW channel. -/
structure AwReq where
  awaddr : BitVec 64
  awlen : BitVec 8
  awsize : BitVec 3
  deriving DecidableEq

/-- One beat of the W channel. -/
structure WBeat (p : BusParams) where
  wdata : BusWord p
  wstrb : BitVec p.stbw
  wlast : Bool
  deriving DecidableEq

/-- What the AW channel shows in state `s`. -/
def State.awShown (s : State p) : AwReq := ⟨s.rAddr, s.rLen, s.rSize⟩

/-- What the W channel shows in state `s`. -/
def State.wShown (s : State p) : WBeat p := ⟨s.rMWdata, s.rMWstrb, s.rMLast⟩

/-- The AW handshake of this cycle, if there is one. -/
def awHandshake (s : State p) (i : Input p) : List AwReq :=
  if s.rMAwvalid = true ∧ i.iMAwready = true then [s.awShown] else []

/-- The W handshake of this cycle, if there is one. -/
def wHandshake (s : State p) (i : Input p) : List (WBeat p) :=
  if s.rMWvalid = true ∧ i.iMWready = true then [s.wShown] else []

/-- The module takes a request in this cycle. -/
def Accepts (s : State p) (i : Input p) : Prop := s.rWriteState = .idle ∧ i.reqValid = true

instance (s : State p) (i : Input p) : Decidable (Accepts s i) :=
  inferInstanceAs (Decidable (_ ∧ _))

/-- Beat `k` of a request: a bus word of its data, its strobes and `wlast` on the last one. -/
def beat (data : Buf buffSize) (strb : BitVec p.stbw) (len : BitVec 8) (k : Nat) : WBeat p where
  wdata := fun l => data.get (p.stbw * k + l)
  wstrb := if k = len.toNat then strb else BitVec.allOnes p.stbw
  wlast := decide (k = len.toNat)

/-- All beats of a request. -/
def beats (data : Buf buffSize) (strb : BitVec p.stbw) (len : BitVec 8) : List (WBeat p) :=
  (List.range (len.toNat + 1)).map (beat data strb len)

/-! ## The step laws -/

/-- What holds of the registers in a run whose steps are `Ready`. -/
structure Wf (s : State p) : Prop where
  idle : s.rWriteState = .idle → s.rMAwvalid = false ∧ s.rMWvalid = false
  data : s.rWriteState = .data → s.rLenCnt.toNat ≤ s.rLen.toNat
  response : s.rWriteState = .response →
    s.rMAwvalid = false ∧ (s.rMWvalid = true → s.rMLast = true)

/--
In `WRITE_DATA` `wready` is high and the address is taken by the time the last beat is loaded;
in `WRITE_RESPONSE` `wready` is high while the last beat is shown.
-/
structure Ready (s : State p) (i : Input p) : Prop where
  data : s.rWriteState = .data → i.iMWready = true
  address : s.rWriteState = .data → s.rLenCnt = s.rLen → s.rMAwvalid = true → i.iMAwready = true
  response : s.rWriteState = .response → s.rMWvalid = true → i.iMWready = true

/-- The address a state still has to hand over. -/
def owedAw (s : State p) : List AwReq := if s.rMAwvalid then [s.awShown] else []

/-- The beats a state still has to hand over: the one shown and those not yet loaded. -/
def owedW (s : State p) : List (WBeat p) :=
  (if s.rMWvalid then [s.wShown] else []) ++
    (if s.rWriteState = .data then
      segment (beat s.rData s.rStrb s.rLen) s.rLenCnt.toNat s.rLen.toNat else [])

/-- The response a state still waits for. -/
def owedB (s : State p) : List Unit := if s.rWriteState = .idle then [] else [()]

/-- The address that becomes owed on this edge. -/
def creditAw (s : State p) (i : Input p) : List AwReq :=
  if Accepts s i then [⟨i.reqAddr, i.reqLen, i.reqSize⟩] else []

/-- The beats that become owed on this edge. -/
def creditW (s : State p) (i : Input p) : List (WBeat p) :=
  if Accepts s i then beats i.reqData i.reqStrb i.reqLen else []

/-- The response that becomes awaited on this edge. -/
def creditB (s : State p) (i : Input p) : List Unit := if Accepts s i then [()] else []

theorem wf_reset : Wf (p := p) reset where
  idle := by simp [reset]
  data := by simp [reset]
  response := by simp [reset]

/-- A beat that is loaded on the way to the next one. -/
theorem load_eq (s : State p) : (⟨fun l => s.rData.get (p.stbw * s.rLenCnt.toNat + l),
      if s.rLenCnt = s.rLen then s.rStrb else BitVec.allOnes p.stbw,
      decide (s.rLenCnt = s.rLen)⟩ : WBeat p)
    = beat s.rData s.rStrb s.rLen s.rLenCnt.toNat := by
  unfold beat
  simp only [← BitVec.toNat_inj]

theorem Wf.of_step {s : State p} {i : Input p} (hr : i.iRstN = true) (hw : Wf s)
    (hready : Ready s i) : Wf (step s i) := by
  simp only [step, hr, if_true]
  cases hst : s.rWriteState with
  | idle =>
    obtain ⟨haw, hwv⟩ := hw.idle hst
    unfold comboWrite
    rw [hst]
    by_cases hq : i.reqValid = true
    · simp only [hq, if_true]
      exact ⟨by simp, fun _ => Nat.zero_le _, by simp⟩
    · simp only [hq, if_false, Bool.false_eq_true]
      exact ⟨fun _ => ⟨haw, hwv⟩, by simp [hst], by simp [hst]⟩
  | data =>
    have hle := hw.data hst
    unfold comboWrite
    rw [hst]
    simp only [hready.data hst, if_true]
    by_cases hlast : s.rLenCnt = s.rLen
    · -- with the last beat the address is gone
      have haw : (if i.iMAwready = true then false else s.rMAwvalid) = false := by
        cases hv : s.rMAwvalid with
        | false => simp
        | true => simp [hready.address hst hlast hv]
      rw [if_pos hlast]
      exact ⟨by simp, by simp, fun _ => ⟨haw, fun _ => by simp [hlast]⟩⟩
    · obtain ⟨hcnt, hlt⟩ := toNat_succ_of_ne (hw.data hst) hlast
      rw [if_neg hlast]
      refine ⟨by simp, fun _ => ?_, by simp⟩
      simp only [hcnt]
      omega
  | response =>
    obtain ⟨haw, _⟩ := hw.response hst
    unfold comboWrite
    rw [hst]
    by_cases hb : i.iMBvalid = true
    · simp only [hb, if_true]
      exact ⟨fun _ => ⟨haw, rfl⟩, by simp, by simp⟩
    · simp only [hb, if_false, Bool.false_eq_true]
      exact ⟨by simp, by simp, fun _ => ⟨haw, by simp⟩⟩

/-- **The step law of the AW channel.** -/
theorem aw_law {s : State p} {i : Input p} (hr : i.iRstN = true) (hw : Wf s) :
    owedAw s ++ creditAw s i = awHandshake s i ++ owedAw (step s i) := by
  simp only [step, hr, if_true]
  cases hst : s.rWriteState with
  | idle =>
    obtain ⟨haw, _⟩ := hw.idle hst
    by_cases hq : i.reqValid = true
    · simp [owedAw, creditAw, awHandshake, Accepts, comboWrite, State.awShown, hst, haw, hq]
    · simp [owedAw, creditAw, awHandshake, Accepts, comboWrite, hst, haw, hq]
  | data =>
    have hcredit : creditAw s i = [] := by simp [creditAw, Accepts, hst]
    have hshown : (comboWrite s i).awShown = s.awShown := by
      simp only [State.awShown, comboWrite, hst]
      by_cases hw' : i.iMWready = true
      · by_cases hl : s.rLenCnt = s.rLen <;> simp [hw', hl]
      · simp [hw']
    -- the address stays until it is taken
    have hvalid : (comboWrite s i).rMAwvalid = (s.rMAwvalid && !i.iMAwready) := by
      have hite : (if i.iMAwready = true then false else s.rMAwvalid)
          = (s.rMAwvalid && !i.iMAwready) := by
        cases i.iMAwready <;> simp
      simp only [comboWrite, hst]
      rw [← hite]
      by_cases hw' : i.iMWready = true
      · by_cases hl : s.rLenCnt = s.rLen <;> simp [hw', hl]
      · simp [hw']
    rw [hcredit, List.append_nil]
    unfold owedAw awHandshake
    rw [hshown, hvalid]
    cases s.rMAwvalid <;> cases i.iMAwready <;> simp
  | response =>
    obtain ⟨haw, _⟩ := hw.response hst
    by_cases hb : i.iMBvalid = true
    · simp [owedAw, creditAw, awHandshake, Accepts, comboWrite, hst, haw, hb]
    · simp [owedAw, creditAw, awHandshake, Accepts, comboWrite, hst, haw, hb]

/-- **The step law of the W channel.** -/
theorem w_law {s : State p} {i : Input p} (hr : i.iRstN = true) (hw : Wf s)
    (hready : Ready s i) : owedW s ++ creditW s i = wHandshake s i ++ owedW (step s i) := by
  simp only [step, hr, if_true]
  cases hst : s.rWriteState with
  | idle =>
    obtain ⟨_, hwv⟩ := hw.idle hst
    by_cases hq : i.reqValid = true
    · simp [owedW, creditW, wHandshake, Accepts, comboWrite, hst, hwv, hq, beats, segment_zero]
    · simp [owedW, creditW, wHandshake, Accepts, comboWrite, hst, hwv, hq]
  | data =>
    -- the beat shown goes, the next one is loaded
    have hwr := hready.data hst
    have hle := hw.data hst
    have hcredit : creditW s i = [] := by simp [creditW, Accepts, hst]
    have hold : owedW s = wHandshake s i ++
        segment (beat s.rData s.rStrb s.rLen) s.rLenCnt.toNat s.rLen.toNat := by
      unfold owedW wHandshake
      rw [if_pos hst]
      cases s.rMWvalid <;> simp [hwr]
    rw [hcredit, List.append_nil, hold, List.append_cancel_left_eq, segment_cons _ hle,
      ← load_eq s]
    unfold comboWrite
    rw [hst]
    simp only [hwr, if_true]
    by_cases hlast : s.rLenCnt = s.rLen
    · rw [if_pos hlast, hlast, segment_of_lt _ (Nat.lt_succ_self _)]
      simp [owedW, State.wShown]
    · obtain ⟨hcnt, _⟩ := toNat_succ_of_ne hle hlast
      rw [if_neg hlast]
      simp only [owedW, State.wShown, hcnt, if_true, if_neg hlast]
      rfl
  | response =>
    have hcredit : creditW s i = [] := by simp [creditW, Accepts, hst]
    have hold : owedW s = wHandshake s i := by
      unfold owedW wHandshake
      cases hv : s.rMWvalid with
      | false => simp [hst]
      | true => simp [hst, hready.response hst hv]
    have hnew : owedW (comboWrite s i) = [] := by
      unfold owedW comboWrite
      rw [hst]
      by_cases hb : i.iMBvalid = true <;> simp [hb]
    rw [hcredit, hold, hnew]

/-- **The step law of the response**, when `bvalid` comes after the last beat. -/
theorem b_law {s : State p} {i : Input p} (hr : i.iRstN = true)
    (hb : i.iMBvalid = true → s.rWriteState = .response) :
    owedB s ++ creditB s i = cResp s i ++ owedB (step s i) := by
  simp only [step, hr, if_true]
  cases hst : s.rWriteState with
  | idle =>
    have hnb : i.iMBvalid = false := by
      rw [← Bool.not_eq_true]
      exact fun h => absurd (hb h) (by simp [hst])
    by_cases hq : i.reqValid = true
    · simp [owedB, creditB, cResp, Accepts, comboWrite, hst, hnb, hq]
    · simp [owedB, creditB, cResp, Accepts, comboWrite, hst, hnb, hq]
  | data =>
    have hnb : i.iMBvalid = false := by
      rw [← Bool.not_eq_true]
      exact fun h => absurd (hb h) (by simp [hst])
    have hstill : (comboWrite s i).rWriteState ≠ .idle := by
      simp only [comboWrite, hst]
      by_cases hw' : i.iMWready = true
      · by_cases hl : s.rLenCnt = s.rLen <;> simp [hw', hl]
      · simp [hw']
    simp [owedB, creditB, cResp, Accepts, hst, hnb, hstill]
  | response =>
    by_cases hb' : i.iMBvalid = true
    · simp [owedB, creditB, cResp, Accepts, comboWrite, hst, hb']
    · simp [owedB, creditB, cResp, Accepts, comboWrite, hst, hb']

/-- A request the module takes is the one its registers hold. -/
theorem step_accepts {s : State p} {i : Input p} (hr : i.iRstN = true) (h : Accepts s i) :
    (step s i).rWriteState = .data ∧ (step s i).rAddr = i.reqAddr ∧ (step s i).rLen = i.reqLen ∧
      (step s i).rSize = i.reqSize ∧ (step s i).rStrb = i.reqStrb ∧
      (step s i).rData = i.reqData := by
  obtain ⟨hs, hq⟩ := h
  simp [step, hr, comboWrite, hs, hq]

/-! ## The slave's accounts -/

/-- A run: the steps of the module, each with the state it was taken in. -/
abbrev Trace (p : BusParams) := List (State p × Input p)

/-- The handshakes of the cycle that carry a last beat. -/
def lasts (bs : List (WBeat p)) : Nat := bs.countP (fun b => b.wlast)

/--
The slave raises `bvalid` only for a write it has fully received and not answered yet. `aw`, `w`
and `b` count the addresses, the last beats and the responses so far.
-/
def Compliant (aw w b : Nat) : Trace p → Prop
  | [] => True
  | c :: tr => (c.2.iMBvalid = true → b < aw ∧ b < w) ∧
      Compliant (aw + (awHandshake c.1 c.2).length) (w + lasts (wHandshake c.1 c.2))
        (b + (cResp c.1 c.2).length) tr

theorem lasts_append (xs ys : List (WBeat p)) : lasts (xs ++ ys) = lasts xs + lasts ys :=
  List.countP_append

theorem lasts_segment (data : Buf buffSize) (strb : BitVec p.stbw) (len : BitVec 8) :
    ∀ n k, k + n = len.toNat → lasts (segment (beat data strb len) k len.toNat) = 1
  | 0, k, h => by
    have hk : k = len.toNat := h
    rw [hk, segment_cons _ (Nat.le_refl _), segment_of_lt _ (Nat.lt_succ_self _)]
    simp [lasts, beat]
  | n + 1, k, h => by
    have hlasts : lasts (segment (beat data strb len) (k + 1) len.toNat) = 1 :=
      lasts_segment data strb len n (k + 1) (by omega)
    have hne : k ≠ len.toNat := by omega
    rw [segment_cons _ (by omega), ← List.singleton_append, lasts_append, hlasts]
    simp [lasts, beat, hne]

theorem lasts_beats (data : Buf buffSize) (strb : BitVec p.stbw) (len : BitVec 8) :
    lasts (beats data strb len) = 1 := by
  rw [beats, ← segment_zero]
  exact lasts_segment data strb len len.toNat 0 (Nat.zero_add _)

/-- The counts of the slave agree with what the module still owes, after `n` requests. -/
structure Balanced (n aw w b : Nat) (s : State p) : Prop where
  aw : aw + (owedAw s).length = n
  w : w + lasts (owedW s) = n
  b : b + (owedB s).length = n

theorem balanced_reset : Balanced (p := p) 0 0 0 0 reset := ⟨rfl, rfl, rfl⟩

/-- A compliant `bvalid` finds the module waiting for it. -/
theorem Balanced.response {n aw w b : Nat} {s : State p} (h : Balanced n aw w b s) (hw : Wf s)
    (hlt : b < aw ∧ b < w) : s.rWriteState = .response := by
  obtain ⟨_, hw', hb⟩ := h
  cases hst : s.rWriteState with
  | response => rfl
  | idle =>
    simp only [owedB, hst, if_true, List.length_nil] at hb
    omega
  | data =>
    have hle := hw.data hst
    have hone := lasts_segment s.rData s.rStrb s.rLen (s.rLen.toNat - s.rLenCnt.toNat)
      s.rLenCnt.toNat (by omega)
    simp only [owedB, hst, reduceCtorEq, if_false, List.length_singleton] at hb
    simp only [owedW, hst, if_true, lasts_append, hone] at hw'
    omega

/-- **One step of the slave's accounts.** -/
theorem Balanced.step {n aw w b : Nat} {s : State p} {i : Input p} (h : Balanced n aw w b s)
    (hr : i.iRstN = true) (hw : Wf s) (hready : Ready s i)
    (hc : i.iMBvalid = true → b < aw ∧ b < w) :
    (i.iMBvalid = true → s.rWriteState = .response) ∧
      Balanced (n + (creditB s i).length) (aw + (awHandshake s i).length)
        (w + lasts (wHandshake s i)) (b + (cResp s i).length) (step s i) := by
  have hin : i.iMBvalid = true → s.rWriteState = .response := fun hb => h.response hw (hc hb)
  -- the counts move as the laws say
  have haw := congrArg List.length (aw_law hr hw)
  have hwl := congrArg lasts (w_law hr hw hready)
  have hbl := congrArg List.length (b_law hr hin)
  rw [List.length_append, List.length_append] at haw hbl
  rw [lasts_append, lasts_append] at hwl
  have hcredit : (creditAw s i).length = (creditB s i).length ∧
      lasts (creditW s i) = (creditB s i).length := by
    unfold creditAw creditW creditB
    by_cases ha : Accepts s i
    · simp only [if_pos ha]
      exact ⟨rfl, lasts_beats _ _ _⟩
    · simp only [if_neg ha]
      exact ⟨rfl, rfl⟩
  obtain ⟨h1, h2, h3⟩ := h
  exact ⟨hin, by omega, by omega, by omega⟩

end QemuHdlSim.Axi4MW
