import QemuHdlSim.Bridge.Acc
import QemuHdlSim.Infra.Lists
import QemuHdlSim.Infra.Stream

/-!
# The stream master (`axis_m.sv`)

One step is one rising clock edge; every register samples values from before the edge.
`COMBO_RECV` gives no default to `n_len`, `n_count`, `n_data` and `n_last_keep`: in a branch that
does not assign them they keep what the last evaluation left there. So the state has the `n_*`
variables beside the registers. `m_axis_tready` is never read.

* `Wf` — while a packet is sent, beat `count - 1` of it is on the bus
* `owed` — the beats of the packet that are not through, the one on the bus first
* `law` — the step law of the stream
-/

namespace QemuHdlSim.AxisM

open Infra Infra.Stream

variable {w : Nat}

/-- `r_state`. -/
inductive SendState where
  | idle
  | data
  deriving DecidableEq, Repr

/-- The registers; also the `n_*` variables behind them. -/
structure Regs (w : Nat) where
  state : SendState
  len : BitVec 32
  count : BitVec 32
  data : Buf buffSize
  tvalid : Bool
  tdata : Fin w → Byte
  tkeep : BitVec w
  lastKeep : BitVec w
  tlast : Bool

/-- The values after reset, and those of the `initial` block. -/
def Regs.zero : Regs w where
  state := .idle
  len := 0
  count := 0
  data := fun _ => 0
  tvalid := false
  tdata := fun _ => 0
  tkeep := 0
  lastKeep := 0
  tlast := false

/-- `r_*`, and `n_*` as the last evaluation left them. -/
structure State (w : Nat) where
  r : Regs w
  n : Regs w

/-- Time zero. -/
def init : State w := ⟨Regs.zero, Regs.zero⟩

/-- The inputs of one cycle. -/
structure Input where
  aresetn : Bool
  iReq : Bool
  iData : Buf buffSize
  iLen : BitVec 32
  iLastKeep : BitVec 32

/-- `~64'h0` on the `KEEPW` lanes. -/
def allLanes (w : Nat) : BitVec w := (~~~(0#64)).setWidth w

/-- `i_last_keep` on the `KEEPW` lanes; an `int` is extended by its sign. -/
def keepLanes (w : Nat) (k : BitVec 32) : BitVec w := k.signExtend w

/-- `n_tdata[j*8+:8] = r_data[(r_count*KEEPW)+j]`. -/
def loadWord (data : Buf buffSize) (count : BitVec 32) : Fin w → Byte :=
  fun j => data.get (count * BitVec.ofNat 32 w + BitVec.ofNat 32 j.val).toNat

/-- `COMBO_RECV`: the `n_*` values and `busy`. -/
def comboRecv (s : State w) (i : Input) : Regs w × Bool :=
  let n : Regs w := { s.n with
    state := s.r.state
    tlast := s.r.tlast
    tkeep := s.r.tkeep
    tdata := s.r.tdata
    tvalid := s.r.tvalid }
  match s.r.state with
  | .idle =>
    if i.iReq then
      ({ n with
          lastKeep := keepLanes w i.iLastKeep
          len := i.iLen
          data := i.iData
          count := 1
          tdata := fun l => i.iData.get l
          tlast := false
          tkeep := allLanes w
          tvalid := true
          state := .data }, true)
    else (n, false)
  | .data =>
    if s.r.tvalid then
      let n : Regs w := { n with tdata := loadWord s.r.data s.r.count }
      if s.r.count = s.r.len + 1 then ({ n with tvalid := false, state := .idle }, false)
      else if s.r.count = s.r.len then
        ({ n with
            tvalid := true, tlast := true, tkeep := s.r.lastKeep, count := s.r.count + 1 }, true)
      else
        ({ n with
            tvalid := true, tlast := false, tkeep := allLanes w, count := s.r.count + 1 }, true)
    else (n, true)

/-- `FF_SEND`. -/
def step (s : State w) (i : Input) : State w :=
  ⟨if i.aresetn then (comboRecv s i).1 else Regs.zero, (comboRecv s i).1⟩

/-- `busy`. -/
def busy (s : State w) (i : Input) : Bool := (comboRecv s i).2

/-! ## The stream -/

/-- What the stream shows. -/
def Regs.shown (r : Regs w) : Beat w := ⟨r.tdata, r.tkeep, r.tlast⟩

/-- The transfer of this cycle, if there is one. -/
def transfer (s : State w) : List (Beat w) := if s.r.tvalid then [s.r.shown] else []

/-- Beat `k` of a packet of `len + 1` beats. -/
def beat (data : Buf buffSize) (len : BitVec 32) (lastKeep : BitVec w) (k : Nat) : Beat w where
  data := fun l => data.get (k * w + l)
  keep := if k = len.toNat then lastKeep else allLanes w
  last := decide (k = len.toNat)

/-- The beats of a packet. -/
def beats (data : Buf buffSize) (len : BitVec 32) (lastKeep : BitVec w) : List (Beat w) :=
  segment (beat data len lastKeep) 0 len.toNat

theorem isPacket_beats (data : Buf buffSize) (len : BitVec 32) (lastKeep : BitVec w) :
    IsPacket (beats data len lastKeep) := by
  unfold beats
  refine ⟨(List.range len.toNat).map (beat data len lastKeep), beat data len lastKeep len.toNat, ?_,
    decide_eq_true rfl, ?_⟩
  · rw [segment_zero, List.range_succ, List.map_append]
    rfl
  · intro x hx
    obtain ⟨k, hk, rfl⟩ := List.mem_map.mp hx
    have hlt := List.mem_range.mp hk
    exact decide_eq_false (by omega)

/-- A beat of which the lanes below `n` are kept. -/
theorem bytes_beat {data : Buf buffSize} {len : BitVec 32} {lastKeep : BitVec w} {k n : Nat}
    (hn : n ≤ w)
    (hkeep : ∀ j < w, (beat data len lastKeep k).keep.getLsbD j = decide (j < n)) :
    (beat data len lastKeep k).bytes
      = (List.range n).map fun j => data.get (k * w + j) := by
  have hwin := filterMap_range_window (fun j => data.get (k * w + j)) 0 n w (by omega)
  simp only [Nat.zero_add, Nat.zero_le, true_and] at hwin
  rw [← hwin]
  unfold Beat.bytes
  refine List.filterMap_congr fun j hj => ?_
  have hlt := List.mem_range.mp hj
  rw [hkeep j hlt]
  simp only [decide_eq_true_eq]
  unfold Beat.lane
  rw [dif_pos hlt]
  rfl

/-- A packet of at least two beats that fits the buffer. -/
structure Fits (w : Nat) (len : BitVec 32) : Prop where
  pos : 0 < len.toNat
  lt : len.toNat < buffSize
  fits : (len.toNat + 1) * w ≤ buffSize

/-- What holds of the registers in every state. -/
structure Wf (s : State w) : Prop where
  idle : s.r.state = .idle → s.r.tvalid = false
  data : s.r.state = .data → s.n = s.r ∧ s.r.tvalid = true ∧ Fits w s.r.len ∧
    0 < s.r.count.toNat ∧ s.r.count.toNat ≤ s.r.len.toNat + 1 ∧
    s.r.shown = beat s.r.data s.r.len s.r.lastKeep (s.r.count.toNat - 1)

/-- The beats a state still has to hand over. -/
def owed (s : State w) : List (Beat w) :=
  if s.r.state = .data then
    segment (beat s.r.data s.r.len s.r.lastKeep) (s.r.count.toNat - 1) s.r.len.toNat
  else []

theorem wf_init : Wf (w := w) init where
  idle := fun _ => rfl
  data := by simp [init, Regs.zero]

/-- No index of the loaded word wraps. -/
theorem loadWord_eq (data : Buf buffSize) {count : BitVec 32}
    (h : (count.toNat + 1) * w ≤ buffSize) :
    loadWord data count = fun j : Fin w => data.get (count.toNat * w + j) := by
  funext j
  have hj := j.isLt
  have hb := buffSize_eq
  rw [Nat.succ_mul] at h
  unfold loadWord
  rw [BitVec.toNat_add, BitVec.toNat_mul, BitVec.toNat_ofNat, BitVec.toNat_ofNat,
    Nat.mod_eq_of_lt (a := w) (by omega), Nat.mod_eq_of_lt (a := j.val) (by omega),
    Nat.mod_eq_of_lt (a := count.toNat * w) (by omega), Nat.mod_eq_of_lt (by omega)]

theorem len_succ_toNat {len : BitVec 32} (h : len.toNat < buffSize) :
    (len + 1#32).toNat = len.toNat + 1 := by
  have hb := buffSize_eq
  rw [BitVec.toNat_add, show (1#32).toNat = 1 from rfl, Nat.mod_eq_of_lt (by omega)]

/-! ## What a cycle does -/

/-- An idle module without a request. -/
theorem step_idle {s : State w} {i : Input} (hs : s.r.state = .idle) (hq : i.iReq = false) :
    busy s i = false ∧ (step s i).r.state = .idle ∧ (s.r.tvalid = false →
      (step s i).r.tvalid = false) := by
  have hcombo : (comboRecv s i).2 = false ∧ (comboRecv s i).1.state = .idle ∧
      (comboRecv s i).1.tvalid = s.r.tvalid := by
    simp [comboRecv, hs, hq]
  obtain ⟨hbusy, hstate, htv⟩ := hcombo
  refine ⟨hbusy, ?_, fun hv => ?_⟩
  · cases hr : i.aresetn with
    | true => simp [step, hr, hstate]
    | false => simp [step, hr, Regs.zero]
  · cases hr : i.aresetn with
    | true => simp [step, hr, htv, hv]
    | false => simp [step, hr, Regs.zero]

/-- A request that meets the reset has to wait. -/
theorem step_held {s : State w} {i : Input} (hs : s.r.state = .idle) (hq : i.iReq = true)
    (hr : i.aresetn = false) : busy s i = true ∧ (step s i).r = Regs.zero := by
  simp [busy, step, comboRecv, hs, hq, hr]

/-- **A request is taken**: its first beat goes on the bus. -/
theorem step_accept {s : State w} {i : Input} (hs : s.r.state = .idle) (hq : i.iReq = true)
    (hr : i.aresetn = true) (hf : Fits w i.iLen) :
    busy s i = true ∧ Wf (step s i) ∧ (step s i).r.state = .data ∧
      (step s i).r.len = i.iLen ∧ (step s i).r.count = 1 ∧
      owed (step s i) = beats i.iData i.iLen (keepLanes w i.iLastKeep) := by
  have hpos := hf.pos
  have hr' : (step s i).r = ⟨.data, i.iLen, 1, i.iData, true, fun l => i.iData.get l, allLanes w,
      keepLanes w i.iLastKeep, false⟩ := by
    simp [step, hr, comboRecv, hs, hq]
  have hn : (step s i).n = (step s i).r := by simp [step, hr]
  have hshown : (step s i).r.shown = beat i.iData i.iLen (keepLanes w i.iLastKeep) 0 := by
    have hne : ¬0 = i.iLen.toNat := by omega
    rw [hr']
    simp [Regs.shown, beat, hne]
  refine ⟨by simp [busy, comboRecv, hs, hq], ⟨?_, ?_⟩, by rw [hr'], by rw [hr'], by rw [hr'], ?_⟩
  · intro h
    rw [hr'] at h
    exact absurd h (by simp)
  · intro _
    refine ⟨hn, by rw [hr'], by rw [hr']; exact hf, by rw [hr']; exact Nat.one_pos,
      by rw [hr']; exact Nat.le_add_left _ _, ?_⟩
    rw [hshown, hr']
    rfl
  · unfold owed beats
    rw [hr']
    rfl

/-- **One beat is through and the next one goes on the bus.** -/
theorem step_next {s : State w} {i : Input} (hw : Wf s) (hs : s.r.state = .data)
    (hr : i.aresetn = true) (hc : s.r.count.toNat ≤ s.r.len.toNat) :
    busy s i = true ∧ Wf (step s i) ∧ (step s i).r.state = .data ∧
      (step s i).r.len = s.r.len ∧ (step s i).r.count.toNat = s.r.count.toNat + 1 ∧
      owed s = transfer s ++ owed (step s i) := by
  obtain ⟨hn, htv, hfit, hpos, hle, hshown⟩ := hw.data hs
  have hlt := hfit.lt
  have hb := buffSize_eq
  have hne : ¬s.r.count = s.r.len + 1#32 := by
    intro h
    rw [h] at hc
    have := len_succ_toNat hlt
    omega
  have hcount : (s.r.count + 1).toNat = s.r.count.toNat + 1 := len_succ_toNat (by omega)
  have hidx : (s.r.count.toNat + 1) * w ≤ buffSize :=
    Nat.le_trans (Nat.mul_le_mul_right w (by omega)) hfit.fits
  -- whether it is the last one or not, what is loaded is beat `count`
  have hr' : (step s i).r = ⟨.data, s.r.len, s.r.count + 1, s.r.data, true,
      (beat s.r.data s.r.len s.r.lastKeep s.r.count.toNat).data,
      (beat s.r.data s.r.len s.r.lastKeep s.r.count.toNat).keep, s.r.lastKeep,
      (beat s.r.data s.r.len s.r.lastKeep s.r.count.toNat).last⟩ := by
    have hlast : s.r.count.toNat = s.r.len.toNat ↔ s.r.count = s.r.len := BitVec.toNat_inj
    unfold beat
    rw [← loadWord_eq s.r.data hidx]
    by_cases hl : s.r.count = s.r.len
    · simp [step, hr, comboRecv, hs, htv, hl, hn]
    · simp [step, hr, comboRecv, hs, htv, hne, hl, hlast, hn]
  have hn' : (step s i).n = (step s i).r := by simp [step, hr]
  have hbusy : busy s i = true := by
    by_cases hl : s.r.count = s.r.len <;> simp [busy, comboRecv, hs, htv, hne, hl]
  refine ⟨hbusy, ⟨?_, ?_⟩, by rw [hr'], by rw [hr'], by rw [hr', hcount], ?_⟩
  · intro h
    rw [hr'] at h
    exact absurd h (by simp)
  · intro _
    refine ⟨hn', by rw [hr'], by rw [hr']; exact hfit, ?_, ?_, ?_⟩
    · rw [hr']
      simp only [hcount]
      omega
    · rw [hr']
      simp only [hcount]
      omega
    · rw [hr']
      simp only [hcount, Nat.add_sub_cancel]
      rfl
  · have hlaw : owed s = s.r.shown ::
        segment (beat s.r.data s.r.len s.r.lastKeep) s.r.count.toNat s.r.len.toNat := by
      rw [owed, if_pos hs, segment_cons _ (by omega), hshown, Nat.sub_add_cancel hpos]
    have hnext : owed (step s i)
        = segment (beat s.r.data s.r.len s.r.lastKeep) s.r.count.toNat s.r.len.toNat := by
      unfold owed
      rw [hr']
      simp only [hcount, if_true, Nat.add_sub_cancel]
    rw [hlaw, hnext, transfer, if_pos htv]
    rfl

/-- **The last beat is through**, and `busy` is low already. -/
theorem step_last {s : State w} {i : Input} (hw : Wf s) (hs : s.r.state = .data)
    (hr : i.aresetn = true) (hc : s.r.len.toNat < s.r.count.toNat) :
    busy s i = false ∧ Wf (step s i) ∧ (step s i).r.state = .idle ∧ owed s = transfer s := by
  obtain ⟨_, htv, hfit, _, hle, hshown⟩ := hw.data hs
  have heq : s.r.count.toNat = s.r.len.toNat + 1 := by omega
  have hlast : s.r.count = s.r.len + 1#32 := by
    rw [← BitVec.toNat_inj, len_succ_toNat hfit.lt, heq]
  have hr' : (step s i).r.state = .idle ∧ (step s i).r.tvalid = false := by
    simp [step, hr, comboRecv, hs, htv, hlast]
  refine ⟨by simp [busy, comboRecv, hs, htv, hlast], ⟨fun _ => hr'.2, fun h => ?_⟩, hr'.1, ?_⟩
  · rw [hr'.1] at h
    exact absurd h (by simp)
  · rw [owed, if_pos hs, transfer, if_pos htv, hshown, heq, Nat.add_sub_cancel,
      segment_cons _ (Nat.le_refl _), segment_of_lt _ (Nat.lt_succ_self _)]

end QemuHdlSim.AxisM
