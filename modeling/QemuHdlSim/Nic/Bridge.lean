import Mathlib.Algebra.GroupWithZero.Nat
import QemuHdlSim.Infra.Fifo
import QemuHdlSim.Infra.Path
import QemuHdlSim.Nic.AxisM

/-!
# From the network layer to the stream (`net_rx_packet`, `C_nic_poll`, `qemu_nic_bridge.sv`)

`net_rx_packet` sends one frame on `nic_req` for each packet. On every clock edge that finds
`busy` low, the bridge calls `C_nic_poll`, which takes the next frame, if one has arrived, and
leaves it in the `m_i_*` variables with its length as a number of beats and the lanes of the last
beat. `axis_m` reads these variables on the edges after.

A run is any interleaving of clock edges, packets from the network layer and arrivals on the
socket.

* `vlen_vkeep_spec` — the length and the lanes say how many bytes the packet has
* `payload_packetBeats` — what the beats of a frame carry is its packet
* `edge_law` — the step law of a clock edge
* `pending_edge` — the measure of the work that is left, one less with each edge
-/

namespace QemuHdlSim.Nic

open Infra Infra.Stream

variable {w : Nat}

/--
`net_rx_packet`: the frame for the packet `buf`; `none` when `memcpy` leaves the frame's buffer.
-/
def netRxPacket (buf : List Byte) : Option ACCNICData :=
  if buf.length ≤ buffSize then
    some { ACCNICData.zero with
      size := BitVec.ofNat 32 buf.length
      id := 1
      data := ACCNICData.zero.data.copyIn 0 (fun j => buf.getD j 0) buf.length }
  else none

/-- The variables `m_i_*` of the bridge. -/
structure Vars where
  mIReq : Bool
  mIData : Buf buffSize
  mILen : BitVec 32
  mILastKeep : BitVec 32

/-- `*vlen`, for a bus of `w` bytes. -/
def vlen (w : Nat) (size : BitVec 32) : BitVec 32 :=
  if size % BitVec.ofNat 32 w ≠ 0 then size / BitVec.ofNat 32 w else size / BitVec.ofNat 32 w - 1

/-- `*vkeep`, for a bus of `w` bytes. -/
def vkeep (w : Nat) (size : BitVec 32) : BitVec 64 :=
  let alignOffset := size % BitVec.ofNat 32 w
  let keep := (1#64 <<< alignOffset) - 1
  if alignOffset = 0 then ~~~keep else keep

/--
`C_nic_poll` with what the socket has. Without a frame only `req` is written. `vkeep` is a
`longint`, and the variable it comes back in is an `int`.
-/
def cNicPoll (w : Nat) (v : Vars) : Option ACCNICData → Vars
  | none => { v with mIReq := false }
  | some f =>
    { mIReq := true
      mIData := f.data
      mILen := vlen w f.size
      mILastKeep := (vkeep w f.size).setWidth 32 }

/-- The bridge and the socket it polls. -/
structure State (w : Nat) where
  axis : AxisM.State w
  vars : Vars
  nicReq : Fifo ACCNICData

/-- Time zero. -/
def init : State w where
  axis := AxisM.init
  vars := ⟨false, fun _ => 0, 0, 0⟩
  nicReq := Fifo.empty

/-- What can happen. -/
inductive Event where
  /-- A rising clock edge. -/
  | edge (aresetn : Bool)
  /-- The network layer hands a packet to `net_rx_packet`. -/
  | rx (buf : List Byte)
  /-- The oldest frame in flight on `nic_req` arrives. -/
  | deliver

/-- What `axis_m` sees. -/
def State.input (s : State w) (aresetn : Bool) : AxisM.Input where
  aresetn := aresetn
  iReq := s.vars.mIReq
  iData := s.vars.mIData
  iLen := s.vars.mILen
  iLastKeep := s.vars.mILastKeep

/-- A clock edge: `axis_m` and, unless it is busy, the poll. -/
def State.edge (s : State w) (aresetn : Bool) : State w :=
  let axis := AxisM.step s.axis (s.input aresetn)
  if AxisM.busy s.axis (s.input aresetn) then { s with axis := axis }
  else
    match s.nicReq.recv? with
    | some (f, q) => { axis := axis, vars := cNicPoll w s.vars (some f), nicReq := q }
    | none => { s with axis := axis, vars := cNicPoll w s.vars none }

/-- One step; `none` when the event cannot happen. -/
def step (s : State w) : Event → Option (State w)
  | .edge aresetn => some (s.edge aresetn)
  | .rx buf => (netRxPacket buf).map fun f => { s with nicReq := s.nicReq.send f }
  | .deliver => s.nicReq.deliver.map fun q => { s with nicReq := q }

/-- A run, with the state each event happened in. -/
abbrev Run (s : State w) (tr : List (State w × Event)) (s' : State w) : Prop :=
  Path (fun a e b => step a e = some b) s tr s'

/-- The packets an event hands over. -/
def received (_ : State w) : Event → List (List Byte)
  | .rx buf => [buf]
  | _ => []

/-- The transfers on the stream; the consumer is always ready. -/
def transfers (s : State w) : Event → List (Beat w)
  | .edge _ => AxisM.transfer s.axis
  | _ => []

/-! ## Frames -/

theorem netRxPacket_eq_some {buf : List Byte} {f : ACCNICData} (h : netRxPacket buf = some f) :
    f.size.toNat = buf.length ∧ buf.length ≤ buffSize ∧ f.payload = buf := by
  unfold netRxPacket at h
  split at h
  · next hle =>
    cases h
    have hb := buffSize_eq
    have hsize : (BitVec.ofNat 32 buf.length).toNat = buf.length := by
      rw [BitVec.toNat_ofNat, Nat.mod_eq_of_lt (by omega)]
    refine ⟨hsize, hle, ?_⟩
    unfold ACCNICData.payload
    rw [hsize]
    refine List.ext_getElem (by simp) fun k hk hk' => ?_
    rw [List.getElem_map, List.getElem_range, Buf.get_copyIn _ _ _ _ (by omega),
      if_pos (by omega), Nat.sub_zero, List.getD_eq_getElem?_getD, List.getElem?_eq_getElem hk']
    rfl
  · exact absurd h (by simp)

/-- A bus whose strobes fit an `int`, and of which a buffer is a whole number of words. -/
structure Lanes (w : Nat) : Prop where
  pos : 0 < w
  le : w ≤ 32
  dvd : w ∣ buffSize

theorem lanes_eight : Lanes 8 := ⟨by decide, by decide, by decide⟩

/-- Bit `j` of `(1 << n) - 1`. -/
theorem getLsbD_mask {n j : Nat} (hn : n < 64) :
    ((1#64 <<< n) - 1).getLsbD j = decide (j < n) := by
  have hpow : 2 ^ n < 2 ^ 64 := Nat.pow_lt_pow_right (by decide) hn
  have hpos := Nat.two_pow_pos n
  have hmask : ((1#64 <<< n) - 1).toNat = 2 ^ n - 1 := by
    have hshift : (1#64 <<< n).toNat = 2 ^ n := by
      rw [BitVec.toNat_shiftLeft, Nat.shiftLeft_eq, show (1#64).toNat = 1 from rfl, Nat.one_mul,
        Nat.mod_eq_of_lt hpow]
    rw [BitVec.toNat_sub_of_le (by rw [BitVec.le_def, hshift]; exact hpos), hshift]
    rfl
  rw [← BitVec.testBit_toNat, hmask, Nat.testBit_two_pow_sub_one]

/-- The lanes of the last beat, through the `int` and on the bus. -/
theorem getLsbD_keepLanes (h : Lanes w) (keep : BitVec 64) {j : Nat} (hj : j < w) :
    (AxisM.keepLanes w (keep.setWidth 32)).getLsbD j = keep.getLsbD j := by
  have hle := h.le
  unfold AxisM.keepLanes
  rw [BitVec.getLsbD_signExtend, BitVec.getLsbD_setWidth, if_pos (by omega)]
  simp [hj, show j < 32 by omega]

/--
**What `C_nic_poll` makes of a size**: the bytes of the beats before the last one and the lowest
lanes of the last one add up to it.
-/
theorem vlen_vkeep_spec (hpos : 0 < w) (hle : w ≤ 64) {size : BitVec 32} (hsize : 0 < size.toNat) :
    ∃ n, 0 < n ∧ n ≤ w ∧ (vlen w size).toNat * w + n = size.toNat ∧
      ∀ j < w, (vkeep w size).getLsbD j = decide (j < n) := by
  have hw : (BitVec.ofNat 32 w).toNat = w := by
    rw [BitVec.toNat_ofNat, Nat.mod_eq_of_lt (by omega)]
  have hmod : (size % BitVec.ofNat 32 w).toNat = size.toNat % w := by
    rw [BitVec.toNat_umod, hw]
  have hdiv : (size / BitVec.ofNat 32 w).toNat = size.toNat / w := by
    rw [BitVec.toNat_udiv, hw]
  have hsplit := Nat.div_add_mod' size.toNat w
  have hlt := Nat.mod_lt size.toNat hpos
  have hzero : size % BitVec.ofNat 32 w = 0 ↔ size.toNat % w = 0 := by
    rw [← BitVec.toNat_inj, hmod]
    rfl
  by_cases hoff : size.toNat % w = 0
  · -- the last beat is full
    have hoff' := hzero.mpr hoff
    have hquot : 0 < size.toNat / w := by
      rcases Nat.eq_zero_or_pos (size.toNat / w) with h0 | h0
      · rw [h0, hoff] at hsplit
        omega
      · exact h0
    have hlen : (vlen w size).toNat = size.toNat / w - 1 := by
      unfold vlen
      rw [if_neg (by simp [hoff']),
        BitVec.toNat_sub_of_le (by rw [BitVec.le_def, hdiv]; exact hquot), hdiv]
      rfl
    refine ⟨w, hpos, Nat.le_refl w, ?_, fun j hj => ?_⟩
    · rw [hlen, ← Nat.succ_mul, Nat.succ_eq_add_one, Nat.sub_add_cancel hquot]
      omega
    · unfold vkeep
      simp only [hoff', if_true]
      rw [BitVec.getLsbD_not, BitVec.shiftLeft_eq', show (0 : BitVec 32).toNat = 0 from rfl,
        getLsbD_mask (by decide)]
      simp [hj, show j < 64 by omega]
  · -- the last beat has the remainder
    have hoff' : ¬size % BitVec.ofNat 32 w = 0 := fun hh => hoff (hzero.mp hh)
    have hlen : (vlen w size).toNat = size.toNat / w := by
      unfold vlen
      rw [if_pos hoff', hdiv]
    refine ⟨size.toNat % w, by omega, by omega, ?_, fun j hj => ?_⟩
    · rw [hlen, hsplit]
    · unfold vkeep
      simp only [if_neg hoff']
      rw [BitVec.shiftLeft_eq', hmod, getLsbD_mask (by omega)]

/-- The same of a bus whose strobes fit the `int`. -/
theorem lenKeep_spec (h : Lanes w) {size : BitVec 32} (hpos : 0 < size.toNat) :
    ∃ n, 0 < n ∧ n ≤ w ∧ (vlen w size).toNat * w + n = size.toNat ∧ ∀ j < w,
      (AxisM.keepLanes w ((vkeep w size).setWidth 32)).getLsbD j = decide (j < n) := by
  obtain ⟨n, hn, hnw, hsum, hkeep⟩ := vlen_vkeep_spec h.pos (Nat.le_trans h.le (by decide)) hpos
  refine ⟨n, hn, hnw, hsum, fun j hj => ?_⟩
  rw [getLsbD_keepLanes h _ hj, hkeep j hj]

/-- The beats of a frame. -/
def packetBeats (w : Nat) (f : ACCNICData) : List (Beat w) :=
  AxisM.beats f.data (vlen w f.size) (AxisM.keepLanes w ((vkeep w f.size).setWidth 32))

/-- A frame `axis_m` can send: more than one beat, and not more than the buffer. -/
def Sendable (w : Nat) (f : ACCNICData) : Prop := w < f.size.toNat ∧ f.size.toNat ≤ buffSize

theorem Sendable.fits (h : Lanes w) {f : ACCNICData} (hf : Sendable w f) :
    AxisM.Fits w (vlen w f.size) := by
  have hpos := h.pos
  obtain ⟨hgt, hle⟩ := hf
  obtain ⟨n, hn, hnw, hsum, _⟩ := lenKeep_spec h (show 0 < f.size.toNat by omega)
  obtain ⟨m, hm⟩ := h.dvd
  refine ⟨?_, ?_, ?_⟩
  · rcases Nat.eq_zero_or_pos (vlen w f.size).toNat with h0 | h0
    · rw [h0] at hsum
      omega
    · exact h0
  · have hmul : (vlen w f.size).toNat ≤ (vlen w f.size).toNat * w := Nat.le_mul_of_pos_right _ hpos
    omega
  · -- the buffer ends between words
    have hlt : (vlen w f.size).toNat * w < m * w := by rw [Nat.mul_comm m w, ← hm]; omega
    rw [hm, Nat.mul_comm w m]
    exact Nat.mul_le_mul_right w (Nat.lt_of_mul_lt_mul_right hlt)

theorem getLsbD_allLanes (h : Lanes w) {j : Nat} (hj : j < w) :
    (AxisM.allLanes w).getLsbD j = true := by
  have hle := h.le
  unfold AxisM.allLanes
  rw [BitVec.getLsbD_setWidth, BitVec.getLsbD_not]
  simp [hj, show j < 64 by omega]

/-- **What the beats of a frame carry is its packet.** -/
theorem payload_packetBeats (h : Lanes w) {f : ACCNICData} (hf : Sendable w f) :
    payload (packetBeats w f) = f.payload := by
  obtain ⟨hgt, _⟩ := hf
  have hpos := h.pos
  obtain ⟨n, hn, hnw, hsum, hkeep⟩ := lenKeep_spec h (show 0 < f.size.toNat by omega)
  unfold payload packetBeats AxisM.beats
  rw [segment_zero, List.range_succ, List.map_append, List.flatMap_append, List.flatMap_map,
    List.map_singleton, List.flatMap_singleton]
  -- the last beat, and the full ones before it
  have hlast : (AxisM.beat f.data (vlen w f.size)
      (AxisM.keepLanes w ((vkeep w f.size).setWidth 32)) (vlen w f.size).toNat).bytes
        = (List.range n).map fun j => f.data.get ((vlen w f.size).toNat * w + j) :=
    AxisM.bytes_beat hnw (fun j hj => by rw [← hkeep j hj]; simp [AxisM.beat])
  have hfull : ∀ k ∈ List.range (vlen w f.size).toNat,
      (AxisM.beat f.data (vlen w f.size) (AxisM.keepLanes w ((vkeep w f.size).setWidth 32)) k).bytes
        = (List.range w).map fun j => f.data.get (k * w + j) := by
    intro k hk
    have hlt := List.mem_range.mp hk
    refine AxisM.bytes_beat (Nat.le_refl w) fun j hj => ?_
    have hne : ¬k = (vlen w f.size).toNat := by omega
    simp [AxisM.beat, hne, getLsbD_allLanes h hj, hj]
  rw [hlast, List.flatMap_congr hfull, flatMap_range_blocks f.data.get w]
  unfold ACCNICData.payload
  rw [← hsum, List.range_add, List.map_append, List.map_map]
  rfl

/-! ## What an edge does -/

/-- What holds in every state of a run whose frames are `Sendable`. -/
structure Wf (s : State w) : Prop where
  axis : AxisM.Wf s.axis
  vars : s.vars.mIReq = true → AxisM.Fits w s.vars.mILen
  frames : ∀ f ∈ s.nicReq.sent, Sendable w f

theorem wf_init : Wf (w := w) init where
  axis := AxisM.wf_init
  vars := by simp [init]
  frames := by simp [init, Fifo.empty]

/-- The beats of the packet in the `m_i_*` variables. -/
def Vars.beats (w : Nat) (v : Vars) : List (Beat w) :=
  AxisM.beats v.mIData v.mILen (AxisM.keepLanes w v.mILastKeep)

/-- What was polled and is not through: on the stream, or in the variables. -/
def owed (s : State w) : List (Beat w) :=
  match s.axis.r.state with
  | .data => AxisM.owed s.axis
  | .idle => if s.vars.mIReq then s.vars.beats w else []

/-- The frame `C_nic_poll` takes on this edge, if it takes one. -/
def polled (s : State w) (aresetn : Bool) : List ACCNICData :=
  if AxisM.busy s.axis (s.input aresetn) then [] else (s.nicReq.recv?.map Prod.fst).toList

theorem edge_of_busy {s : State w} {aresetn : Bool}
    (hb : AxisM.busy s.axis (s.input aresetn) = true) :
    s.edge aresetn = { s with axis := AxisM.step s.axis (s.input aresetn) } ∧
      polled s aresetn = [] := by
  unfold State.edge polled
  rw [if_pos hb, if_pos hb]
  exact ⟨rfl, rfl⟩

/-- An edge on which the bridge polls: there is a frame, or there is none. -/
theorem edge_of_free {s : State w} {aresetn : Bool}
    (hb : AxisM.busy s.axis (s.input aresetn) = false) :
    (∃ f q, s.nicReq.recv? = some (f, q) ∧ polled s aresetn = [f] ∧
      s.edge aresetn
        = ⟨AxisM.step s.axis (s.input aresetn), cNicPoll w s.vars (some f), q⟩) ∨
    (s.nicReq.recv? = none ∧ polled s aresetn = [] ∧
      s.edge aresetn
        = ⟨AxisM.step s.axis (s.input aresetn), cNicPoll w s.vars none, s.nicReq⟩) := by
  unfold State.edge polled
  simp only [hb, Bool.false_eq_true, if_false]
  cases hq : s.nicReq.recv? with
  | some x => exact Or.inl ⟨x.1, x.2, rfl, rfl, rfl⟩
  | none => exact Or.inr ⟨rfl, rfl, rfl⟩

/-- What was polled is what the next state owes. -/
theorem owed_of_free (h : Lanes w) {s : State w} {aresetn : Bool}
    (hf : ∀ f ∈ s.nicReq.sent, Sendable w f)
    (hb : AxisM.busy s.axis (s.input aresetn) = false)
    (hw : AxisM.Wf (AxisM.step s.axis (s.input aresetn)))
    (hs : (AxisM.step s.axis (s.input aresetn)).r.state = .idle) :
    Wf (s.edge aresetn) ∧
      owed (s.edge aresetn) = (polled s aresetn).flatMap (packetBeats w) := by
  rcases edge_of_free hb with ⟨f, q, hq, hpoll, hedge⟩ | ⟨_, hpoll, hedge⟩
  · obtain ⟨_, hget, hsent, _⟩ := Fifo.recv?_eq_some hq
    have hmem : f ∈ s.nicReq.sent := List.mem_of_getElem? hget
    rw [hedge, hpoll]
    refine ⟨⟨hw, fun _ => (hf f hmem).fits h, fun g hg => hf g (hsent ▸ hg)⟩, ?_⟩
    unfold owed
    rw [hs]
    simp only [cNicPoll, if_true, List.flatMap_singleton]
    rfl
  · rw [hedge, hpoll]
    refine ⟨⟨hw, by simp [cNicPoll], hf⟩, ?_⟩
    unfold owed
    rw [hs]
    simp [cNicPoll]

/-- Reset is not asserted while a packet is on the stream. -/
def Event.BetweenPackets (s : State w) : Event → Prop
  | .edge false => s.axis.r.tvalid = false
  | _ => True

/--
**The step law of a clock edge**: a beat that is transferred is the first one owed, and a frame
that is polled makes its beats owed.
-/
theorem edge_law (h : Lanes w) {s : State w} {aresetn : Bool} (hw : Wf s)
    (hr : (Event.edge aresetn).BetweenPackets s) :
    Wf (s.edge aresetn) ∧ owed s ++ (polled s aresetn).flatMap (packetBeats w)
      = AxisM.transfer s.axis ++ owed (s.edge aresetn) := by
  cases hst : s.axis.r.state with
  | idle =>
    have htv := hw.axis.idle hst
    have htransfer : AxisM.transfer s.axis = [] := by simp [AxisM.transfer, htv]
    rw [htransfer, List.nil_append]
    cases hq : s.vars.mIReq with
    | false =>
      obtain ⟨hb, hidle, hquiet⟩ := AxisM.step_idle (i := s.input aresetn) hst hq
      have haxis : AxisM.Wf (AxisM.step s.axis (s.input aresetn)) :=
        ⟨fun _ => hquiet htv, fun hd => absurd (hidle.symm.trans hd) (by simp)⟩
      obtain ⟨hwf, howed⟩ := owed_of_free h hw.frames hb haxis hidle
      refine ⟨hwf, ?_⟩
      rw [howed]
      simp [owed, hst, hq]
    | true =>
      cases aresetn with
      | false =>
        -- in reset the request is held in the variables
        obtain ⟨hb, hzero⟩ := AxisM.step_held (i := s.input false) hst hq rfl
        obtain ⟨hedge, hpoll⟩ := edge_of_busy hb
        rw [hedge, hpoll]
        refine ⟨⟨⟨fun _ => by rw [hzero]; rfl, fun hd => ?_⟩, hw.vars, hw.frames⟩, ?_⟩
        · rw [hzero] at hd
          exact absurd hd (by simp [AxisM.Regs.zero])
        · simp [owed, hst, hq, hzero, AxisM.Regs.zero]
      | true =>
        obtain ⟨hb, hwf, hdata, _, _, howed⟩ :=
          AxisM.step_accept (i := s.input true) hst hq rfl (hw.vars hq)
        obtain ⟨hedge, hpoll⟩ := edge_of_busy hb
        rw [hedge, hpoll]
        refine ⟨⟨hwf, hw.vars, hw.frames⟩, ?_⟩
        simp only [owed, hst, hdata, hq, howed, if_true, List.flatMap_nil, List.append_nil]
        rfl
  | data =>
    -- a packet is on the stream, so reset is not asserted
    obtain ⟨_, htv, _⟩ := hw.axis.data hst
    have hhigh : aresetn = true := by
      cases aresetn with
      | true => rfl
      | false => exact absurd (htv.symm.trans hr) (by simp)
    subst hhigh
    have howed : owed s = AxisM.owed s.axis := by simp [owed, hst]
    by_cases hc : s.axis.r.count.toNat ≤ s.axis.r.len.toNat
    · obtain ⟨hb, hwf, hdata, _, _, hlaw⟩ := AxisM.step_next (i := s.input true) hw.axis hst rfl hc
      obtain ⟨hedge, hpoll⟩ := edge_of_busy hb
      rw [howed, hedge, hpoll]
      refine ⟨⟨hwf, hw.vars, hw.frames⟩, ?_⟩
      simp only [owed, hdata, List.flatMap_nil, List.append_nil]
      exact hlaw
    · obtain ⟨hb, hwf, hidle, hlaw⟩ :=
        AxisM.step_last (i := s.input true) hw.axis hst rfl (by omega)
      obtain ⟨hwf', hnext⟩ := owed_of_free h hw.frames hb hwf hidle
      refine ⟨hwf', ?_⟩
      rw [howed, hlaw, hnext]

/-! ## The work that is left -/

/-- The edges a frame in the socket is good for. -/
def cost (w : Nat) (f : ACCNICData) : Nat := (vlen w f.size).toNat + 3

/-- The edges of the frames that were not taken yet. -/
def queueCost (s : State w) : Nat := ((s.nicReq.sent.drop s.nicReq.taken).map (cost w)).sum

/-- The edges after which nothing is left to do. -/
def pending (s : State w) : Nat :=
  (match s.axis.r.state with
    | .idle => if s.vars.mIReq then s.vars.mILen.toNat + 2 else 0
    | .data => s.axis.r.len.toNat + 2 - s.axis.r.count.toNat) + queueCost s

/-- Every frame that was sent has arrived. -/
def Arrived (s : State w) : Prop := s.nicReq.delivered = s.nicReq.sent.length

/-- A poll takes a unit off the work in the socket. -/
theorem pending_of_free {s : State w} {aresetn : Bool} (ha : Arrived s)
    (hb : AxisM.busy s.axis (s.input aresetn) = false)
    (hs : (AxisM.step s.axis (s.input aresetn)).r.state = .idle) :
    Arrived (s.edge aresetn) ∧ pending (s.edge aresetn) ≤ queueCost s - 1 := by
  unfold Arrived at ha
  rcases edge_of_free hb with ⟨f, q, hq, _, hedge⟩ | ⟨hq, _, hedge⟩
  · obtain ⟨hlt, hget, hsent, htaken, hdel⟩ := Fifo.recv?_eq_some hq
    have hdrop : s.nicReq.sent.drop s.nicReq.taken = f :: q.sent.drop q.taken := by
      rw [hsent, htaken]
      exact List.drop_eq_getElem?_toList_append.trans (by rw [hget]; rfl)
    refine ⟨by rw [hedge]; unfold Arrived; rw [hsent, hdel, ha], ?_⟩
    unfold pending queueCost
    rw [hedge, hdrop, hs]
    simp only [cNicPoll, if_true, cost, List.map_cons, List.sum_cons]
    omega
  · have hle := Fifo.recv?_eq_none.mp hq
    refine ⟨by rw [hedge]; exact ha, ?_⟩
    have hdrop : s.nicReq.sent.drop s.nicReq.taken = [] := List.drop_eq_nil_of_le (by omega)
    unfold pending queueCost
    rw [hedge, hs, hdrop]
    simp [cNicPoll]

/-- **An edge out of reset does a unit of the work**, while there is any. -/
theorem pending_edge {s : State w} (hw : Wf s) (ha : Arrived s) :
    Arrived (s.edge true) ∧ pending (s.edge true) ≤ pending s - 1 := by
  cases hst : s.axis.r.state with
  | idle =>
    cases hq : s.vars.mIReq with
    | false =>
      obtain ⟨hb, hidle, _⟩ := AxisM.step_idle (i := s.input true) hst hq
      obtain ⟨ha', hle⟩ := pending_of_free ha hb hidle
      refine ⟨ha', ?_⟩
      simp only [pending, hst, hq, Bool.false_eq_true, if_false] at hle ⊢
      omega
    | true =>
      -- taking the request is a unit, and its beats are the rest
      obtain ⟨hb, _, hdata, hlen, hcount, _⟩ :=
        AxisM.step_accept (i := s.input true) hst hq rfl (hw.vars hq)
      obtain ⟨hedge, _⟩ := edge_of_busy hb
      have hbefore : pending s = s.vars.mILen.toNat + 2 + queueCost s := by
        simp only [pending, hst, hq, if_true]
      have hafter : pending (s.edge true) = s.vars.mILen.toNat + 2 - 1 + queueCost s := by
        rw [hedge]
        simp only [pending, hdata, hlen, hcount]
        rfl
      refine ⟨by rw [hedge]; exact ha, ?_⟩
      rw [hbefore, hafter]
      omega
  | data =>
    obtain ⟨_, _, _, _, hcount, _⟩ := hw.axis.data hst
    by_cases hc : s.axis.r.count.toNat ≤ s.axis.r.len.toNat
    · obtain ⟨hb, _, hdata, hlen, hnext, _⟩ :=
        AxisM.step_next (i := s.input true) hw.axis hst rfl hc
      obtain ⟨hedge, _⟩ := edge_of_busy hb
      rw [hedge]
      refine ⟨ha, ?_⟩
      simp only [pending, queueCost, hst, hdata, hlen, hnext]
      omega
    · obtain ⟨hb, _, hidle, _⟩ := AxisM.step_last (i := s.input true) hw.axis hst rfl (by omega)
      obtain ⟨ha', hle⟩ := pending_of_free ha hb hidle
      refine ⟨ha', ?_⟩
      have hone : pending s = 1 + queueCost s := by
        simp only [pending, hst]
        omega
      omega

/-- When no work is left, every frame was taken and every beat is through. -/
theorem of_pending_zero {s : State w} (hw : Wf s) (h : pending s = 0) :
    s.nicReq.sent.take s.nicReq.taken = s.nicReq.sent ∧ owed s = [] := by
  have hqueue : queueCost s = 0 := by
    unfold pending at h
    omega
  have hdrop : s.nicReq.sent.drop s.nicReq.taken = [] := by
    cases hd : s.nicReq.sent.drop s.nicReq.taken with
    | nil => rfl
    | cons f fs =>
      simp only [queueCost, hd, List.map_cons, List.sum_cons, cost] at hqueue
      omega
  refine ⟨?_, ?_⟩
  · have hsplit := List.take_append_drop s.nicReq.taken s.nicReq.sent
    rwa [hdrop, List.append_nil] at hsplit
  · unfold pending at h
    cases hst : s.axis.r.state with
    | idle =>
      cases hq : s.vars.mIReq with
      | false => simp [owed, hst, hq]
      | true =>
        simp only [hst, hq, if_true] at h
        omega
    | data =>
      obtain ⟨_, _, _, _, hcount, _⟩ := hw.axis.data hst
      simp only [hst] at h
      omega

end QemuHdlSim.Nic
