import QemuHdlSim.Infra.Fifo
import QemuHdlSim.Infra.Lists
import QemuHdlSim.Nic.AxisS

/-!
# From the stream to the network layer (`C_send_packet`, `net_tx_packet`)

`C_send_packet` puts one frame on `nic_resp` for each call of `axis_s`. `net_tx_packet` is the
handler of that socket: it takes the frames that have arrived and hands their bytes to
`qemu_send_packet`.

A run is any interleaving of clock edges, arrivals on the socket and calls of the handler.

* `sent_run` — the socket's log is what `C_send_packet` was called with
* `os_run` — what the handler handed over is the part of the log that it took
-/

namespace QemuHdlSim.Tx

open Infra Infra.Stream

variable {w : Nat}

/-- `size` bytes of `data` as a loop or a callee reads them; `none` when they are not all there. -/
def frameBytes? (f : ACCNICData) : Option (List Byte) :=
  if f.size.toNat ≤ buffSize then some f.payload else none

/--
`C_send_packet`. The field `last` is what the stack had. The call is undefined when the loop that
prints the packet, for which `size` is an `int`, leaves the data.
-/
def cSendPacket (last : BitVec 8) (c : AxisS.SendCall) : Option ACCNICData :=
  if c.len.toInt ≤ buffSize then some { last := last, size := c.len, id := c.id, data := c.data }
  else none

/-- The loop of `net_tx_packet` over `n` frames: what is handed over, and the socket after it. -/
def netTxLoop (q : Fifo ACCNICData) : Nat → Option (List (List Byte) × Fifo ACCNICData)
  | 0 => some ([], q)
  | n + 1 =>
    match q.recv? with
    | none => some ([], q)
    | some (f, q') => do
      let p ← frameBytes? f
      let (ps, q'') ← netTxLoop q' n
      return (p :: ps, q'')

/-- `net_tx_packet`: until the socket has no more frames. -/
def netTxPacket (q : Fifo ACCNICData) : Option (List (List Byte) × Fifo ACCNICData) :=
  netTxLoop q (q.delivered - q.taken)

/-- `axis_s`, the socket, and what the network layer was given. -/
structure State where
  axis : AxisS.Regs
  nicResp : Fifo ACCNICData
  os : List (List Byte)

/-- After a reset. -/
def init (d : Buf buffSize) : State := ⟨AxisS.afterReset d, Fifo.empty, []⟩

/-- What can happen. -/
inductive Event (w : Nat) where
  /-- A rising clock edge, and what the stack has where a frame is made. -/
  | edge (i : AxisS.Input w) (last : BitVec 8)
  /-- The oldest frame in flight on `nic_resp` arrives. -/
  | deliver
  /-- QEMU calls the handler of the socket. -/
  | tx

/-- One step; `none` when the event cannot happen, or what happens is undefined. -/
def step (s : State) : Event w → Option State
  | .edge i last => do
    let fs ← (AxisS.calls s.axis i).mapM (cSendPacket last)
    return { s with axis := AxisS.step s.axis i, nicResp := s.nicResp.sendAll fs }
  | .deliver => s.nicResp.deliver.map fun q => { s with nicResp := q }
  | .tx => (netTxPacket s.nicResp).map fun r => { s with nicResp := r.2, os := s.os ++ r.1 }

/-- A run, with the state each event happened in. -/
abbrev Run (s : State) (tr : List (State × Event w)) (s' : State) : Prop :=
  Path (fun a e b => step a e = some b) s tr s'

/-- The calls of `C_send_packet`. -/
def sendCalls (s : State) : Event w → List AxisS.SendCall
  | .edge i _ => AxisS.calls s.axis i
  | _ => []

/-- The beats of the stream. -/
def beats (_ : State) : Event w → List (Beat w)
  | .edge i _ => i.beats
  | _ => []

/-- Reset is not asserted. -/
def Event.OutOfReset : Event w → Prop
  | .edge i _ => i.aresetn = true
  | _ => True

/-! ## Frames -/

theorem cSendPacket_eq_some {last : BitVec 8} {c : AxisS.SendCall} {f : ACCNICData}
    (h : cSendPacket last c = some f) : f.size = c.len ∧ f.payload = c.payload := by
  unfold cSendPacket at h
  split at h
  · cases h
    exact ⟨rfl, rfl⟩
  · exact absurd h (by simp)

/-- A packet that fits the buffer is sent. -/
theorem cSendPacket_of_le (last : BitVec 8) {c : AxisS.SendCall} (h : c.len.toNat ≤ buffSize) :
    cSendPacket last c = some { last := last, size := c.len, id := c.id, data := c.data } := by
  have hb := buffSize_eq
  refine if_pos ?_
  rw [BitVec.toInt_eq_toNat_of_lt (by omega)]
  omega

theorem frameBytes?_of_le {f : ACCNICData} (h : f.size.toNat ≤ buffSize) :
    frameBytes? f = some f.payload := if_pos h

theorem frameBytes?_eq_some {f : ACCNICData} {p : List Byte} (h : frameBytes? f = some p) :
    p = f.payload := by
  unfold frameBytes? at h
  split at h
  · exact (Option.some.inj h).symm
  · exact absurd h (by simp)

/-- The frames of a cycle carry what its calls have. -/
theorem mapM_cSendPacket {last : BitVec 8} {cs : List AxisS.SendCall} {fs : List ACCNICData}
    (h : cs.mapM (cSendPacket last) = some fs) :
    fs.map ACCNICData.payload = cs.map AxisS.SendCall.payload ∧
      fs.map ACCNICData.size = cs.map AxisS.SendCall.len :=
  ⟨map_of_mapM (fun _ _ hf => (cSendPacket_eq_some hf).2) h,
    map_of_mapM (fun _ _ hf => (cSendPacket_eq_some hf).1) h⟩

theorem mapM_cSendPacket_of_le (last : BitVec 8) {cs : List AxisS.SendCall}
    (h : ∀ c ∈ cs, c.len.toNat ≤ buffSize) : ∃ fs, cs.mapM (cSendPacket last) = some fs := by
  induction cs with
  | nil => exact ⟨[], rfl⟩
  | cons c cs ih =>
    obtain ⟨fs, hfs⟩ := ih (fun x hx => h x (List.mem_cons_of_mem _ hx))
    rw [List.mapM_cons, cSendPacket_of_le last (h c List.mem_cons_self), hfs]
    exact ⟨_, rfl⟩

/-- The handler drains its socket. -/
theorem netTxLoop_eq_drain (q : Fifo ACCNICData) (n : Nat) :
    netTxLoop q n = q.drain? frameBytes? n := by
  induction n generalizing q with
  | zero => rfl
  | succ n ih =>
    unfold netTxLoop Fifo.drain?
    cases q.recv? with
    | none => rfl
    | some r => simp only [ih]

/-- The handler leaves the log alone, and hands over the frames between the two cursors. -/
theorem netTxLoop_eq_some {q q' : Fifo ACCNICData} {n : Nat} {ps : List (List Byte)}
    (h : netTxLoop q n = some (ps, q')) :
    q'.sent = q.sent ∧
      (q'.sent.take q'.taken).map ACCNICData.payload
        = (q.sent.take q.taken).map ACCNICData.payload ++ ps := by
  rw [netTxLoop_eq_drain] at h
  obtain ⟨hsent, fs, htaken, hfs⟩ := Fifo.drain?_eq_some h
  refine ⟨hsent, ?_⟩
  have hps := map_of_mapM (k := id) (fun _ _ hp => frameBytes?_eq_some hp) hfs
  rw [htaken, List.map_append, ← hps, List.map_id]

/-- When every frame fits the buffer the handler comes to its end. -/
theorem netTxLoop_isSome {q : Fifo ACCNICData} (h : ∀ f ∈ q.sent, f.size.toNat ≤ buffSize)
    (n : Nat) : ∃ r, netTxLoop q n = some r := by
  rw [netTxLoop_eq_drain]
  exact Fifo.drain?_isSome (fun f hf => ⟨_, frameBytes?_of_le (h f hf)⟩) n

/-! ## What a step does -/

theorem step_edge_eq_some {s s' : State} {i : AxisS.Input w} {last : BitVec 8}
    (h : step s (.edge i last) = some s') :
    ∃ fs, (AxisS.calls s.axis i).mapM (cSendPacket last) = some fs ∧
      s' = { s with axis := AxisS.step s.axis i, nicResp := s.nicResp.sendAll fs } := by
  obtain ⟨fs, hfs, h⟩ := Option.bind_eq_some_iff.mp h
  cases h
  exact ⟨fs, hfs, rfl⟩

/-- The log grows by what `C_send_packet` is called with. -/
theorem sent_step {s s' : State} {e : Event w} (h : step s e = some s') :
    s'.nicResp.sent.map ACCNICData.payload
        = s.nicResp.sent.map ACCNICData.payload ++ (sendCalls s e).map AxisS.SendCall.payload ∧
      s'.nicResp.sent.map ACCNICData.size
        = s.nicResp.sent.map ACCNICData.size ++ (sendCalls s e).map AxisS.SendCall.len := by
  cases e with
  | edge i last =>
    obtain ⟨fs, hfs, rfl⟩ := step_edge_eq_some h
    obtain ⟨hpayload, hsize⟩ := mapM_cSendPacket hfs
    constructor
    · rw [Fifo.sendAll_sent, List.map_append, hpayload]
      rfl
    · rw [Fifo.sendAll_sent, List.map_append, hsize]
      rfl
  | deliver =>
    obtain ⟨q, hq, rfl⟩ := Option.map_eq_some_iff.mp h
    obtain ⟨hsent, _⟩ := Fifo.deliver_eq_some hq
    simp [sendCalls, hsent]
  | tx =>
    obtain ⟨⟨ps, q⟩, hr, rfl⟩ := Option.map_eq_some_iff.mp h
    obtain ⟨hsent, _⟩ := netTxLoop_eq_some hr
    simp [sendCalls, hsent]

/-- What the network layer was given is the part of the log that was taken. -/
def Handed (s : State) : Prop := s.os = (s.nicResp.sent.take s.nicResp.taken).map ACCNICData.payload

theorem handed_step {s s' : State} {e : Event w} (hs : Handed s) (h : step s e = some s') :
    Handed s' := by
  unfold Handed at hs ⊢
  cases e with
  | edge i last =>
    obtain ⟨fs, _, rfl⟩ := step_edge_eq_some h
    rw [Fifo.sendAll_sent, Fifo.sendAll_taken, List.take_append_of_le_length
      s.nicResp.taken_le_sent]
    exact hs
  | deliver =>
    obtain ⟨q, hq, rfl⟩ := Option.map_eq_some_iff.mp h
    obtain ⟨hsent, htaken, _⟩ := Fifo.deliver_eq_some hq
    rw [hsent, htaken]
    exact hs
  | tx =>
    obtain ⟨⟨ps, q⟩, hr, rfl⟩ := Option.map_eq_some_iff.mp h
    rw [(netTxLoop_eq_some hr).2, ← hs]

theorem sent_run {d : Buf buffSize} {tr : List (State × Event w)} {s : State}
    (h : Run (init d) tr s) :
    s.nicResp.sent.map ACCNICData.payload = (events sendCalls tr).map AxisS.SendCall.payload ∧
      s.nicResp.sent.map ACCNICData.size = (events sendCalls tr).map AxisS.SendCall.len := by
  have hpayload := h.accumulate (fun s => s.nicResp.sent.map ACCNICData.payload)
    (fun s e => (sendCalls s e).map AxisS.SendCall.payload) (fun a e b hab => (sent_step hab).1)
  have hsize := h.accumulate (fun s => s.nicResp.sent.map ACCNICData.size)
    (fun s e => (sendCalls s e).map AxisS.SendCall.len) (fun a e b hab => (sent_step hab).2)
  rw [hpayload, hsize]
  unfold events
  rw [List.map_flatMap, List.map_flatMap]
  exact ⟨rfl, rfl⟩

theorem os_run {d : Buf buffSize} {tr : List (State × Event w)} {s : State}
    (h : Run (init d) tr s) :
    s.os = (s.nicResp.sent.take s.nicResp.taken).map ACCNICData.payload := by
  have hhanded : Handed s :=
    h.invariant (P := fun _ _ => True) (show Handed (init d) from rfl) (fun _ _ => trivial)
      (fun _ _ _ ha _ hab => handed_step ha hab)
  exact hhanded

end QemuHdlSim.Tx
