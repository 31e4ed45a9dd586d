import QemuHdlSim.Infra.Fair
import QemuHdlSim.Nic.Bridge
import QemuHdlSim.Nic.Transmit

/-!
# Both halves of `qemu_nic_bridge`

One clock drives `axis_m`, which has the packets of the network layer, and `axis_s`, which gives
packets back to it. What is between the two streams is the design under test.

* `nicTrace`, `txTrace` — what each half does in a run
* `run_nic`, `run_tx` — a run of both is a run of each
* `moves_nicReq`, `moves_nicResp` — the two pipes
-/

namespace QemuHdlSim.Nic

open Infra Infra.Stream

variable {w : Nat}

/-- The bridge with its two sockets, and what the network layer was given. -/
structure Link (w : Nat) where
  rx : State w
  tx : Tx.State

inductive LinkEvent (w : Nat) where
  /-- A rising clock edge: the inputs of `axis_s`, and what the stack has where a frame is made. -/
  | edge (i : AxisS.Input w) (last : BitVec 8)
  /-- The network layer hands a packet to `net_rx_packet`. -/
  | rx (buf : List Byte)
  /-- The oldest frame in flight on `nic_req` arrives. -/
  | deliverReq
  /-- The oldest frame in flight on `nic_resp` arrives. -/
  | deliverResp
  /-- QEMU calls `net_tx_packet`. -/
  | tx

/-- What concerns `axis_m` and `nic_req`; both halves have the same reset. -/
def LinkEvent.nic : LinkEvent w → Option Event
  | .edge i _ => some (.edge i.aresetn)
  | .rx buf => some (.rx buf)
  | .deliverReq => some .deliver
  | _ => none

/-- What concerns `axis_s` and `nic_resp`. -/
def LinkEvent.resp : LinkEvent w → Option (Tx.Event w)
  | .edge i last => some (.edge i last)
  | .deliverResp => some .deliver
  | .tx => some .tx
  | _ => none

namespace Link

/-- After a reset. -/
def init (d : Buf buffSize) : Link w := ⟨Nic.init, Tx.init d⟩

/-- One step; `none` when the event cannot happen, or what happens is undefined. -/
def step (s : Link w) (e : LinkEvent w) : Option (Link w) :=
  (stutter Nic.step s.rx e.nic).bind fun rx => (stutter Tx.step s.tx e.resp).map fun tx => ⟨rx, tx⟩

/-- A run, with the state each event happened in. -/
abbrev Run (s : Link w) (tr : List (Link w × LinkEvent w)) (s' : Link w) : Prop :=
  Path (fun a e b => step a e = some b) s tr s'

/-! ## The halves -/

/-- What `axis_m` does in a run. -/
def nicTrace (tr : List (Link w × LinkEvent w)) : List (State w × Event) := part rx LinkEvent.nic tr

/-- What `axis_s` does. -/
def txTrace (tr : List (Link w × LinkEvent w)) : List (Tx.State × Tx.Event w) :=
  part tx LinkEvent.resp tr

/-- The packets an event hands over to `net_rx_packet`. -/
def received (_ : Link w) : LinkEvent w → List (List Byte)
  | .rx buf => [buf]
  | _ => []

/-- The transfers on `m_axis`. -/
def transfers (s : Link w) : LinkEvent w → List (Beat w)
  | .edge _ _ => AxisM.transfer s.rx.axis
  | _ => []

/-- The transfers on `s_axis`. -/
def beats (_ : Link w) : LinkEvent w → List (Beat w)
  | .edge i _ => i.beats
  | _ => []

variable {s s' : Link w} {e : LinkEvent w} {tr : List (Link w × LinkEvent w)}

theorem events_received : events Nic.received (nicTrace tr) = events received tr :=
  events_part fun _ e => by cases e <;> rfl

theorem transfers_eq (s : Link w) (e : LinkEvent w) :
    transfers s e = e.nic.elim [] (Nic.transfers s.rx) := by cases e <;> rfl

theorem events_transfers : events Nic.transfers (nicTrace tr) = events transfers tr :=
  events_part transfers_eq

theorem events_beats : events Tx.beats (txTrace tr) = events beats tr :=
  events_part fun _ e => by cases e <;> rfl

theorem step_eq_some (h : s.step e = some s') :
    stutter Nic.step s.rx e.nic = some s'.rx ∧ stutter Tx.step s.tx e.resp = some s'.tx := by
  obtain ⟨rx, hrx, h⟩ := Option.bind_eq_some_iff.mp h
  obtain ⟨tx, htx, rfl⟩ := Option.map_eq_some_iff.mp h
  exact ⟨hrx, htx⟩

/-- **A run of both** is a run of each. -/
theorem run_nic (h : Run s tr s') : Nic.Run s.rx (nicTrace tr) s'.rx :=
  h.part fun _ _ _ hstep => (step_eq_some hstep).1

theorem run_tx (h : Run s tr s') : Tx.Run s.tx (txTrace tr) s'.tx :=
  h.part fun _ _ _ hstep => (step_eq_some hstep).2

/-- An edge clocks both. -/
theorem step_edge {i : AxisS.Input w} {last : BitVec 8} (h : s.step (.edge i last) = some s') :
    s'.rx = s.rx.edge i.aresetn ∧ Tx.step s.tx (.edge i last) = some s'.tx := by
  obtain ⟨hrx, htx⟩ := step_eq_some h
  exact ⟨(Option.some.inj hrx).symm, htx⟩

/-- Between the edges `axis_m` and its request stay as they are. -/
theorem step_other (h : s.step e = some s') (hno : ∀ i last, e ≠ .edge i last) :
    s'.rx.axis = s.rx.axis ∧ s'.rx.vars = s.rx.vars := by
  have hrx := (step_eq_some h).1
  cases e with
  | edge i last => exact absurd rfl (hno i last)
  | rx buf =>
    obtain ⟨f, _, heq⟩ := Option.map_eq_some_iff.mp hrx
    rw [← heq]
    exact ⟨rfl, rfl⟩
  | deliverReq =>
    obtain ⟨q, _, heq⟩ := Option.map_eq_some_iff.mp hrx
    rw [← heq]
    exact ⟨rfl, rfl⟩
  | deliverResp =>
    rw [← Option.some.inj hrx]
    exact ⟨rfl, rfl⟩
  | tx =>
    rw [← Option.some.inj hrx]
    exact ⟨rfl, rfl⟩

/-! ## The pipes -/

/-- What a poll may take. -/
theorem moves_edge (s : State w) (aresetn : Bool) : s.nicReq.Moves (s.edge aresetn).nicReq := by
  cases hb : AxisM.busy s.axis (s.input aresetn) with
  | true =>
    rw [(edge_of_busy hb).1]
    exact Fifo.Moves.refl _
  | false =>
    rcases edge_of_free hb with ⟨f, q, hq, _, hedge⟩ | ⟨_, _, hedge⟩
    · rw [hedge]
      exact Fifo.Moves.takes hq
    · rw [hedge]
      exact Fifo.Moves.refl _

theorem moves_nicReq (h : s.step e = some s') : s.rx.nicReq.Moves s'.rx.nicReq := by
  have hrx := (step_eq_some h).1
  cases e with
  | edge i last =>
    rw [(step_edge h).1]
    exact moves_edge s.rx i.aresetn
  | rx buf =>
    obtain ⟨f, _, heq⟩ := Option.map_eq_some_iff.mp hrx
    rw [← heq]
    exact Fifo.Moves.sends [f]
  | deliverReq =>
    obtain ⟨q, hq, heq⟩ := Option.map_eq_some_iff.mp hrx
    rw [← heq]
    exact Fifo.Moves.arrives hq
  | deliverResp =>
    rw [← Option.some.inj hrx]
    exact Fifo.Moves.refl _
  | tx =>
    rw [← Option.some.inj hrx]
    exact Fifo.Moves.refl _

/-- `net_tx_packet` empties its queue. -/
theorem netTxPacket_taken {q q' : Fifo ACCNICData} {ps : List (List Byte)}
    (h : Tx.netTxPacket q = some (ps, q')) :
    q'.sent = q.sent ∧ q'.delivered = q.delivered ∧ q'.taken = q.delivered := by
  have hle := q.taken_le
  have hsent := (Tx.netTxLoop_eq_some h).1
  unfold Tx.netTxPacket at h
  rw [Tx.netTxLoop_eq_drain] at h
  obtain ⟨hdel, htaken⟩ := Fifo.drain?_taken h
  exact ⟨hsent, hdel, by omega⟩

theorem moves_nicResp (h : s.step e = some s') : s.tx.nicResp.Moves s'.tx.nicResp := by
  have htx := (step_eq_some h).2
  cases e with
  | edge i last =>
    obtain ⟨fs, _, heq⟩ := Tx.step_edge_eq_some htx
    rw [heq]
    exact Fifo.Moves.sends fs
  | deliverResp =>
    obtain ⟨q, hq, heq⟩ := Option.map_eq_some_iff.mp htx
    rw [← heq]
    exact Fifo.Moves.arrives hq
  | tx =>
    obtain ⟨⟨ps, q⟩, hq, heq⟩ := Option.map_eq_some_iff.mp htx
    obtain ⟨hsent, hdel, htaken⟩ := netTxPacket_taken hq
    rw [← heq]
    exact Fifo.Moves.drains hsent (htaken ▸ s.tx.nicResp.taken_le) hdel
  | rx buf =>
    rw [← Option.some.inj htx]
    exact Fifo.Moves.refl _
  | deliverReq =>
    rw [← Option.some.inj htx]
    exact Fifo.Moves.refl _

end Link

end QemuHdlSim.Nic
