import QemuHdlSim.Device.Pcie
import QemuHdlSim.Infra.Fifo

/-!
# The MMIO callbacks of the QEMU device (`accelerator_pcie.c`)

A guest access sends a request on `qemu_req` and then waits in `acc_zframe_recv_logged` for a
frame on `qemu_resp`. QEMU's big lock makes the accesses come one at a time, so a device state
holds at most one that waits.

What the world does to a receive (`zpoller_new` succeeding, the outcomes of `zpoller_wait`,
`zframe_recv` being interrupted) is its argument `RecvEnv`. A receive that has not returned yet
is `none`.
-/

namespace QemuHdlSim

open Infra

/-! ## `acc_zframe_recv_logged` -/

/-- A frame as `zframe_recv` hands it out: its size and its bytes read as an `ACCData`. -/
structure ZFrame where
  size : Nat
  data : ACCData

/-- `sizeof(ACCData)`, with the padding behind `bar_num` and `data` and at the end. -/
def sizeofACCData : Nat := 4128

/-- What one `zpoller_wait` finds. -/
inductive PollEvent where
  | ready
  | expired
  | other
  | terminated
  deriving DecidableEq

/-- What the world does to one receive. -/
structure RecvEnv where
  /-- `zpoller_new` returns a poller. -/
  pollerNew : Bool
  /-- The outcomes of `zpoller_wait`, as far as they are known. -/
  polls : List PollEvent
  /-- `zframe_recv` is interrupted and returns `NULL`. -/
  interrupted : Bool

/-- `zframe_recv`: it blocks while the queue is empty. -/
def zframeRecv (interrupted : Bool) (q : Fifo ZFrame) : Option (Option ZFrame × Fifo ZFrame) :=
  if interrupted then some (none, q) else q.recv?.map fun r => (some r.1, r.2)

/-- The polling loop: whether it is left by `break` (and not by termination), once it is left. -/
def pollLoop : List PollEvent → Option Bool
  | [] => none
  | .terminated :: _ => some false
  | .expired :: es => pollLoop es
  | .other :: es => pollLoop es
  | .ready :: _ => some true

/-- `acc_zframe_recv_logged`, with `acc_zmq_warn_ms` as `warnMs`. -/
def accZframeRecvLogged (warnMs : Int) (env : RecvEnv) (q : Fifo ZFrame) :
    Option (Option ZFrame × Fifo ZFrame) :=
  if warnMs ≤ 0 then zframeRecv env.interrupted q
  -- without a poller it is the plain receive
  else if env.pollerNew = false then zframeRecv env.interrupted q
  else (pollLoop env.polls).bind fun ok =>
    if ok then zframeRecv env.interrupted q else some (none, q)

/-- The world makes the receive return `NULL`. -/
def RecvEnv.fails (warnMs : Int) (env : RecvEnv) : Bool :=
  env.interrupted || (decide (0 < warnMs) && env.pollerNew && pollLoop env.polls == some false)

theorem zframeRecv_cases {interrupted : Bool} {q q' : Fifo ZFrame} {r : Option ZFrame}
    (h : zframeRecv interrupted q = some (r, q')) :
    (interrupted = true ∧ r = none ∧ q' = q) ∨
      (interrupted = false ∧ ∃ f, r = some f ∧ q.recv? = some (f, q')) := by
  unfold zframeRecv at h
  cases interrupted with
  | true =>
    cases h
    exact Or.inl ⟨rfl, rfl, rfl⟩
  | false =>
    obtain ⟨⟨f, q''⟩, hrecv, heq⟩ := Option.map_eq_some_iff.mp h
    cases heq
    exact Or.inr ⟨rfl, f, rfl, hrecv⟩

/-- **What a receive that has returned did**: it failed and left the queue, or took its head. -/
theorem accZframeRecvLogged_cases {warnMs : Int} {env : RecvEnv} {q q' : Fifo ZFrame}
    {r : Option ZFrame} (h : accZframeRecvLogged warnMs env q = some (r, q')) :
    (env.fails warnMs = true ∧ r = none ∧ q' = q) ∨
      (env.fails warnMs = false ∧ ∃ f, r = some f ∧ q.recv? = some (f, q')) := by
  unfold accZframeRecvLogged at h
  by_cases hwarn : warnMs ≤ 0
  · have hfails : env.fails warnMs = env.interrupted := by
      simp [RecvEnv.fails, show ¬0 < warnMs by omega]
    rw [if_pos hwarn] at h
    rw [hfails]
    exact zframeRecv_cases h
  · rw [if_neg hwarn] at h
    cases hnew : env.pollerNew with
    | false =>
      have hfails : env.fails warnMs = env.interrupted := by simp [RecvEnv.fails, hnew]
      rw [hnew, if_pos rfl] at h
      rw [hfails]
      exact zframeRecv_cases h
    | true =>
      rw [hnew, if_neg (by simp)] at h
      obtain ⟨ok, hok, hrest⟩ := Option.bind_eq_some_iff.mp h
      cases ok with
      | true =>
        have hfails : env.fails warnMs = env.interrupted := by simp [RecvEnv.fails, hok]
        rw [if_pos rfl] at hrest
        rw [hfails]
        exact zframeRecv_cases hrest
      | false =>
        have hfails : env.fails warnMs = true := by
          simp [RecvEnv.fails, hok, hnew, show 0 < warnMs by omega]
        cases hrest
        exact Or.inl ⟨hfails, rfl, rfl⟩

/-! ## The callbacks -/

/-- A guest access: which of `mmio_read_bar##num` and `mmio_write_bar##num` is called, and how. -/
inductive Access where
  | read (num : Fin 6) (addr : BitVec 64) (size : BitVec 32)
  | write (num : Fin 6) (addr val : BitVec 64) (size : BitVec 32)

/-- The frame the access sends. -/
def Access.request (txid : BitVec 64) : Access → ACCData
  | .read num addr size => mmioReadReq (BitVec.ofNat 8 num.val) addr size txid
  | .write num addr val size => mmioWriteReq (BitVec.ofNat 8 num.val) addr val size txid

/-- What a read returns for what it received: no frame and a short frame read 0. -/
def mmioReadReturn (size : BitVec 32) : Option ZFrame → BitVec 64
  | none => 0
  | some f => if f.size < sizeofACCData then 0 else mmioReadDecode size f.data

/-- What the access returns to the guest; a write returns nothing. -/
def Access.result (r : Option ZFrame) : Access → Option (BitVec 64)
  | .read _ _ size => some (mmioReadReturn size r)
  | .write _ _ _ _ => none

/-- The part of the device the MMIO callbacks use. -/
structure MmioState where
  /-- `acc_global_txid` -/
  txid : BitVec 64
  waiting : Option Access
  qemuReq : Fifo ACCData
  qemuResp : Fifo ZFrame

/-- The device before the first access. -/
def MmioState.init : MmioState where
  txid := 0
  waiting := none
  qemuReq := Fifo.empty
  qemuResp := Fifo.empty

/-- An access up to its receive: the request is sent. -/
def MmioState.call (s : MmioState) (a : Access) : Option MmioState :=
  match s.waiting with
  | none => some { s with
      txid := s.txid + 1
      waiting := some a
      qemuReq := s.qemuReq.send (a.request (s.txid + 1)) }
  | some _ => none

/-- The receive of the access that waits, and its return. -/
def MmioState.recv (warnMs : Int) (env : RecvEnv) (s : MmioState) :
    Option (Access × Option ZFrame × MmioState) :=
  s.waiting.bind fun a => (accZframeRecvLogged warnMs env s.qemuResp).map fun r =>
    (a, r.1, { s with waiting := none, qemuResp := r.2 })

theorem MmioState.call_eq_some {s s' : MmioState} {a : Access} (h : s.call a = some s') :
    s.waiting = none ∧ s' = { s with
      txid := s.txid + 1
      waiting := some a
      qemuReq := s.qemuReq.send (a.request (s.txid + 1)) } := by
  unfold call at h
  split at h
  · next hnone =>
    cases h
    exact ⟨hnone, rfl⟩
  · exact absurd h (by simp)

/-- A receive that returned: nothing but `waiting` and the `qemu_resp` queue changed. -/
theorem MmioState.recv_eq_some {warnMs : Int} {env : RecvEnv} {s s' : MmioState} {a : Access}
    {r : Option ZFrame} (h : s.recv warnMs env = some (a, r, s')) :
    s.waiting = some a ∧ ∃ q, accZframeRecvLogged warnMs env s.qemuResp = some (r, q) ∧
      s' = { s with waiting := none, qemuResp := q } := by
  unfold recv at h
  obtain ⟨a', ha, hmap⟩ := Option.bind_eq_some_iff.mp h
  obtain ⟨⟨r', q⟩, hrecv, heq⟩ := Option.map_eq_some_iff.mp hmap
  cases heq
  exact ⟨ha, q, hrecv, rfl⟩

end QemuHdlSim
