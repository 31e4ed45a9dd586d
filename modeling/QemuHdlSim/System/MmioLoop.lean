import QemuHdlSim.Bridge.Ip
import QemuHdlSim.Device.Mmio
import QemuHdlSim.Infra.Axi

/-!
# The MMIO path as a closed loop

A guest access goes through the callback of the device, `C_poll`, one of the two masters, an AXI
slave, and back. The slave is a RAM that is always ready: it applies strobed bytes to, and reads
full bus words from, a byte memory indexed by AXI address, and sends its responses when it likes.

One edge has an `Env`: whether the poller reports the request that is queued, what it reports
otherwise (the `INIT` frame, the answer to a DMA read, nothing), whether the RAM sends a response
that is due, and whatever the DMA side does.
-/

namespace QemuHdlSim

open Infra Axi4Ip

variable {p : BusParams}

/-! ## The RAM -/

/-- The slave: its memory, and the bursts it has taken the address of, with the next beat. -/
structure Ram where
  mem : Mem
  aw : Option (Axi.Burst × Nat)
  bPending : Bool
  ar : Option (Axi.Burst × Nat)

namespace Ram

/-- No burst and no response is open. -/
def idle (m : Mem) : Ram where
  mem := m
  aw := none
  bPending := false
  ar := none

/-- The master-side inputs the RAM drives. -/
def drive (r : Ram) (respond : Bool) (i : Input p) : Input p :=
  { i with
    iMArready := true
    iMAwready := true
    iMWready := true
    iMBvalid := r.bPending && respond
    iMRvalid := r.ar.isSome && respond
    iMRdata := fun l =>
      match r.ar with
      | some (b, k) => r.mem (b.laneAddr p.stbw k l)
      | none => 0
    iMRlast :=
      match r.ar with
      | some (b, k) => decide (k = b.len)
      | none => false }

/-- The memory after the strobed bytes of beat `k` were applied. -/
def writeLanes (mem : Mem) (b : Axi.Burst) (k : Nat) (data : BusWord p) (strb : BitVec p.stbw) :
    Mem :=
  fun a =>
    if b.laneAddr p.stbw k (a % p.stbw) = a ∧ strb.getLsbD (a % p.stbw) = true
    then data.lane (a % p.stbw) else mem a

/-- The B channel: the write is answered. -/
def sendB (r : Ram) (respond : Bool) : Ram := if respond then { r with bPending := false } else r

/-- The R channel: a beat is sent when `rready` is high. -/
def sendR (r : Ram) (respond : Bool) (s : Axi4MR.State) : Ram :=
  match r.ar with
  | some (b, k) =>
    if respond && s.rMRready then { r with ar := if k = b.len then none else some (b, k + 1) }
    else r
  | none => r

/-- The AR channel. -/
def takeAr (r : Ram) (s : Axi4MR.State) : Ram :=
  if s.rMArvalid then
    { r with ar := some (⟨s.rAddr.toNat, s.rSize.toNat, s.rLen.toNat⟩, 0) }
  else r

/-- The AW channel. -/
def takeAw (r : Ram) (s : Axi4MW.State p) : Ram :=
  if s.rMAwvalid then
    { r with aw := some (⟨s.rAddr.toNat, s.rSize.toNat, s.rLen.toNat⟩, 0) }
  else r

/-- The W channel. -/
def takeW (r : Ram) (s : Axi4MW.State p) : Ram :=
  match r.aw with
  | some (b, k) =>
    if s.rMWvalid then
      { r with
        mem := writeLanes r.mem b k s.rMWdata s.rMWstrb
        aw := if s.rMLast then none else some (b, k + 1)
        bPending := r.bPending || s.rMLast }
    else r
  | none => r

/-- One edge, as the RAM sees the two masters. -/
def step (r : Ram) (respond : Bool) (mr : Axi4MR.State) (mw : Axi4MW.State p) : Ram :=
  (((((r.sendB respond).sendR respond mr).takeAr mr).takeAw mw).takeW mw)

end Ram

/-! ## The loop -/

/-- What the poller reports when it does not report a request. -/
inductive OtherSock where
  | none
  | initsock
  | hdlResp (frame : ACCData)

/-- As an outcome of `zpoller_wait`. -/
def OtherSock.sock : OtherSock → PollSock
  | .none => .none
  | .initsock => .initsock
  | .hdlResp f => .hdlResp f

/-- The answer to a DMA read fits the data variable. -/
def OtherSock.Fits (busw : Nat) : OtherSock → Prop
  | .hdlResp f => f.address.toNat % busw + f.dataSize.toNat ≤ buffSize
  | _ => True

/-- What one edge meets. -/
structure Env (p : BusParams) where
  /-- The poller reports the request, if one is queued. -/
  pollsRequest : Bool
  /-- What it reports otherwise. -/
  other : OtherSock
  /-- The RAM sends a response that is due. -/
  respond : Bool
  /-- The inputs of the DMA side. -/
  dma : Input p
  /-- What lies under the frames the C code builds. -/
  stack : ACCData

/-- The IP, the RAM, and the two queues of the MMIO path, oldest frame first. -/
structure Loop (p : BusParams) where
  ip : State p
  ram : Ram
  qemuReq : List ACCData
  qemuResp : List ACCData

namespace Loop

/-- What `C_poll` finds on this edge, and what is left of the queue. -/
def poll (l : Loop p) (e : Env p) : PollSock × List ACCData :=
  match l.qemuReq, e.pollsRequest with
  | f :: q, true => (.qemuReq f, q)
  | q, _ => (e.other.sock, q)

/-- The AXI inputs of this edge. -/
def input (l : Loop p) (e : Env p) : Input p := l.ram.drive e.respond e.dma

/-- The frames this edge sends on `qemu_resp`. -/
def frames (l : Loop p) (e : Env p) : Option (List ACCData) :=
  respFrames e.stack l.ip (l.input e)

/-- One edge. -/
def edge (conf : ACCConf) (l : Loop p) (e : Env p) : Option (Loop p) :=
  (Axi4Ip.edge conf (l.poll e).1 l.ip (l.input e)).bind fun r =>
    (l.frames e).map fun fs => {
      ip := r.1
      ram := l.ram.step e.respond l.ip.mr l.ip.mw
      qemuReq := (l.poll e).2
      qemuResp := l.qemuResp ++ fs }

/--
One guest access over the edges `es`: the callback sends the request, and returns with what the
oldest answer decodes to; without an answer by then it has not returned.
-/
def access (conf : ACCConf) (txid : BitVec 64) (l : Loop p) (a : Access) (es : List (Env p)) :
    Option (Loop p × Option (BitVec 64)) :=
  (runM (edge conf) { l with qemuReq := l.qemuReq ++ [a.request txid] } es).bind fun l' =>
    match l'.qemuResp with
    | f :: q => some ({ l' with qemuResp := q }, a.result (some ⟨sizeofACCData, f⟩))
    | [] => none

/-- A sequence of accesses, each with its edges; the results in order. -/
def run (conf : ACCConf) : BitVec 64 → Loop p → List (Access × List (Env p)) →
    Option (Loop p × List (Option (BitVec 64)))
  | _, l, [] => some (l, [])
  | txid, l, (a, es) :: rest => (l.access conf (txid + 1) a es).bind fun r =>
    (run conf (txid + 1) r.1 rest).map fun r' => (r'.1, r.2 :: r'.2)

/-! ## What an edge sends -/

theorem frames_eq (l : Loop p) (e : Env p) :
    l.frames e = some (
      (respReadCalls l.ip (l.input e)).map
        (fun c => respReadFrame p.stbw e.stack c.addr c.dataTmp) ++
      (respWriteCalls l.ip (l.input e)).map fun _ => e.stack) := by
  have hw : 0 < p.stbw ∧ p.stbw ≤ buffSize :=
    ⟨p.stbw_pos, Nat.le_trans p.stbw_le (by rw [buffSize_eq]; omega)⟩
  have hread : (respReadCalls l.ip (l.input e)).mapM
      (fun c => cRespRead p.stbw e.stack c.addr c.dataTmp)
      = some ((respReadCalls l.ip (l.input e)).map
          fun c => respReadFrame p.stbw e.stack c.addr c.dataTmp) := by
    simp only [cRespRead_eq hw]
    exact List.mapM_pure
  unfold frames respFrames
  rw [hread]
  rfl

theorem respReadCalls_nil {l : Loop p} {e : Env p}
    (hr : (l.ram.ar.isSome && e.respond) = false) : respReadCalls l.ip (l.input e) = [] := by
  unfold respReadCalls
  rw [Axi4MR.cReq_of_not_finishes]
  · exact ite_self []
  · rintro ⟨_, _, hv⟩
    exact absurd (hv.symm.trans hr) (by decide)

theorem respWriteCalls_nil {l : Loop p} {e : Env p}
    (hb : (l.ram.bPending && e.respond) = false) : respWriteCalls l.ip (l.input e) = [] :=
  if_neg (by rw [show (mwInput l.ip (l.input e)).iMBvalid = false from hb]; decide)

/-- Without a response of the RAM nothing is sent. -/
theorem frames_nil {l : Loop p} {e : Env p} (hr : (l.ram.ar.isSome && e.respond) = false)
    (hb : (l.ram.bPending && e.respond) = false) : l.frames e = some [] := by
  rw [frames_eq, respReadCalls_nil hr, respWriteCalls_nil hb]
  rfl

/-- The answer to a read: the data from the lane of the address on. -/
theorem frames_read {l : Loop p} {e : Env p} (hout : 100 ≤ l.ip.edges)
    (hf : Axi4MR.Finishes l.ip.mr (mrInput l.ip (l.input e)))
    (hb : (l.ram.bPending && e.respond) = false) :
    l.frames e = some [respReadFrame p.stbw e.stack l.ip.mr.rAddr
      (l.ip.mr.rDataTmp.copyIn (l.ip.mr.rLenCnt.toNat * p.stbw)
        (l.input e).iMRdata.lane p.stbw)] := by
  have hread : respReadCalls l.ip (l.input e) = _ :=
    (if_neg (by omega)).trans (Axi4MR.cReq_of_finishes hf)
  rw [frames_eq, hread, respWriteCalls_nil hb]
  rfl

/-- The answer to a write. -/
theorem frames_write {l : Loop p} {e : Env p} (hr : (l.ram.ar.isSome && e.respond) = false)
    (hb : (l.ram.bPending && e.respond) = true) : l.frames e = some [e.stack] := by
  have hwrite : respWriteCalls l.ip (l.input e) = [()] := if_pos hb
  rw [frames_eq, respReadCalls_nil hr, hwrite]
  rfl

/-- An edge on which the poller does not report the request. -/
theorem edge_of_not_polled {l : Loop p} {e : Env p} {fs : List ACCData} (conf : ACCConf)
    (hfits : e.other.Fits p.stbw) (hpoll : l.qemuReq = [] ∨ e.pollsRequest = false)
    (hfs : l.frames e = some fs) :
    ∃ v, v.reqType ≠ .mRd ∧ v.reqType ≠ .mWr ∧ l.edge conf e = some {
      ip := next l.ip (l.input e) v
      ram := l.ram.step e.respond l.ip.mr l.ip.mw
      qemuReq := l.qemuReq
      qemuResp := l.qemuResp ++ fs } := by
  have hsock : l.poll e = (e.other.sock, l.qemuReq) := by
    unfold poll
    rcases hpoll with h | h
    · rw [h]
    · rw [h]
      cases l.qemuReq <;> rfl
  unfold edge Axi4Ip.edge
  rw [hsock, hfs]
  cases hother : e.other with
  | none => exact ⟨{ l.ip.vars with reqType := .noop }, by simp, by simp, rfl⟩
  | initsock => exact ⟨{ l.ip.vars with reqType := .noop }, by simp, by simp, rfl⟩
  | hdlResp f =>
    have hfit : f.address.toNat % p.stbw + f.dataSize.toNat ≤ buffSize := by
      rw [hother] at hfits
      exact hfits
    simp only [OtherSock.sock, cPoll, cPollHdlResp_eq hfit]
    exact ⟨_, by simp, by simp, rfl⟩

/-- The edge on which the poller reports the request. -/
theorem edge_of_polled {l : Loop p} {e : Env p} {fs q : List ACCData} {f : ACCData}
    {v : PollVars} {conf : ACCConf} (hreq : l.qemuReq = f :: q) (hpoll : e.pollsRequest = true)
    (hv : cPollQemuReq p.stbw conf f l.ip.vars = some v) (hfs : l.frames e = some fs) :
    l.edge conf e = some {
      ip := next l.ip (l.input e) v
      ram := l.ram.step e.respond l.ip.mr l.ip.mw
      qemuReq := q
      qemuResp := l.qemuResp ++ fs } := by
  have hsock : l.poll e = (.qemuReq f, q) := by
    unfold poll
    rw [hreq, hpoll]
  unfold edge Axi4Ip.edge
  rw [hsock, hfs]
  simp only [cPoll, hv]
  rfl

end Loop

end QemuHdlSim
