import QemuHdlSim.Bridge.Ip
import QemuHdlSim.Device.Mmio
import QemuHdlSim.Infra.Path

/-!
# The whole co-simulation

QEMU and the HDL simulation are two processes. They share four pipes: `qemu_req` and `qemu_resp`
for the accesses of the guest, `hdl_req` and `hdl_resp` for DMA and interrupts. Each pipe is
reliable and in order; nothing is known about how long a frame takes on one pipe compared with
another.

On the QEMU side two things run, and never at once, since both hold the big lock: an MMIO access
from its callback to its return, and `handle_hdl_request`, which the main loop activates and
which serves frames until `hdl_req` is empty. On the HDL side there are the clock edges and the
interrupt request. A run is any interleaving.

The guest memory here is what `handle_hdl_request` makes of it; the guest's own stores are left
out.
-/

namespace QemuHdlSim.Cosim

open Infra Axi4Ip

variable {p : BusParams}

/-! ## States and events -/

/-- Both processes and the pipes between them. -/
structure State (p : BusParams) where
  ip : Axi4Ip.State p
  /-- The MMIO side of the device, with `qemu_req` and `qemu_resp`. -/
  dev : MmioState
  hdlReq : Fifo ACCData
  hdlResp : Fifo ACCData
  mem : Mem
  notified : List (BitVec 32)
  /-- `handle_hdl_request` is active. -/
  handling : Bool

/-- Time zero, with the guest memory `mem`. -/
def init (mem : Mem) : State p where
  ip := Axi4Ip.init
  dev := MmioState.init
  hdlReq := Fifo.empty
  hdlResp := Fifo.empty
  mem := mem
  notified := []
  handling := false

/-- What the device did to its surroundings so far. -/
def State.host (s : State p) : Host := ⟨s.mem, s.hdlResp.sent, s.notified⟩

/-- Which socket `zpoller_wait` reports to `C_poll`. -/
inductive PollSel where
  | none
  | initsock
  | qemuReq
  | hdlResp

/-- What lies under the frames that the C functions build. -/
structure Stacks where
  resp : ACCData
  reqRead : ACCData
  reqWrite : ACCData

/-- What one clock edge meets. -/
structure Edge (p : BusParams) where
  poll : PollSel
  inp : Input p
  stack : Stacks
  /-- Of two requests made on this edge the write is sent first. -/
  writeFirst : Bool

/-- The pipes. -/
inductive Pipe where
  | qemuReq
  | qemuResp
  | hdlReq
  | hdlResp

/-- What can happen. -/
inductive Event (p : BusParams) where
  /-- A rising clock edge. -/
  | edge (e : Edge p)
  /-- `cfg_interrupt_msix_int` rises. -/
  | interrupt (msixData : BitVec 32) (stack : ACCData)
  /-- The oldest frame in flight on a pipe arrives. -/
  | deliver (pipe : Pipe)
  /-- The guest makes an access. -/
  | call (a : Access)
  /-- The access receives, and returns. -/
  | recv (env : RecvEnv)
  /-- The main loop calls `handle_hdl_request`. -/
  | activate
  /-- The loop of `handle_hdl_request` serves a frame. -/
  | iterate
  /-- The poller reports no frame, and `handle_hdl_request` returns. -/
  | finish

/-! ## One step -/

/-- What `C_poll` gets from the socket that is reported. -/
def State.poll (s : State p) : PollSel → Option (PollSock × State p)
  | .none => some (.none, s)
  | .initsock => some (.initsock, s)
  | .qemuReq => s.dev.qemuReq.recv?.map fun r =>
      (.qemuReq r.1, { s with dev := { s.dev with qemuReq := r.2 } })
  | .hdlResp => s.hdlResp.recv?.map fun r => (.hdlResp r.1, { s with hdlResp := r.2 })

/-- The frames this edge sends on `hdl_req`. -/
def Edge.requests (e : Edge p) (s : Axi4Ip.State p) : Option (List ACCData) :=
  (reqWriteFrames e.stack.reqWrite s e.inp).map fun ws =>
    if e.writeFirst then ws ++ reqReadFrames e.stack.reqRead s e.inp
    else reqReadFrames e.stack.reqRead s e.inp ++ ws

/-- A clock edge. -/
def State.edge (conf : ACCConf) (s : State p) (e : Edge p) : Option (State p) :=
  (s.poll e.poll).bind fun (sock, t) =>
    (Axi4Ip.edge conf sock s.ip e.inp).bind fun r =>
      (respFrames e.stack.resp s.ip e.inp).bind fun resps =>
        (e.requests s.ip).map fun reqs => { t with
          ip := r.1
          dev := { t.dev with
            qemuResp := t.dev.qemuResp.sendAll (resps.map fun f => ⟨sizeofACCData, f⟩) }
          hdlReq := t.hdlReq.sendAll reqs }

/-- The frame of an interrupt request, if one is made. -/
def State.interruptFrames (s : State p) (msixData : BitVec 32) (stack : ACCData) :
    List ACCData :=
  (reqInterruptCalls s.ip msixData).map (cReqInterrupt stack)

/-- A delivery. -/
def State.deliver (s : State p) : Pipe → Option (State p)
  | .qemuReq => s.dev.qemuReq.deliver.map fun q => { s with dev := { s.dev with qemuReq := q } }
  | .qemuResp => s.dev.qemuResp.deliver.map fun q => { s with dev := { s.dev with qemuResp := q } }
  | .hdlReq => s.hdlReq.deliver.map fun q => { s with hdlReq := q }
  | .hdlResp => s.hdlResp.deliver.map fun q => { s with hdlResp := q }

/-- One iteration of `handle_hdl_request` on the frame at the head of `hdl_req`. -/
def State.serve (s : State p) : Option (State p) :=
  s.hdlReq.recv?.bind fun x => (serveFrame s.mem x.1).map fun r => { s with
    hdlReq := x.2
    mem := r.mem
    hdlResp := s.hdlResp.sendAll r.resp
    notified := s.notified ++ r.notify }

/-- One step; `none` when the event cannot happen. -/
def step (conf : ACCConf) (warnMs : Int) (s : State p) : Event p → Option (State p)
  | .edge e => s.edge conf e
  | .interrupt d stack => some { s with hdlReq := s.hdlReq.sendAll (s.interruptFrames d stack) }
  | .deliver pipe => s.deliver pipe
  | .call a =>
    -- the handler holds the lock until it returns
    if s.handling then none else (s.dev.call a).map fun d => { s with dev := d }
  | .recv env => (s.dev.recv warnMs env).map fun r => { s with dev := r.2.2 }
  | .activate =>
    -- and so does an access that waits
    if s.handling || s.dev.waiting.isSome then none else some { s with handling := true }
  | .iterate => if s.handling then s.serve else none
  | .finish =>
    if s.handling ∧ s.hdlReq.delivered ≤ s.hdlReq.taken then some { s with handling := false }
    else none

/-- A run, with the state each event happened in. -/
abbrev Run (conf : ACCConf) (warnMs : Int) (s : State p) (tr : List (State p × Event p))
    (s' : State p) : Prop :=
  Path (fun a e b => step conf warnMs a e = some b) s tr s'

/-- The requests of the HDL side that an event issues, in order. -/
def issued (s : State p) : Event p → List ACCData
  | .edge e => (e.requests s.ip).getD []
  | .interrupt d stack => s.interruptFrames d stack
  | _ => []

/-! ## What a step changes -/

variable {conf : ACCConf} {warnMs : Int} {s s' : State p}

/-- Taking a frame for `C_poll` moves a cursor of `qemu_req` or `hdl_resp`. -/
theorem State.poll_eq_some {t : State p} {sel : PollSel} {sock : PollSock}
    (h : s.poll sel = some (sock, t)) :
    t.hdlReq = s.hdlReq ∧ t.host = s.host ∧ t.handling = s.handling ∧
      t.dev.waiting = s.dev.waiting ∧ t.dev.qemuResp = s.dev.qemuResp := by
  cases sel with
  | none =>
    cases h
    exact ⟨rfl, rfl, rfl, rfl, rfl⟩
  | initsock =>
    cases h
    exact ⟨rfl, rfl, rfl, rfl, rfl⟩
  | qemuReq =>
    obtain ⟨⟨f, q⟩, _, heq⟩ := Option.map_eq_some_iff.mp h
    cases heq
    exact ⟨rfl, rfl, rfl, rfl, rfl⟩
  | hdlResp =>
    obtain ⟨⟨f, q⟩, hq, heq⟩ := Option.map_eq_some_iff.mp h
    cases heq
    obtain ⟨_, _, hsent, _⟩ := Fifo.recv?_eq_some hq
    refine ⟨rfl, ?_, rfl, rfl, rfl⟩
    unfold host
    rw [hsent]

/-- **What a clock edge does**: what it sends on the two pipes to QEMU, and nothing to the host. -/
theorem State.edge_eq_some {e : Edge p} (h : s.edge conf e = some s') :
    ∃ resps reqs, respFrames e.stack.resp s.ip e.inp = some resps ∧
      e.requests s.ip = some reqs ∧ s'.hdlReq = s.hdlReq.sendAll reqs ∧ s'.host = s.host ∧
      s'.handling = s.handling ∧ s'.dev.waiting = s.dev.waiting ∧
      s'.dev.qemuResp = s.dev.qemuResp.sendAll (resps.map fun f => ⟨sizeofACCData, f⟩) ∧
      ∃ sock, clock conf s.ip ⟨sock, e.inp⟩ = some s'.ip := by
  obtain ⟨⟨sock, t⟩, hpoll, h⟩ := Option.bind_eq_some_iff.mp h
  obtain ⟨r, hedge, h⟩ := Option.bind_eq_some_iff.mp h
  obtain ⟨resps, hresps, h⟩ := Option.bind_eq_some_iff.mp h
  obtain ⟨reqs, hreqs, rfl⟩ := Option.map_eq_some_iff.mp h
  obtain ⟨hreq, hhost, hhandling, hwait, hresp⟩ := poll_eq_some hpoll
  refine ⟨resps, reqs, hresps, hreqs, by rw [hreq], hhost, hhandling, hwait, by rw [hresp], sock,
    ?_⟩
  unfold clock
  rw [hedge]
  rfl

theorem State.deliver_eq_some {pipe : Pipe} (h : s.deliver pipe = some s') :
    s'.hdlReq.sent = s.hdlReq.sent ∧ s'.hdlReq.taken = s.hdlReq.taken ∧
      s.hdlReq.delivered ≤ s'.hdlReq.delivered ∧ s'.host = s.host ∧
      s'.handling = s.handling ∧ s'.dev.waiting = s.dev.waiting ∧ s'.ip = s.ip ∧
      s'.dev.qemuResp.sent = s.dev.qemuResp.sent := by
  cases pipe with
  | qemuReq =>
    obtain ⟨q, _, rfl⟩ := Option.map_eq_some_iff.mp h
    exact ⟨rfl, rfl, Nat.le_refl _, rfl, rfl, rfl, rfl, rfl⟩
  | qemuResp =>
    obtain ⟨q, hq, rfl⟩ := Option.map_eq_some_iff.mp h
    exact ⟨rfl, rfl, Nat.le_refl _, rfl, rfl, rfl, rfl, (Fifo.deliver_eq_some hq).1⟩
  | hdlReq =>
    obtain ⟨q, hq, rfl⟩ := Option.map_eq_some_iff.mp h
    obtain ⟨hsent, htaken, hdel⟩ := Fifo.deliver_eq_some hq
    exact ⟨hsent, htaken, by show _ ≤ q.delivered; omega, rfl, rfl, rfl, rfl, rfl⟩
  | hdlResp =>
    obtain ⟨q, hq, rfl⟩ := Option.map_eq_some_iff.mp h
    refine ⟨rfl, rfl, Nat.le_refl _, ?_, rfl, rfl, rfl, rfl⟩
    unfold host
    rw [(Fifo.deliver_eq_some hq).1]

/-- **Serving a frame**: the next one of the log, with the effect of `serveFrame`. -/
theorem State.serve_eq_some (h : s.serve = some s') :
    ∃ f r, s.hdlReq.sent[s.hdlReq.taken]? = some f ∧ serveFrame s.mem f = some r ∧
      s.hdlReq.taken < s.hdlReq.delivered ∧ s'.hdlReq.sent = s.hdlReq.sent ∧
      s'.hdlReq.taken = s.hdlReq.taken + 1 ∧ s'.hdlReq.delivered = s.hdlReq.delivered ∧
      s'.host = s.host.apply r ∧ s'.handling = s.handling ∧ s'.dev = s.dev ∧ s'.ip = s.ip := by
  obtain ⟨⟨f, q⟩, hq, h⟩ := Option.bind_eq_some_iff.mp h
  obtain ⟨r, hr, rfl⟩ := Option.map_eq_some_iff.mp h
  obtain ⟨hlt, hf, hsent, htaken, hdel⟩ := Fifo.recv?_eq_some hq
  refine ⟨f, r, hf, hr, hlt, hsent, htaken, hdel, ?_, rfl, rfl, rfl⟩
  simp [host, Host.apply]

theorem step_call {a : Access} (h : step conf warnMs s (.call a) = some s') :
    s.handling = false ∧ s.dev.waiting = none ∧
      ∃ d, s' = { s with dev := d } ∧ d.waiting = some a := by
  simp only [step] at h
  split at h
  · exact absurd h (by simp)
  · next hh =>
    obtain ⟨d, hcall, rfl⟩ := Option.map_eq_some_iff.mp h
    obtain ⟨hwait, rfl⟩ := MmioState.call_eq_some hcall
    exact ⟨by simpa using hh, hwait, _, rfl, rfl⟩

theorem step_recv {env : RecvEnv} (h : step conf warnMs s (.recv env) = some s') :
    (∃ a, s.dev.waiting = some a) ∧ ∃ d, s' = { s with dev := d } ∧ d.waiting = none := by
  obtain ⟨⟨a, r, d⟩, hrecv, rfl⟩ := Option.map_eq_some_iff.mp h
  obtain ⟨hwait, q, _, rfl⟩ := MmioState.recv_eq_some hrecv
  exact ⟨⟨a, hwait⟩, _, rfl, rfl⟩

theorem step_activate (h : step conf warnMs s .activate = some s') :
    s.dev.waiting = none ∧ s' = { s with handling := true } := by
  simp only [step] at h
  split at h
  · exact absurd h (by simp)
  · next hh =>
    cases h
    simp only [Bool.or_eq_true, not_or, Option.not_isSome_iff_eq_none] at hh
    exact ⟨hh.2, rfl⟩

theorem step_iterate (h : step conf warnMs s .iterate = some s') :
    s.handling = true ∧ s.serve = some s' := by
  simp only [step] at h
  split at h
  · next hh => exact ⟨hh, h⟩
  · exact absurd h (by simp)

theorem step_finish (h : step conf warnMs s .finish = some s') :
    s.hdlReq.delivered ≤ s.hdlReq.taken ∧ s' = { s with handling := false } := by
  simp only [step] at h
  split at h
  · next hh =>
    cases h
    exact ⟨hh.2, rfl⟩
  · exact absurd h (by simp)

/-- A step of QEMU's own control: the start and the end of an access or of the handler. -/
def Event.IsControl : Event p → Prop
  | .call _ => True
  | .recv _ => True
  | .activate => True
  | .finish => True
  | _ => False

/-- **What a step can be.** -/
theorem step_cases {e : Event p} (h : step conf warnMs s e = some s') :
    (∃ x, e = .edge x ∧ s.edge conf x = some s') ∨
      (∃ d stack, e = .interrupt d stack ∧
        s' = { s with hdlReq := s.hdlReq.sendAll (s.interruptFrames d stack) }) ∨
      (∃ pipe, e = .deliver pipe ∧ s.deliver pipe = some s') ∨
      (e = .iterate ∧ s.handling = true ∧ s.serve = some s') ∨
      (e.IsControl ∧ ∃ d b, s' = { s with dev := d, handling := b }) := by
  cases e with
  | edge x => exact Or.inl ⟨x, rfl, h⟩
  | interrupt d stack =>
    cases h
    exact Or.inr (Or.inl ⟨d, stack, rfl, rfl⟩)
  | deliver pipe => exact Or.inr (Or.inr (Or.inl ⟨pipe, rfl, h⟩))
  | iterate => exact Or.inr (Or.inr (Or.inr (Or.inl ⟨rfl, step_iterate h⟩)))
  | call a =>
    obtain ⟨_, _, d, rfl, _⟩ := step_call h
    exact Or.inr (Or.inr (Or.inr (Or.inr ⟨trivial, d, _, rfl⟩)))
  | recv env =>
    obtain ⟨_, d, rfl, _⟩ := step_recv h
    exact Or.inr (Or.inr (Or.inr (Or.inr ⟨trivial, d, _, rfl⟩)))
  | activate =>
    obtain ⟨_, rfl⟩ := step_activate h
    exact Or.inr (Or.inr (Or.inr (Or.inr ⟨trivial, _, _, rfl⟩)))
  | finish =>
    obtain ⟨_, rfl⟩ := step_finish h
    exact Or.inr (Or.inr (Or.inr (Or.inr ⟨trivial, _, _, rfl⟩)))

theorem issued_of_isControl {e : Event p} (h : e.IsControl) : issued s e = [] := by
  cases e with
  | call => rfl
  | recv => rfl
  | activate => rfl
  | finish => rfl
  | edge => exact h.elim
  | interrupt => exact h.elim
  | deliver => exact h.elim
  | iterate => exact h.elim

/-- The requests a step issues go to the end of `hdl_req`. -/
theorem sent_step {e : Event p} (h : step conf warnMs s e = some s') :
    s'.hdlReq.sent = s.hdlReq.sent ++ issued s e := by
  rcases step_cases h with ⟨x, rfl, hx⟩ | ⟨d, stack, rfl, rfl⟩ | ⟨pipe, rfl, hd⟩ |
    ⟨rfl, _, hserve⟩ | ⟨hc, d, b, rfl⟩
  · obtain ⟨_, reqs, _, hreqs, hsent, _⟩ := State.edge_eq_some hx
    simp [issued, hreqs, hsent]
  · simp [issued]
  · simp [issued, (State.deliver_eq_some hd).1]
  · obtain ⟨_, _, _, _, _, hsent, _⟩ := State.serve_eq_some hserve
    simp [issued, hsent]
  · simp [issued_of_isControl hc]

/-- Only an iteration of the handler takes frames off `hdl_req`, and only it touches the host. -/
theorem served_step {e : Event p} (h : step conf warnMs s e = some s') :
    (s.handling = true ∧ s.serve = some s') ∨
      (s'.hdlReq.taken = s.hdlReq.taken ∧ s.hdlReq.delivered ≤ s'.hdlReq.delivered ∧
        s'.host = s.host) := by
  rcases step_cases h with ⟨x, rfl, hx⟩ | ⟨d, stack, rfl, rfl⟩ | ⟨pipe, rfl, hd⟩ |
    ⟨rfl, hh, hserve⟩ | ⟨_, d, b, rfl⟩
  · obtain ⟨_, reqs, _, _, hreq, hhost, _⟩ := State.edge_eq_some hx
    exact Or.inr ⟨by simp [hreq], by simp [hreq], hhost⟩
  · exact Or.inr ⟨by simp, by simp, rfl⟩
  · obtain ⟨_, htaken, hdel, hhost, _⟩ := State.deliver_eq_some hd
    exact Or.inr ⟨htaken, hdel, hhost⟩
  · exact Or.inl ⟨hh, hserve⟩
  · exact Or.inr ⟨rfl, Nat.le_refl _, rfl⟩

/-! ## Runs -/

/-- The pipe holds the requests of a run in the order they were issued. -/
theorem sent_run {mem : Mem} {tr : List (State p × Event p)} (h : Run conf warnMs (init mem) tr s) :
    s.hdlReq.sent = events issued tr := by
  have hsent := h.accumulate (fun a => a.hdlReq.sent) issued (fun _ _ _ hb => sent_step hb)
  rw [hsent]
  exact List.nil_append _

/-- The host is what executing the frames taken so far, one by one, makes of it. -/
def Executed (mem : Mem) (s : State p) : Prop :=
  handleHdlRequest ⟨mem, [], []⟩ (s.hdlReq.sent.take s.hdlReq.taken) = some s.host

/-- **One step keeps it**: an iteration executes the next frame. -/
theorem Executed.step {mem : Mem} {e : Event p} (hx : Executed mem s)
    (h : step conf warnMs s e = some s') : Executed mem s' := by
  unfold Executed at hx ⊢
  rcases served_step h with ⟨_, hserve⟩ | ⟨htaken, _, hhost⟩
  · obtain ⟨f, r, hf, hr, _, hsent, htaken, _, hhost, _⟩ := State.serve_eq_some hserve
    rw [hsent, htaken, List.take_add_one, hf, handleHdlRequest_append, hx, hhost, Option.bind_some]
    show handleHdlRequest s.host [f] = _
    rw [handleHdlRequest_cons, show s.host.mem = s.mem from rfl, hr]
    rfl
  · rw [sent_step h, htaken, hhost, List.take_append_of_le_length s.hdlReq.taken_le_sent]
    exact hx

/-- **Executed one by one, in issue order**, over any run. -/
theorem executed_run {mem : Mem} {tr : List (State p × Event p)}
    (h : Run conf warnMs (init mem) tr s) : Executed mem s :=
  h.invariant (P := fun _ _ => True) rfl (fun _ _ => trivial) (fun _ _ _ ha _ hb => ha.step hb)

/-! ## Acknowledged writes -/

/-- The writes among the requests of an edge are its `C_req_write` calls. -/
theorem Edge.requests_writes {e : Edge p} {t : Axi4Ip.State p} {reqs : List ACCData}
    (h : e.requests t = some reqs) :
    reqs.countP ACCData.isWrite = (reqWriteCalls t e.inp).length := by
  obtain ⟨ws, hws, rfl⟩ := Option.map_eq_some_iff.mp h
  obtain ⟨hlen, hmem⟩ := mapM_eq_some hws
  have hwrites : ws.countP ACCData.isWrite = (reqWriteCalls t e.inp).length := by
    rw [← hlen, List.countP_eq_length]
    intro f hf
    obtain ⟨c, _, hc⟩ := hmem f hf
    exact decide_eq_true (cReqWrite_op hc)
  have hreads : (reqReadFrames e.stack.reqRead t e.inp).countP ACCData.isWrite = 0 := by
    rw [List.countP_eq_zero]
    intro f hf
    obtain ⟨c, _, rfl⟩ := List.mem_map.mp hf
    simp [ACCData.isWrite, cReqRead]
  split
  · rw [List.countP_append, hwrites, hreads, Nat.add_zero]
  · rw [List.countP_append, hwrites, hreads, Nat.zero_add]

/-- The B handshake of a step, if there is one. -/
def bHandshakes (s : State p) : Event p → List Unit
  | .edge e => bHandshake s.ip e.inp
  | _ => []

/-- The response the write slave still owes. -/
def owedB (s : State p) : List Unit := Axi4SW.owedB s.ip.sw

/-- The responses that become owed in a step: one for each write it issues. -/
def creditB (s : State p) (e : Event p) : List Unit :=
  List.replicate ((issued s e).countP ACCData.isWrite) ()

/-- **The step law of the B channel.** -/
theorem b_step {e : Event p} (hw : SlavesWf s.ip) (h : step conf warnMs s e = some s') :
    SlavesWf s'.ip ∧ owedB s ++ creditB s e = bHandshakes s e ++ owedB s' := by
  -- what leaves the IP alone neither issues a write nor shows a response
  have hsame : s'.ip = s.ip → (issued s e).countP ACCData.isWrite = 0 → bHandshakes s e = [] →
      SlavesWf s'.ip ∧ owedB s ++ creditB s e = bHandshakes s e ++ owedB s' := by
    rintro hip hcount hb
    rw [creditB, owedB, owedB, hip, hcount, hb]
    exact ⟨hw, by simp⟩
  rcases step_cases h with ⟨x, rfl, hx⟩ | ⟨d, stack, rfl, rfl⟩ | ⟨pipe, rfl, hd⟩ |
    ⟨rfl, _, hserve⟩ | ⟨hc, d, b, rfl⟩
  · obtain ⟨_, reqs, _, hreqs, _, _, _, _, _, sock, hclock⟩ := State.edge_eq_some hx
    obtain ⟨v, r, _, hip⟩ := clock_eq_some hclock
    obtain ⟨hw', hlaw⟩ := hw.next x.inp v
    have hissued : issued s (.edge x) = reqs := by simp [issued, hreqs]
    rw [creditB, owedB, owedB, hip, hissued, Edge.requests_writes hreqs, ← List.map_const']
    exact ⟨hw', hlaw⟩
  · refine hsame rfl ?_ rfl
    rw [List.countP_eq_zero]
    intro f hf
    obtain ⟨v, _, rfl⟩ := List.mem_map.mp hf
    simp [ACCData.isWrite, cReqInterrupt]
  · exact hsame (State.deliver_eq_some hd).2.2.2.2.2.2.1 rfl rfl
  · obtain ⟨_, _, _, _, _, _, _, _, _, _, _, hip⟩ := State.serve_eq_some hserve
    exact hsame hip rfl rfl
  · refine hsame rfl (by rw [issued_of_isControl hc]; rfl) ?_
    cases e with
    | edge => exact hc.elim
    | _ => rfl

/-- Over a run, every write issued was acknowledged, except the one whose response is shown. -/
theorem b_run {mem : Mem} {tr : List (State p × Event p)} (h : Run conf warnMs (init mem) tr s) :
    (events issued tr).countP ACCData.isWrite
      = (events bHandshakes tr).length + (owedB s).length := by
  have h0 : (fun a : State p => SlavesWf a.ip) (init mem) := slavesWf_init
  have hlaw : owedB (init mem) ++ events creditB tr = events bHandshakes tr ++ owedB s :=
    h.conserve (P := fun _ _ => True) h0 (fun _ _ => trivial) (fun _ _ _ ha _ hb => b_step ha hb)
  have hcredit : (events creditB tr).length = (events issued tr).countP ACCData.isWrite := by
    simp [events, creditB, List.length_flatMap, List.countP_flatMap, Function.comp_def]
  have hlen := congrArg List.length hlaw
  rw [List.length_append, List.length_append, hcredit] at hlen
  rw [← hlen]
  exact (Nat.zero_add _).symm

/-! ## The handler -/

/-- The events of one activation of the handler. -/
def Event.IsHandler : Event p → Prop
  | .activate => True
  | .iterate => True
  | .finish => True
  | _ => False

/-- An iteration that the next frame allows. -/
theorem exists_iterate (conf : ACCConf) (warnMs : Int) (hh : s.handling = true)
    (hlt : s.hdlReq.taken < s.hdlReq.delivered) (hfits : ∀ f ∈ s.hdlReq.sent, f.Fits) :
    ∃ s', step conf warnMs s .iterate = some s' ∧ s'.handling = true ∧
      s'.hdlReq.sent = s.hdlReq.sent ∧ s'.hdlReq.taken = s.hdlReq.taken + 1 ∧
      s'.hdlReq.delivered = s.hdlReq.delivered := by
  obtain ⟨⟨f, q⟩, hq⟩ : ∃ x, s.hdlReq.recv? = some x := by
    rw [← Option.isSome_iff_exists, Option.isSome_iff_ne_none, Ne, Fifo.recv?_eq_none]
    omega
  obtain ⟨r, hr⟩ := serveFrame_of_fits s.mem
    (hfits f (List.mem_of_getElem? (Fifo.recv?_eq_some hq).2.1))
  have hserve : ∃ s', s.serve = some s' := by
    unfold State.serve
    rw [hq, Option.bind_some, hr]
    exact ⟨_, rfl⟩
  obtain ⟨s', hserve⟩ := hserve
  obtain ⟨_, _, _, _, _, hsent, htaken, hdel, _, hhandling, _⟩ := State.serve_eq_some hserve
  exact ⟨s', by rw [step, if_pos hh, hserve], hhandling.trans hh, hsent, htaken, hdel⟩

/-- **An active handler drains the queue** and returns. -/
theorem drains_of_handling (conf : ACCConf) (warnMs : Int) : ∀ (n : Nat) (s : State p),
    s.handling = true → s.hdlReq.delivered - s.hdlReq.taken = n → (∀ f ∈ s.hdlReq.sent, f.Fits) →
    ∃ es s', (∀ e ∈ es, e.IsHandler) ∧ runM (step conf warnMs) s es = some s' ∧
      s'.handling = false ∧ s'.hdlReq.taken = s.hdlReq.delivered ∧
      s'.hdlReq.sent = s.hdlReq.sent
  | 0, s, hh, hn, _ => by
    have hle : s.hdlReq.delivered ≤ s.hdlReq.taken := by omega
    refine ⟨[.finish], { s with handling := false }, by simp [Event.IsHandler], ?_, rfl,
      Nat.le_antisymm s.hdlReq.taken_le hle, rfl⟩
    rw [runM, step, if_pos ⟨hh, hle⟩]
    rfl
  | n + 1, s, hh, hn, hfits => by
    obtain ⟨t, hstep, hht, hsent, htaken, hdel⟩ :=
      exists_iterate conf warnMs hh (by omega) hfits
    obtain ⟨es, s', hes, hrun, hdone, htaken', hsent'⟩ :=
      drains_of_handling conf warnMs n t hht (by omega) (by rw [hsent]; exact hfits)
    refine ⟨.iterate :: es, s', ?_, ?_, hdone, htaken'.trans hdel, hsent'.trans hsent⟩
    · intro e he
      rcases List.mem_cons.mp he with rfl | he
      · trivial
      · exact hes e he
    · rw [runM, hstep]
      exact hrun

/-- Where no access waits, the main loop can have the queue drained. -/
theorem drains (conf : ACCConf) (warnMs : Int) (hfits : ∀ f ∈ s.hdlReq.sent, f.Fits)
    (hfree : s.handling = true ∨ s.dev.waiting = none) :
    ∃ es s', (∀ e ∈ es, e.IsHandler) ∧ runM (step conf warnMs) s es = some s' ∧
      s'.handling = false ∧ s'.hdlReq.taken = s.hdlReq.delivered ∧
      s'.hdlReq.sent = s.hdlReq.sent := by
  cases hh : s.handling with
  | true => exact drains_of_handling conf warnMs _ s hh rfl hfits
  | false =>
    have hwait : s.dev.waiting = none := by simpa [hh] using hfree
    obtain ⟨es, s', hes, hrun, hrest⟩ := drains_of_handling conf warnMs _
      { s with handling := true } rfl rfl hfits
    refine ⟨.activate :: es, s', ?_, ?_, hrest⟩
    · intro e he
      rcases List.mem_cons.mp he with rfl | he
      · trivial
      · exact hes e he
    · rw [runM, step, if_neg (by simp [hh, hwait])]
      exact hrun

/-! ## One of the two at a time -/

/-- The big lock: the handler is not active while an access waits. -/
def Exclusive (s : State p) : Prop := s.handling = true → s.dev.waiting = none

theorem Exclusive.step {e : Event p} (hx : Exclusive s) (h : step conf warnMs s e = some s') :
    Exclusive s' := by
  unfold Exclusive at *
  cases e with
  | edge x =>
    obtain ⟨_, _, _, _, _, _, hhandling, hwait, _⟩ := State.edge_eq_some h
    rwa [hhandling, hwait]
  | interrupt d stack =>
    cases h
    exact hx
  | deliver pipe =>
    obtain ⟨_, _, _, _, hhandling, hwait, _⟩ := State.deliver_eq_some h
    rwa [hhandling, hwait]
  | iterate =>
    obtain ⟨_, hserve⟩ := step_iterate h
    obtain ⟨_, _, _, _, _, _, _, _, _, hhandling, hdev, _⟩ := State.serve_eq_some hserve
    rwa [hhandling, hdev]
  | call a =>
    obtain ⟨hh, _, d, rfl, _⟩ := step_call h
    exact fun hh' => absurd (hh.symm.trans hh') (by decide)
  | recv env =>
    obtain ⟨_, d, rfl, hwait⟩ := step_recv h
    exact fun _ => hwait
  | activate =>
    obtain ⟨hwait, rfl⟩ := step_activate h
    exact fun _ => hwait
  | finish =>
    obtain ⟨_, rfl⟩ := step_finish h
    exact fun hh => absurd hh Bool.false_ne_true

theorem exclusive_run {mem : Mem} {tr : List (State p × Event p)}
    (h : Run conf warnMs (init mem) tr s) : Exclusive s :=
  h.invariant (P := fun _ _ => True) (fun hh => absurd hh Bool.false_ne_true) (fun _ _ => trivial)
    (fun _ _ _ ha _ hb => ha.step hb)

/-- The event is not the return of an access. -/
def Event.NotRecv : Event p → Prop
  | .recv _ => False
  | _ => True

/-- **While an access waits** nothing is taken off `hdl_req`, and the host stays as it is. -/
theorem waiting_step {e : Event p} (hx : Exclusive s) (hwait : s.dev.waiting ≠ none)
    (hne : e.NotRecv) (h : step conf warnMs s e = some s') :
    s'.dev.waiting ≠ none ∧ s'.hdlReq.taken = s.hdlReq.taken ∧ s'.host = s.host := by
  cases e with
  | edge x =>
    obtain ⟨_, reqs, _, _, hreq, hhost, _, hw, _⟩ := State.edge_eq_some h
    exact ⟨by rwa [hw], by simp [hreq], hhost⟩
  | interrupt d stack =>
    cases h
    exact ⟨hwait, by simp, rfl⟩
  | deliver pipe =>
    obtain ⟨_, htaken, _, hhost, _, hw, _⟩ := State.deliver_eq_some h
    exact ⟨by rwa [hw], htaken, hhost⟩
  | iterate => exact absurd (hx (step_iterate h).1) hwait
  | call a => exact absurd (step_call h).2.1 hwait
  | recv env => exact hne.elim
  | activate => exact absurd (step_activate h).1 hwait
  | finish =>
    obtain ⟨_, rfl⟩ := step_finish h
    exact ⟨hwait, rfl, rfl⟩

/-- So it is over any run in which the access does not return. -/
theorem waiting_run {tr : List (State p × Event p)} (h : Run conf warnMs s tr s')
    (hx : Exclusive s) (hwait : s.dev.waiting ≠ none) (hne : ∀ c ∈ tr, c.2.NotRecv) :
    s'.dev.waiting ≠ none ∧ s'.hdlReq.taken = s.hdlReq.taken ∧ s'.host = s.host := by
  let Waits : State p → Prop := fun a =>
    Exclusive a ∧ a.dev.waiting ≠ none ∧ a.hdlReq.taken = s.hdlReq.taken ∧ a.host = s.host
  have hwaits : Waits s' :=
    h.invariant (P := fun _ e => e.NotRecv) (show Waits s from ⟨hx, hwait, rfl, rfl⟩) hne (by
      rintro a e b ⟨hxa, hwa, hta, hha⟩ he hstep
      obtain ⟨hwb, htb, hhb⟩ := waiting_step hxa hwa he hstep
      exact ⟨hxa.step hstep, hwb, htb.trans hta, hhb.trans hha⟩)
  exact hwaits.2

/-! ## Through the reset, for the examples -/

/-- An edge in 64-bit co-simulation, with zeros on the stack. -/
def edgeOf (poll : PollSel) (inp : Input bus64) : Event bus64 :=
  .edge { poll := poll, inp := inp, stack := ⟨ACCData.zero, ACCData.zero, ACCData.zero⟩,
          writeFirst := true }

/-- Time zero and `k` edges of the reset. -/
def inReset (mem : Mem) (k : Nat) : State bus64 where
  ip := { Axi4Ip.init with edges := k }
  dev := MmioState.init
  hdlReq := Fifo.empty
  hdlResp := Fifo.empty
  mem := mem
  notified := []
  handling := false

theorem step_reset (mem : Mem) {k : Nat} (hk : k < 100) :
    step defaultConf 0 (inReset mem k) (edgeOf .none readyInput) = some (inReset mem (k + 1)) := by
  have hnext : next (inReset mem k).ip readyInput PollVars.zero = (inReset mem (k + 1)).ip :=
    next_init hk readyInput
  have hresp : respFrames ACCData.zero (inReset mem k).ip readyInput = some [] := by
    unfold respFrames respReadCalls
    split <;> rfl
  have hreq : reqWriteFrames ACCData.zero (inReset mem k).ip readyInput = some [] ∧
      reqReadFrames ACCData.zero (inReset mem k).ip readyInput = [] := by
    unfold reqWriteFrames reqWriteCalls reqReadFrames reqReadCalls
    split <;> exact ⟨rfl, rfl⟩
  simp only [step, State.edge, State.poll, edgeOf, Axi4Ip.edge, cPoll, Edge.requests, hresp, hreq,
    Option.map_some, Option.bind_some]
  show some (State.mk (next (inReset mem k).ip readyInput PollVars.zero) _ _ _ _ _ _) = _
  rw [hnext]
  rfl

theorem run_reset (mem : Mem) : ∀ n ≤ 100,
    runM (step defaultConf 0) (init mem) (List.replicate n (edgeOf .none readyInput))
      = some (inReset mem n)
  | 0, _ => rfl
  | n + 1, hn => by
    rw [List.replicate_succ', runM_append, run_reset mem n (by omega), Option.bind_some, runM,
      step_reset mem (by omega)]
    rfl

/-- The HDL master offers a write of eight bytes `0xA5` at `0x1000`. -/
def awCycle : Input bus64 :=
  { readyInput with iSAwvalid := true, iSAwaddr := 0x1000, iSAwsize := 3 }

def wCycle : Input bus64 :=
  { readyInput with iSWvalid := true, iSWdata := fun _ => 0xA5, iSWstrb := 0xFF }

end QemuHdlSim.Cosim
