import QemuHdlSim.System.Cosim
import QemuHdlSim.System.MmioPhases

/-!
# The co-simulation with a RAM behind the bridge

`Cosim` leaves the AXI inputs of the two masters open. Here the RAM of the closed MMIO loop drives
them, in the middle of everything else that goes on: DMA bursts, their answers, interrupts, the
handler, and frames that take their time on four pipes.

`Sys.loop` forgets all but the MMIO path, and `Sys.step_cases` says what a step of the whole system
is there: an edge of the loop, the call of an access, its return, or nothing at all.
-/

namespace QemuHdlSim.Cosim

open Infra Axi4Ip

variable {p : BusParams} {conf : ACCConf} {warnMs : Int}

/-- The co-simulation and the RAM. -/
structure Sys (p : BusParams) where
  cosim : State p
  ram : Ram

/-- Time zero, with guest memory `mem`, and `m` in the RAM. -/
def Sys.init (mem m : Mem) : Sys p := ⟨Cosim.init mem, Ram.idle m⟩

/-- An event, and whether the RAM sends a response that is due, should it be an edge. -/
structure SysEvent (p : BusParams) where
  event : Event p
  respond : Bool

/-- The event with the inputs that the RAM drives. -/
def SysEvent.driven (e : SysEvent p) (ram : Ram) : Event p :=
  match e.event with
  | .edge x => .edge { x with inp := ram.drive e.respond x.inp }
  | ev => ev

/-- The RAM drives no poll. -/
theorem SysEvent.driven_edge {e : SysEvent p} {ram : Ram} {x : Edge p} (h : e.event = .edge x) :
    e.driven ram = .edge { x with inp := ram.drive e.respond x.inp } := by
  unfold driven
  rw [h]

/-- What is neither an edge nor the call or the return of an access. -/
def SysEvent.IsSilent (e : SysEvent p) : Prop :=
  match e.event with
  | .edge _ => False
  | .call _ => False
  | .recv _ => False
  | _ => True

theorem SysEvent.IsSilent.ne_edge {e : SysEvent p} (h : e.IsSilent) (ram : Ram) (x : Edge p) :
    e.driven ram ≠ .edge x := by
  obtain ⟨ev, _⟩ := e
  cases ev with
  | edge y => exact h.elim
  | _ => simp [driven]

theorem SysEvent.IsSilent.ne_recv {e : SysEvent p} (h : e.IsSilent) (ram : Ram) (renv : RecvEnv) :
    e.driven ram ≠ .recv renv := by
  obtain ⟨ev, _⟩ := e
  cases ev with
  | recv env => exact h.elim
  | _ => simp [driven]

namespace Sys

/-- The RAM after the event. -/
def ramStep (s : Sys p) (e : SysEvent p) : Ram :=
  match e.event with
  | .edge _ => s.ram.step e.respond s.cosim.ip.mr s.cosim.ip.mw
  | _ => s.ram

/-- One step; `none` when the event cannot happen. -/
def step (conf : ACCConf) (warnMs : Int) (s : Sys p) (e : SysEvent p) : Option (Sys p) :=
  (Cosim.step conf warnMs s.cosim (e.driven s.ram)).map fun c => ⟨c, s.ramStep e⟩

/-- A run of the system. -/
abbrev Run (conf : ACCConf) (warnMs : Int) (s : Sys p) (tr : List (Sys p × SysEvent p))
    (s' : Sys p) : Prop :=
  Path (fun a e b => step conf warnMs a e = some b) s tr s'

/-- The run of the co-simulation in it. -/
def cosimTrace (tr : List (Sys p × SysEvent p)) : List (State p × Event p) :=
  tr.map fun c => (c.1.cosim, c.2.driven c.1.ram)

theorem run_cosim {s s' : Sys p} {tr : List (Sys p × SysEvent p)} (h : Run conf warnMs s tr s') :
    Cosim.Run conf warnMs s.cosim (cosimTrace tr) s'.cosim := by
  induction h with
  | nil => exact Path.nil _
  | cons hstep _ ih =>
    obtain ⟨c, hc, rfl⟩ := Option.map_eq_some_iff.mp hstep
    exact Path.cons hc ih

/-! ## The MMIO path of a state -/

/-- What the MMIO path is made of; a frame is on its way until it is taken. -/
def loop (s : Sys p) : Loop p where
  ip := s.cosim.ip
  ram := s.ram
  qemuReq := s.cosim.dev.qemuReq.pending
  qemuResp := s.cosim.dev.qemuResp.pending.map ZFrame.data

/-- The access that waits for its answer. -/
def waiting (s : Sys p) : Option Access := s.cosim.dev.waiting

/-- The access that is called in an event. -/
def calls (_ : Sys p) (e : SysEvent p) : List Access :=
  match e.event with
  | .call a => [a]
  | _ => []

/-- What an access returns in an event. -/
def results (warnMs : Int) (s : Sys p) (e : SysEvent p) : List (Option (BitVec 64)) :=
  match e.event with
  | .recv env => ((s.cosim.dev.recv warnMs env).map fun x => x.1.result x.2.1).toList
  | _ => []

/-- The frames on `qemu_resp` are whole. -/
def Whole (s : Sys p) : Prop := ∀ f ∈ s.cosim.dev.qemuResp.sent, f.size = sizeofACCData

/-- What the poller reports on an edge, seen from the MMIO path. -/
def otherSock (s : Sys p) : PollSel → OtherSock
  | .none => .none
  | .initsock => .initsock
  | .qemuReq => .none
  | .hdlResp =>
    match s.cosim.hdlResp.front? with
    | some f => .hdlResp f
    | none => .none

/-- What the MMIO path meets on an edge. -/
def env (s : Sys p) (x : Edge p) (respond : Bool) : Env p where
  pollsRequest := match x.poll with
    | .qemuReq => true
    | _ => false
  other := s.otherSock x.poll
  respond := respond
  dma := x.inp
  stack := x.stack.resp

/-- A poll of the co-simulation is one of the loop. -/
theorem poll_loop {s : Sys p} {x : Edge p} {respond : Bool} {sock : PollSock} {t : State p}
    (h : s.cosim.poll x.poll = some (sock, t)) :
    s.loop.poll (s.env x respond) = (sock, t.dev.qemuReq.pending) := by
  unfold Loop.poll env loop otherSock
  cases hsel : x.poll with
  | none =>
    rw [hsel] at h
    cases h
    cases s.cosim.dev.qemuReq.pending <;> rfl
  | initsock =>
    rw [hsel] at h
    cases h
    cases s.cosim.dev.qemuReq.pending <;> rfl
  | qemuReq =>
    rw [hsel] at h
    obtain ⟨⟨f, q⟩, hrecv, heq⟩ := Option.map_eq_some_iff.mp h
    cases heq
    simp only [Fifo.pending_recv? hrecv]
  | hdlResp =>
    rw [hsel] at h
    obtain ⟨⟨f, q⟩, hrecv, heq⟩ := Option.map_eq_some_iff.mp h
    cases heq
    simp only [Fifo.front?_of_recv? hrecv]
    cases s.cosim.dev.qemuReq.pending <;> rfl

/-- What `C_poll` takes from `hdl_resp` fits the data variable. -/
theorem fits_of_cPoll {s : Sys p} {x : Edge p} {respond : Bool} {sock : PollSock} {t : State p}
    {r : PollVars × Option ACCConf} (h : s.cosim.poll x.poll = some (sock, t))
    (hpoll : cPoll p.stbw conf sock s.cosim.ip.vars = some r) :
    (s.env x respond).other.Fits p.stbw := by
  unfold env otherSock
  cases hsel : x.poll with
  | none => trivial
  | initsock => trivial
  | qemuReq => trivial
  | hdlResp =>
    rw [hsel] at h
    obtain ⟨⟨f, q⟩, hrecv, heq⟩ := Option.map_eq_some_iff.mp h
    cases heq
    simp only [Fifo.front?_of_recv? hrecv]
    obtain ⟨v, hv, _⟩ := Option.map_eq_some_iff.mp hpoll
    obtain ⟨d, hd, _⟩ := Option.map_eq_some_iff.mp hv
    exact (Buf.memcpy?_bounds hd).1

/-- **A clock edge is an edge of the loop.** -/
theorem edge_loop {s : Sys p} {x : Edge p} {respond : Bool} {c : State p}
    (h : s.cosim.edge conf { x with inp := s.ram.drive respond x.inp } = some c) :
    (s.env x respond).other.Fits p.stbw ∧
      s.loop.edge conf (s.env x respond)
        = some (loop ⟨c, s.ram.step respond s.cosim.ip.mr s.cosim.ip.mw⟩) ∧
      c.dev.waiting = s.cosim.dev.waiting ∧
      (s.Whole → ∀ f ∈ c.dev.qemuResp.sent, f.size = sizeofACCData) := by
  obtain ⟨⟨sock, t⟩, hpoll, h⟩ := Option.bind_eq_some_iff.mp h
  obtain ⟨r, hedge, h⟩ := Option.bind_eq_some_iff.mp h
  obtain ⟨resps, hresps, h⟩ := Option.bind_eq_some_iff.mp h
  obtain ⟨reqs, _, rfl⟩ := Option.map_eq_some_iff.mp h
  have hpoll' : s.cosim.poll x.poll = some (sock, t) := hpoll
  obtain ⟨_, _, _, hwait, hresp⟩ := State.poll_eq_some hpoll'
  obtain ⟨v, hv, _⟩ := Option.map_eq_some_iff.mp hedge
  refine ⟨fits_of_cPoll hpoll' hv, ?_, hwait, ?_⟩
  · have hedge' : Axi4Ip.edge conf sock s.loop.ip (s.loop.input (s.env x respond)) = some r := hedge
    have hframes : s.loop.frames (s.env x respond) = some resps := hresps
    unfold Loop.edge
    rw [poll_loop hpoll', hedge', hframes, Option.bind_some, Option.map_some]
    simp only [loop, hresp, Fifo.pending_sendAll, List.map_append, List.map_map, Function.comp_def,
      List.map_id_fun', id_eq]
    rfl
  · intro hwhole f hf
    simp only [hresp, Fifo.sendAll_sent] at hf
    rcases List.mem_append.mp hf with hf | hf
    · exact hwhole f hf
    · obtain ⟨g, _, rfl⟩ := List.mem_map.mp hf
      rfl

/-- The call of an access sends its request. -/
theorem call_eq {s c : State p} {a : Access}
    (h : Cosim.step conf warnMs s (.call a) = some c) :
    s.dev.waiting = none ∧ c = { s with dev := { s.dev with
      txid := s.dev.txid + 1
      waiting := some a
      qemuReq := s.dev.qemuReq.send (a.request (s.dev.txid + 1)) } } := by
  simp only [Cosim.step] at h
  split at h
  · exact absurd h (by simp)
  · obtain ⟨d, hcall, rfl⟩ := Option.map_eq_some_iff.mp h
    obtain ⟨hwait, rfl⟩ := MmioState.call_eq_some hcall
    exact ⟨hwait, rfl⟩

/-- The receive of an access takes the oldest answer. -/
theorem recv_loop {s : Sys p} {renv : RecvEnv} {a : Access} {r : Option ZFrame} {d : MmioState}
    (hw : s.Whole) (hok : renv.fails warnMs = false)
    (h : s.cosim.dev.recv warnMs renv = some (a, r, d)) :
    s.waiting = some a ∧ d.waiting = none ∧ d.qemuReq = s.cosim.dev.qemuReq ∧
      ∃ f q, s.loop.qemuResp = f :: q ∧ d.qemuResp.pending.map ZFrame.data = q ∧
        r = some ⟨sizeofACCData, f⟩ := by
  obtain ⟨hwait, q, hrecv, rfl⟩ := MmioState.recv_eq_some h
  rcases accZframeRecvLogged_cases hrecv with ⟨hf, _⟩ | ⟨_, f, rfl, hf⟩
  · exact absurd (hok.symm.trans hf) (by simp)
  · obtain ⟨_, hget, _⟩ := Fifo.recv?_eq_some hf
    have hsize := hw f (List.mem_of_getElem? hget)
    refine ⟨hwait, rfl, rfl, f.data, _, ?_, rfl, by rw [← hsize]⟩
    simp only [loop, Fifo.pending_recv? hf, List.map_cons]

/-- It leaves the MMIO path alone, but for frames that arrive. -/
theorem silent_loop {s s' : Sys p} {e : SysEvent p} (he : e.IsSilent)
    (h : s.step conf warnMs e = some s') :
    s'.loop = s.loop ∧ s'.waiting = s.waiting ∧
      s'.cosim.dev.qemuResp.sent = s.cosim.dev.qemuResp.sent := by
  obtain ⟨c, hc, rfl⟩ := Option.map_eq_some_iff.mp h
  obtain ⟨ev, respond⟩ := e
  cases ev with
  | edge x => exact he.elim
  | call a => exact he.elim
  | recv renv => exact he.elim
  | interrupt d stack =>
    cases hc
    exact ⟨rfl, rfl, rfl⟩
  | deliver pipe =>
    obtain ⟨_, _, _, _, _, hwait, _, hsent⟩ := State.deliver_eq_some hc
    refine ⟨?_, hwait, hsent⟩
    cases pipe with
    | qemuReq =>
      obtain ⟨q, hq, rfl⟩ := Option.map_eq_some_iff.mp hc
      simp only [loop, ramStep, Fifo.pending_deliver hq]
    | qemuResp =>
      obtain ⟨q, hq, rfl⟩ := Option.map_eq_some_iff.mp hc
      simp only [loop, ramStep, Fifo.pending_deliver hq]
    | hdlReq =>
      obtain ⟨q, _, rfl⟩ := Option.map_eq_some_iff.mp hc
      rfl
    | hdlResp =>
      obtain ⟨q, _, rfl⟩ := Option.map_eq_some_iff.mp hc
      rfl
  | activate =>
    obtain ⟨_, rfl⟩ := step_activate hc
    exact ⟨rfl, rfl, rfl⟩
  | finish =>
    obtain ⟨_, rfl⟩ := step_finish hc
    exact ⟨rfl, rfl, rfl⟩
  | iterate =>
    obtain ⟨_, hserve⟩ := step_iterate hc
    obtain ⟨_, _, _, _, _, _, _, _, _, _, hdev, hip⟩ := State.serve_eq_some hserve
    simp only [loop, waiting, ramStep, hdev, hip]
    exact ⟨trivial, trivial, trivial⟩

/-- **What a step of the system is on the MMIO path**, as long as no receive fails. -/
theorem step_cases {s s' : Sys p} {e : SysEvent p} (hw : s.Whole)
    (hok : ∀ renv, e.event = .recv renv → renv.fails warnMs = false)
    (h : s.step conf warnMs e = some s') :
    (∃ x, e.event = .edge x ∧ (s.env x e.respond).other.Fits p.stbw ∧
        s.loop.edge conf (s.env x e.respond) = some s'.loop ∧
        s'.waiting = s.waiting ∧ s.calls e = [] ∧ s.results warnMs e = []) ∨
      (∃ a txid, e.event = .call a ∧ s.waiting = none ∧ s'.waiting = some a ∧
        s'.loop = { s.loop with qemuReq := s.loop.qemuReq ++ [a.request txid] } ∧
        s.calls e = [a] ∧ s.results warnMs e = []) ∨
      (∃ renv a f q, e.event = .recv renv ∧ s.waiting = some a ∧ s'.waiting = none ∧
        s.loop.qemuResp = f :: q ∧
        s'.loop = { s.loop with qemuResp := q } ∧
        s.calls e = [] ∧ s.results warnMs e = [a.result (some ⟨sizeofACCData, f⟩)]) ∨
      (e.IsSilent ∧ s'.loop = s.loop ∧ s'.waiting = s.waiting ∧ s.calls e = [] ∧
        s.results warnMs e = []) := by
  by_cases hsilent : e.IsSilent
  · obtain ⟨hloop, hwait, _⟩ := silent_loop hsilent h
    refine Or.inr (Or.inr (Or.inr ⟨hsilent, hloop, hwait, ?_⟩))
    obtain ⟨ev, respond⟩ := e
    cases ev with
    | edge x => exact hsilent.elim
    | call a => exact hsilent.elim
    | recv renv => exact hsilent.elim
    | _ => exact ⟨rfl, rfl⟩
  · obtain ⟨c, hc, rfl⟩ := Option.map_eq_some_iff.mp h
    obtain ⟨ev, respond⟩ := e
    cases ev with
    | edge x =>
      obtain ⟨hfits, hedge, hwait, _⟩ := edge_loop hc
      exact Or.inl ⟨x, rfl, hfits, hedge, hwait, rfl, rfl⟩
    | call a =>
      obtain ⟨hwait, rfl⟩ := call_eq hc
      refine Or.inr (Or.inl ⟨a, s.cosim.dev.txid + 1, rfl, hwait, rfl, ?_, rfl, rfl⟩)
      simp only [loop, ramStep, Fifo.pending_send]
    | recv renv =>
      obtain ⟨⟨a, r, d⟩, hrecv, rfl⟩ := Option.map_eq_some_iff.mp hc
      obtain ⟨hwait, hnone, hreq, f, q, hq, hq', rfl⟩ := recv_loop hw (hok renv rfl) hrecv
      refine Or.inr (Or.inr (Or.inl ⟨renv, a, f, q, rfl, hwait, hnone, hq, ?_, rfl, ?_⟩))
      · simp only [loop, ramStep, hreq, hq']
      · simp only [results, hrecv, Option.map_some, Option.toList_some]
    | _ => exact absurd trivial hsilent

/-- The frames on `qemu_resp` stay whole. -/
theorem Whole.step {s s' : Sys p} {e : SysEvent p} (hw : s.Whole)
    (h : s.step conf warnMs e = some s') : s'.Whole := by
  by_cases hsilent : e.IsSilent
  · unfold Whole
    rw [(silent_loop hsilent h).2.2]
    exact hw
  · obtain ⟨c, hc, rfl⟩ := Option.map_eq_some_iff.mp h
    obtain ⟨ev, respond⟩ := e
    cases ev with
    | edge x => exact (edge_loop hc).2.2.2 hw
    | call a =>
      obtain ⟨_, rfl⟩ := call_eq hc
      exact hw
    | recv renv =>
      obtain ⟨⟨a, r, d⟩, hrecv, rfl⟩ := Option.map_eq_some_iff.mp hc
      obtain ⟨_, q, hq, rfl⟩ := MmioState.recv_eq_some hrecv
      have hsent : q.sent = s.cosim.dev.qemuResp.sent := by
        rcases accZframeRecvLogged_cases hq with ⟨_, _, rfl⟩ | ⟨_, f, _, hf⟩
        · rfl
        · exact (Fifo.recv?_eq_some hf).2.2.1
      intro f hf
      exact hw f (hsent ▸ hf)
    | _ => exact absurd trivial hsilent

end Sys

end QemuHdlSim.Cosim
