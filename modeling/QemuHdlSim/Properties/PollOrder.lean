import QemuHdlSim.Properties.MmioLive
import QemuHdlSim.Properties.PowerOn
import QemuHdlSim.System.DmaRead

/-!
# The answers of DMA reads are not starved

`C_poll` takes one frame on an edge, and `zpoller_wait` looks for it in the order of its list, in
which `hdl_resp` comes last. A frame there is passed over whenever one of the others has something.
But `initsock` has nothing any more when the first answer comes, and `qemu_req` never has a request
on two edges in a row: the access that made it waits, and its answer is at least an edge away.

* `PassedOver.step` — an access that was polled is still waiting when the next edge comes
* `answerPolled` — an answer is passed over once at most
-/

namespace QemuHdlSim.Cosim

open Infra Axi4Ip Loop

variable {p : BusParams} {conf : ACCConf} {warnMs : Int} {mem m : Mem} {b b' : Boot p}

/-! ## What the poller finds -/

/-- When the device is plugged, INIT is over. -/
theorem Agrees.initsock_drained (h : Agrees conf mem b) (hr : b.qemu.isRealized = true) :
    b.hasFrame .initsock = false := by
  have hpolled : b.initsock.taken = 1 := by
    refine (h.polled ?_).1
    cases hq : b.qemu with
    | realized c => simp [Qemu.hdlconf]
    | _ => simp [hq, Qemu.isRealized] at hr
  have hle := b.initsock.delivered_le
  have hsent := h.sent_le
  exact decide_eq_false (by omega)

/-- When there is an answer, the device is plugged. -/
theorem Agrees.realized_of_queued (h : Agrees conf mem b) (hq : b.sys.cosim.hdlResp.Queued) :
    b.qemu.isRealized = true := by
  by_contra hnot
  have hhost := (h.early (Bool.eq_false_iff.mpr hnot)).host
  have hnil : b.sys.cosim.hdlResp.sent = [] := congrArg Host.hdlResp hhost
  have hle := b.sys.cosim.hdlResp.delivered_le
  rw [hnil] at hle
  exact absurd hq (Nat.not_lt.mpr (Nat.le_trans hle (Nat.zero_le _)))

/-- A request comes first. -/
theorem Agrees.zpollerWait_qemuReq (h : Agrees conf mem b) (hr : b.qemu.isRealized = true)
    (hq : b.sys.cosim.dev.qemuReq.Queued) : b.zpollerWait = .qemuReq := by
  have hreq : b.hasFrame .qemuReq = true := decide_eq_true hq
  simp [Boot.zpollerWait, pollList, h.initsock_drained hr, hreq]

/-- And before an answer only that. -/
theorem Agrees.zpollerWait_eq (h : Agrees conf mem b) (hq : b.sys.cosim.hdlResp.Queued) :
    b.zpollerWait = .hdlResp ∨
      b.zpollerWait = .qemuReq ∧ b.sys.cosim.dev.qemuReq.Queued := by
  have hr := h.realized_of_queued hq
  have hresp : b.hasFrame .hdlResp = true := decide_eq_true hq
  by_cases hreq : b.sys.cosim.dev.qemuReq.Queued
  · exact Or.inr ⟨h.zpollerWait_qemuReq hr hreq, hreq⟩
  · have hnone : b.hasFrame .qemuReq = false := decide_eq_false hreq
    exact Or.inl (by simp [Boot.zpollerWait, pollList, h.initsock_drained hr, hnone, hresp])

/-! ## The access that was polled -/

/-- The request of the access that waits was polled, and the access has no answer yet. -/
def Polled (conf : ACCConf) (s : Sys p) : Prop := ∃ pt, pt ≠ .asked ∧ pt ≠ .answered ∧ At conf pt s

/-- Then there is no request in the queue. -/
theorem Polled.not_queued {s : Sys p} (h : Polled conf s) : ¬s.cosim.dev.qemuReq.Queued := by
  obtain ⟨pt, hasked, _, _, _, _, _, hstage⟩ := h
  intro hq
  rcases hstage.req with hnil | ⟨heq, _⟩
  · exact Fifo.pending_of_queued hq hnil
  · exact hasked heq

/-- The edge that polls a request. -/
theorem polled_of_edge {s s' : Sys p} {e : SysEvent p} {x : Edge p} (hbus : 3 ≤ p.log2Stbw)
    (hoff : ∀ k, (conf.bar k).offset.toNat % p.stbw = 0) (hw : s.Whole) (hev : e.event = .edge x)
    (hpoll : x.poll = .qemuReq) (h : At conf .asked s) (hstep : s.step conf warnMs e = some s') :
    Polled conf s' := by
  have hok : ∀ renv, e.event = .recv renv → renv.fails warnMs = false := by simp [hev]
  rcases h.step hbus hoff hw hok hstep with ⟨y, rd, hy, hat⟩ | ⟨_, ⟨renv, hrecv⟩, _⟩ | ⟨hsilent, _⟩
  · rw [hev] at hy
    cases hy
    rw [Sys.env_pollsRequest.mpr hpoll] at hat
    refine ⟨_, ?_, ?_, hat⟩
    · cases hd : decide (s.cosim.ip.edges < 99) <;> cases rd <;> simp [Point.next]
    · cases hd : decide (s.cosim.ip.edges < 99) <;> cases rd <;> simp [Point.next]
  · exact absurd (hev.symm.trans hrecv) (by simp)
  · exact absurd (SysEvent.driven_edge hev) (hsilent.ne_edge s.ram _)

/-- Without an edge it stays as it is. -/
theorem Polled.step {s s' : Sys p} {e : SysEvent p} (hbus : 3 ≤ p.log2Stbw)
    (hoff : ∀ k, (conf.bar k).offset.toNat % p.stbw = 0) (hw : s.Whole)
    (hok : ∀ renv, e.event = .recv renv → renv.fails warnMs = false)
    (hno : ∀ x, e.event ≠ .edge x) (h : Polled conf s) (hstep : s.step conf warnMs e = some s') :
    Polled conf s' := by
  obtain ⟨pt, hasked, hanswered, hat⟩ := h
  rcases hat.step hbus hoff hw hok hstep with ⟨x, _, hx, _⟩ | ⟨hpt, _⟩ | ⟨_, hat'⟩
  · exact absurd hx (hno x)
  · exact absurd hpt hanswered
  · exact ⟨pt, hasked, hanswered, hat'⟩

/-! ## The answer that is passed over -/

/-- An edge that polls something else leaves the answers alone. -/
theorem hdlResp_edge {s c : State p} {x : Edge p} (h : s.edge conf x = some c)
    (hne : x.poll ≠ .hdlResp) : c.hdlResp = s.hdlResp := by
  obtain ⟨⟨sock, t⟩, hpoll, h⟩ := Option.bind_eq_some_iff.mp h
  obtain ⟨_, _, h⟩ := Option.bind_eq_some_iff.mp h
  obtain ⟨_, _, h⟩ := Option.bind_eq_some_iff.mp h
  obtain ⟨_, _, rfl⟩ := Option.map_eq_some_iff.mp h
  have hpoll' : s.poll x.poll = some (sock, t) := hpoll
  cases hsel : x.poll with
  | hdlResp => exact absurd hsel hne
  | qemuReq =>
    rw [hsel] at hpoll'
    obtain ⟨⟨f, q⟩, _, heq⟩ := Option.map_eq_some_iff.mp hpoll'
    cases heq
    rfl
  | none =>
    rw [hsel] at hpoll'
    cases hpoll'
    rfl
  | initsock =>
    rw [hsel] at hpoll'
    cases hpoll'
    rfl

/-- The event is a clock edge. -/
def BootEvent.IsEdge (e : BootEvent p) : Prop := ∃ x respond, e = .sys ⟨.edge x, respond⟩

/-- What is queued on `hdl_resp` waits for an edge. -/
theorem queued_step {e : BootEvent p} (hno : ¬e.IsEdge) (hq : b.sys.cosim.hdlResp.Queued)
    (h : b.step conf warnMs e = some b') : b'.sys.cosim.hdlResp.Queued := by
  rcases Boot.sys_step h with ⟨ev, rfl, _, hs⟩ | ⟨_, hsame⟩
  · obtain ⟨c, hc, hsys⟩ := Option.map_eq_some_iff.mp hs
    rw [← hsys]
    have hother : ∀ x, ev.driven b.sys.ram ≠ .edge x := by
      obtain ⟨ev, respond⟩ := ev
      cases ev with
      | edge x => exact absurd ⟨x, respond, rfl⟩ hno
      | _ => simp [SysEvent.driven]
    rcases (moves_step hc .hdlResp).taken_or_queued hq with hlt | ⟨_, hq'⟩
    · exact absurd (step_other hother hc).2.1 (Nat.ne_of_gt hlt)
    · exact hq'
  · rw [hsame]
    exact hq

/-- An edge has passed over an answer, and taken the request of an access that still waits. -/
structure PassedOver (conf : ACCConf) (b : Boot p) : Prop where
  whole : b.sys.Whole
  queued : b.sys.cosim.hdlResp.Queued
  polled : Polled conf b.sys

/-- The edge that does. -/
theorem passedOver_edge {tr : List (Boot p × BootEvent p)} {x : Edge p} {rx : Bool}
    (hbus : 3 ≤ p.log2Stbw) (hoff : ∀ k, (conf.bar k).offset.toNat % p.stbw = 0)
    (h : Boot.Run conf warnMs (Boot.init mem m) tr b) (hok : ∀ c ∈ tr, c.2.Receives warnMs)
    (hx : b.step conf warnMs (.sys ⟨.edge x, rx⟩) = some b') (hq : b.sys.cosim.hdlResp.Queued)
    (hne : x.poll ≠ .hdlResp) : PassedOver conf b' := by
  rcases Boot.sys_step hx with ⟨ev, heq, hallows, hs⟩ | ⟨hother, _⟩
  · cases heq
    have hpoll : x.poll = b.zpollerWait := of_decide_eq_true hallows
    rcases (agrees_run h).zpollerWait_eq hq with hresp | ⟨hreq, hqueued⟩
    · exact absurd (hpoll.trans hresp) hne
    · have hserving := servingRun_boot hbus hoff h hok
      refine ⟨hserving.1.step hs, ?_, polled_of_edge hbus hoff hserving.1 rfl (hpoll.trans hreq)
        (asked_of_queued hserving hqueued) hs⟩
      obtain ⟨c, hc, hsys⟩ := Option.map_eq_some_iff.mp hs
      rw [← hsys]
      show c.hdlResp.Queued
      rw [hdlResp_edge hc hne]
      exact hq
  · exact absurd rfl (hother _)

/-- **Up to the next edge** it stays so. -/
theorem PassedOver.step {e : BootEvent p} (hbus : 3 ≤ p.log2Stbw)
    (hoff : ∀ k, (conf.bar k).offset.toNat % p.stbw = 0) (h : PassedOver conf b)
    (hno : ¬e.IsEdge) (hok : e.Receives warnMs) (hstep : b.step conf warnMs e = some b') :
    PassedOver conf b' := by
  have hqueued := queued_step hno h.queued hstep
  rcases Boot.sys_step hstep with ⟨ev, rfl, _, hs⟩ | ⟨_, hsame⟩
  · refine ⟨h.whole.step hs, hqueued, h.polled.step hbus hoff h.whole (fun renv hev =>
      hok.2 ev renv rfl hev) (fun x hx => ?_) hs⟩
    exact hno ⟨x, ev.respond, by rw [← hx]⟩
  · exact ⟨hsame ▸ h.whole, hqueued, hsame ▸ h.polled⟩

theorem passedOver_run {mid : List (Boot p × BootEvent p)} (hbus : 3 ≤ p.log2Stbw)
    (hoff : ∀ k, (conf.bar k).offset.toNat % p.stbw = 0) (hmid : Boot.Run conf warnMs b mid b')
    (hok : ∀ c ∈ mid, c.2.Receives warnMs) (hno : ∀ c ∈ mid, ¬c.2.IsEdge)
    (h : PassedOver conf b) : PassedOver conf b' :=
  hmid.invariant (P := fun _ e => ¬e.IsEdge ∧ e.Receives warnMs) h
    (fun c hc => ⟨hno c hc, hok c hc⟩)
    fun _ _ _ ha hP hstep => ha.step hbus hoff hP.1 hP.2 hstep

/-- **Then it is the turn of the answer.** -/
theorem PassedOver.polls {tr : List (Boot p × BootEvent p)} {y : Edge p} {ry : Bool}
    (h : PassedOver conf b) (hrun : Boot.Run conf warnMs (Boot.init mem m) tr b)
    (hy : b.step conf warnMs (.sys ⟨.edge y, ry⟩) = some b') : y.poll = .hdlResp := by
  rcases Boot.sys_step hy with ⟨ev, heq, hallows, _⟩ | ⟨hother, _⟩
  · cases heq
    have hpoll : y.poll = b.zpollerWait := of_decide_eq_true hallows
    rcases (agrees_run hrun).zpollerWait_eq h.queued with hresp | ⟨_, hqueued⟩
    · exact hpoll.trans hresp
    · exact absurd hqueued h.polled.not_queued
  · exact absurd rfl (hother _)

/-- **An answer is passed over once at most.** If a DMA answer is queued on an edge, then `C_poll`
takes one on this edge or on the next one. -/
theorem answerPolled {q : IpParams} (hconf : q.setup = some conf) (hbus : 3 ≤ p.log2Stbw)
    (hoff : ∀ k, (q.barOffset k).toNat % p.stbw = 0) {tr mid : List (Boot p × BootEvent p)}
    {b b₁ b₂ b₃ : Boot p} {x y : Edge p} {rx ry : Bool}
    (h : Boot.Run conf warnMs (Boot.init mem m) tr b)
    (hx : b.step conf warnMs (.sys ⟨.edge x, rx⟩) = some b₁)
    (hmid : Boot.Run conf warnMs b₁ mid b₂) (hno : ∀ c ∈ mid, ¬c.2.IsEdge)
    (hy : b₂.step conf warnMs (.sys ⟨.edge y, ry⟩) = some b₃)
    (hok : ∀ c ∈ tr ++ mid, c.2.Receives warnMs) (hq : b.sys.cosim.hdlResp.Queued) :
    x.poll = .hdlResp ∨ y.poll = .hdlResp := by
  have hoffset := setup_offsets hconf hoff
  have hok₀ : ∀ c ∈ tr, c.2.Receives warnMs := fun c hc => hok c (List.mem_append_left _ hc)
  by_cases hpoll : x.poll = .hdlResp
  · exact Or.inl hpoll
  have hpassed := passedOver_edge hbus hoffset h hok₀ hx hq hpoll
  have hstill := passedOver_run hbus hoffset hmid
    (fun c hc => hok c (List.mem_append_right _ hc)) hno hpassed
  exact Or.inr (hstill.polls ((h.snoc hx).append hmid) hy)

/-! ## An answer and a request on one edge -/

/-- A read burst, and an access that is made when its answer is on the way. -/
def readAndAccess : List (BootEvent bus64) :=
  [.sys (sysEdge .none arCycle), .sys (sysEvent (.deliver .hdlReq)), .sys (sysEvent .activate),
    .sys (sysEvent .iterate), .sys (sysEvent .finish),
    .sys (sysEvent (.call (.read bar2 0x100 8))), .sys (sysEvent (.deliver .qemuReq)),
    .sys (sysEvent (.deliver .hdlResp))]

/-- An edge on which the poller reports `sel`. -/
def pollEdge (sel : PollSel) : Edge bus64 :=
  ⟨sel, readyInput, ⟨ACCData.zero, ACCData.zero, ACCData.zero⟩, true⟩

/-- The edge takes the request, and the next one the answer. -/
theorem answerPolled_readAndAccess :
    ∃ (tr : List (Boot bus64 × BootEvent bus64)) (b b₁ b₂ : Boot bus64) (x y : Edge bus64),
      Boot.Run defaultConf 0 (Boot.init (fun _ => 0) fun _ => 0) tr b ∧
      b.sys.cosim.hdlResp.Queued ∧ b.step defaultConf 0 (.sys ⟨.edge x, true⟩) = some b₁ ∧
      b₁.step defaultConf 0 (.sys ⟨.edge y, true⟩) = some b₂ ∧ x.poll = .qemuReq ∧
      y.poll = .hdlResp := by
  have hrun : ∃ b b₁ b₂, runM (Boot.step defaultConf 0) (plugged 100) readAndAccess = some b ∧
      b.sys.cosim.hdlResp.Queued ∧
      b.step defaultConf 0 (.sys ⟨.edge (pollEdge .qemuReq), true⟩) = some b₁ ∧
      b₁.step defaultConf 0 (.sys ⟨.edge (pollEdge .hdlResp), true⟩) = some b₂ :=
    ⟨_, _, _, rfl, Nat.lt_succ_self 0, rfl, rfl⟩
  obtain ⟨b, b₁, b₂, hrun, hq, hx, hy⟩ := hrun
  have hall := (path_traceM run_resetEvents).append (path_traceM hrun)
  have hreceives : readAndAccess.all bootReceives = true := rfl
  have hpolled : (pollEdge .qemuReq).poll = .hdlResp ∨ (pollEdge .hdlResp).poll = .hdlResp := by
    refine answerPolled setup_default (by decide) (by decide) hall hx (Path.nil b₁) (by simp) hy
      (fun c hc => ?_) hq
    rw [List.append_nil] at hc
    rcases List.mem_append.mp hc with hc | hc
    · exact receives_resetEvents _ (snd_mem_of_traceM hc)
    · exact receives_of_bootReceives (List.all_eq_true.mp hreceives _ (snd_mem_of_traceM hc))
  rcases hpolled with hpoll | hpoll
  · exact absurd hpoll (by simp [pollEdge])
  · exact ⟨_, b, b₁, b₂, _, _, hall, hq, hx, hy, rfl, hpoll⟩

end QemuHdlSim.Cosim
