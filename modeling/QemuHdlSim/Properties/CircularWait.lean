import QemuHdlSim.Properties.IssueOrder

/-!
# An access and the device's own read wait for each other

An access holds the big lock until its receive returns: it is a blocking read, without a timeout,
as its comment says. A `READ` that the device sends in the meantime stays on `hdl_req`:

* `not_servedWhileWaiting` — it is served by no run in which the access does not return
* `circularWait` — after the return it can be served; but if the slave answers the access only
  after its own read, the access does not return
-/

namespace QemuHdlSim.Cosim

open Infra Axi4Ip

variable {p : BusParams} {conf : ACCConf} {warnMs : Int} {s s' : State p}

/-- If a `READ` is first on `hdl_req`, it can be served without the access returning. -/
def ServedWhileWaiting (conf : ACCConf) (warnMs : Int) (s : State p) : Prop :=
  ∀ f, s.hdlReq.front? = some f → f.op = .read →
    ∃ es s', (∀ e ∈ es, Event.NotRecv e) ∧ runM (step conf warnMs) s es = some s' ∧
      s.hdlReq.taken < s'.hdlReq.taken

/-- `C_poll` takes a frame of `hdl_resp` in this event. -/
def Event.TakesResp : Event p → Prop
  | .edge e => e.poll = .hdlResp
  | _ => False

/-- The slave answers no access in this event. -/
def Event.Silent : Event p → Prop
  | .edge e => e.inp.iMRvalid = false ∧ e.inp.iMBvalid = false
  | _ => True

/-- The receive of the access is not broken off in this event. -/
def Event.Unbroken (warnMs : Int) : Event p → Prop
  | .recv env => env.fails warnMs = false
  | _ => True

/--
The slave answers an access only after its own read: not before `C_poll` took a frame of
`hdl_resp`, without which no beat of the read can come.
-/
def AnswersAfterRead (tr : List (State p × Event p)) : Prop :=
  ∀ before c after, tr = before ++ c :: after → (∀ b ∈ before, ¬b.2.TakesResp) → c.2.Silent

/-- What holds while an access waits in `s`. -/
structure CircularWait (conf : ACCConf) (warnMs : Int) (s : State p) : Prop where
  /-- Without its return no run takes a frame off `hdl_req` or touches the host. -/
  unserved : ∀ tr s', Run conf warnMs s tr s' → (∀ c ∈ tr, c.2.NotRecv) →
    s'.dev.waiting ≠ none ∧ s'.hdlReq.taken = s.hdlReq.taken ∧ s'.host = s.host
  /-- After its return the handler can take all that has arrived, as far as it fits its frames. -/
  served : (∀ f ∈ s.hdlReq.sent, f.Fits) → ∀ env s', step conf warnMs s (.recv env) = some s' →
    ∃ es s'', (∀ e ∈ es, e.IsHandler) ∧ runM (step conf warnMs) s' es = some s'' ∧
      s''.hdlReq.taken = s.hdlReq.delivered
  /-- With nothing on the way to the access or to the slave, a slave that reads first, and
  receives that are not broken off, it does not return. -/
  circular : s.dev.qemuResp.sent.length = s.dev.qemuResp.taken →
    s.hdlResp.sent.length = s.hdlResp.taken → ∀ tr s', Run conf warnMs s tr s' →
    (∀ c ∈ tr, c.2.Unbroken warnMs) → AnswersAfterRead tr → s'.dev.waiting ≠ none

/-! ## No way on -/

/-- An access waits, and nothing is on the way to it or to the slave. -/
structure Stuck (s : State p) : Prop where
  exclusive : Exclusive s
  waiting : s.dev.waiting ≠ none
  noAnswer : s.dev.qemuResp.sent.length = s.dev.qemuResp.taken
  noData : s.hdlResp.sent.length = s.hdlResp.taken

/-- With `hdl_resp` drained, `C_poll` takes nothing from it. -/
theorem State.poll_of_drained {t : State p} {sel : PollSel} {sock : PollSock}
    (hdrained : s.hdlResp.sent.length = s.hdlResp.taken) (h : s.poll sel = some (sock, t)) :
    sel ≠ .hdlResp ∧ t.hdlResp = s.hdlResp := by
  cases sel with
  | none =>
    cases h
    exact ⟨by simp, rfl⟩
  | initsock =>
    cases h
    exact ⟨by simp, rfl⟩
  | qemuReq =>
    obtain ⟨_, _, heq⟩ := Option.map_eq_some_iff.mp h
    cases heq
    exact ⟨by simp, rfl⟩
  | hdlResp =>
    obtain ⟨_, hrecv, _⟩ := Option.map_eq_some_iff.mp h
    rw [Fifo.recv?_of_drained hdrained] at hrecv
    exact absurd hrecv (by simp)

/-- A silent slave has nothing sent on `qemu_resp`. -/
theorem respFrames_of_silent {t : Axi4Ip.State p} {i : Input p} (stack : ACCData)
    (hr : i.iMRvalid = false) (hb : i.iMBvalid = false) : respFrames stack t i = some [] := by
  have hreads : respReadCalls t i = [] := by
    unfold respReadCalls Axi4MR.cReq
    rw [if_neg (show ¬(_ ∧ (mrInput t i).iMRlast = true ∧ (mrInput t i).iMRvalid = true) by
      simp [mrInput, hr]), ite_self]
  have hwrites : respWriteCalls t i = [] := by
    simp [respWriteCalls, Axi4MW.cResp, mwInput, hb]
  unfold respFrames
  rw [hreads, hwrites]
  rfl

/-- **One step**: the state is stuck as before, and no frame of `hdl_resp` was taken. -/
theorem Stuck.step {e : Event p} (hs : Stuck s) (hsilent : e.Silent) (hrecv : e.Unbroken warnMs)
    (h : step conf warnMs s e = some s') : Stuck s' ∧ ¬e.TakesResp := by
  have hx := hs.exclusive.step h
  cases e with
  | edge x =>
    obtain ⟨hr, hb⟩ := hsilent
    obtain ⟨resps, reqs, hresps, _, _, _, _, hwait, hresp, _⟩ := State.edge_eq_some h
    rw [respFrames_of_silent _ hr hb] at hresps
    cases hresps
    obtain ⟨⟨sock, t⟩, hpoll, h⟩ := Option.bind_eq_some_iff.mp h
    obtain ⟨_, _, h⟩ := Option.bind_eq_some_iff.mp h
    obtain ⟨_, _, h⟩ := Option.bind_eq_some_iff.mp h
    obtain ⟨_, _, rfl⟩ := Option.map_eq_some_iff.mp h
    obtain ⟨hsel, hdata⟩ := State.poll_of_drained hs.noData hpoll
    refine ⟨⟨hx, by rw [hwait]; exact hs.waiting, by rw [hresp]; exact hs.noAnswer, ?_⟩, hsel⟩
    show t.hdlResp.sent.length = t.hdlResp.taken
    rw [hdata]
    exact hs.noData
  | interrupt d stack =>
    cases h
    exact ⟨⟨hx, hs.waiting, hs.noAnswer, hs.noData⟩, id⟩
  | deliver pipe =>
    -- requests on their way may arrive; no answer is on its way
    refine ⟨?_, id⟩
    cases pipe with
    | qemuReq =>
      obtain ⟨_, _, rfl⟩ := Option.map_eq_some_iff.mp h
      exact ⟨hx, hs.waiting, hs.noAnswer, hs.noData⟩
    | hdlReq =>
      obtain ⟨_, _, rfl⟩ := Option.map_eq_some_iff.mp h
      exact ⟨hx, hs.waiting, hs.noAnswer, hs.noData⟩
    | qemuResp =>
      obtain ⟨_, hdeliver, _⟩ := Option.map_eq_some_iff.mp h
      rw [Fifo.deliver_of_drained hs.noAnswer] at hdeliver
      exact absurd hdeliver (by simp)
    | hdlResp =>
      obtain ⟨_, hdeliver, _⟩ := Option.map_eq_some_iff.mp h
      rw [Fifo.deliver_of_drained hs.noData] at hdeliver
      exact absurd hdeliver (by simp)
  | recv env =>
    obtain ⟨r, hdev, _⟩ := Option.map_eq_some_iff.mp h
    obtain ⟨_, q, hq, _⟩ := MmioState.recv_eq_some hdev
    -- the receive can only return by failing
    rcases accZframeRecvLogged_cases hq with ⟨hfails, _⟩ | ⟨_, f, _, htaken⟩
    · exact absurd (hrecv.symm.trans hfails) (by simp)
    · rw [Fifo.recv?_of_drained hs.noAnswer] at htaken
      exact absurd htaken (by simp)
  | call a => exact absurd (step_call h).2.1 hs.waiting
  | activate => exact absurd (step_activate h).1 hs.waiting
  | iterate => exact absurd (hs.exclusive (step_iterate h).1) hs.waiting
  | finish =>
    obtain ⟨_, rfl⟩ := step_finish h
    exact ⟨⟨hx, hs.waiting, hs.noAnswer, hs.noData⟩, id⟩

/-- **A run**, as long as the slave answers only after its read. -/
theorem Stuck.run {tr : List (State p × Event p)} (hs : Stuck s) (h : Run conf warnMs s tr s')
    (hrecv : ∀ c ∈ tr, c.2.Unbroken warnMs) (hslave : AnswersAfterRead tr) : Stuck s' := by
  induction tr generalizing s with
  | nil =>
    cases h
    exact hs
  | cons c tr ih =>
    obtain ⟨t, rfl, hstep, hrun⟩ := h.cons_inv
    have hsilent : c.2.Silent := hslave [] c tr rfl (by simp)
    obtain ⟨ht, hnot⟩ := hs.step hsilent (hrecv c List.mem_cons_self) hstep
    refine ih ht hrun (fun d hd => hrecv d (List.mem_cons_of_mem _ hd)) ?_
    rintro before d after rfl hbefore
    refine hslave (c :: before) d after rfl fun b hb => ?_
    rcases List.mem_cons.mp hb with rfl | hb
    · exact hnot
    · exact hbefore b hb

/-! ## Any access that waits -/

/--
**While an access waits, the requests of the device wait too.** In any state in which an access
waits, whatever the slave and the interleaving that led there.
-/
theorem circularWait {mem : Mem} {tr : List (State p × Event p)}
    (h : Run conf warnMs (init mem) tr s) (hwait : s.dev.waiting ≠ none) :
    CircularWait conf warnMs s := by
  have hx := exclusive_run h
  refine ⟨fun _ _ hrun hne => waiting_run hrun hx hwait hne, ?_, ?_⟩
  · intro hfits env s' hrecv
    obtain ⟨_, d, rfl, hnone⟩ := step_recv hrecv
    obtain ⟨es, s'', hes, hrun, _, htaken, _⟩ :=
      drains (s := { s with dev := d }) conf warnMs hfits (Or.inr hnone)
    exact ⟨es, s'', hes, hrun, htaken⟩
  · intro hanswer hdata _ _ hrun hrecv hslave
    exact (Stuck.run ⟨hx, hwait, hanswer, hdata⟩ hrun hrecv hslave).waiting

/-! ## A register that depends on host memory -/

/-- The guest reads a register; the slave takes the address, and reads the host to answer. -/
def readToAnswer : List (Event bus64) :=
  [.call (.read bar0 0x10 4), .deliver .qemuReq, edgeOf .qemuReq readyInput,
    edgeOf .none readyInput, edgeOf .none readyInput, edgeOf .none arCycle, .deliver .hdlReq]

theorem run_readToAnswer :
    ∃ (tr : List (State bus64 × Event bus64)) (s : State bus64),
      Run defaultConf 0 (init fun _ => 0) tr s ∧ s.dev.waiting ≠ none ∧
      s.ip.mr.rReadState = .data ∧ s.ip.mr.rMArvalid = false ∧
      (∃ f, s.hdlReq.front? = some f ∧ f.op = .read) ∧
      s.dev.qemuResp.sent.length = s.dev.qemuResp.taken ∧
      s.hdlResp.sent.length = s.hdlResp.taken := by
  obtain ⟨s, hrun, hrest⟩ : ∃ s, runM (step defaultConf 0) (init fun _ => 0)
      (List.replicate 100 (edgeOf .none readyInput) ++ readToAnswer) = some s ∧
      s.dev.waiting.isSome = true ∧ s.ip.mr.rReadState = .data ∧ s.ip.mr.rMArvalid = false ∧
      (∃ f, s.hdlReq.front? = some f ∧ f.op = .read) ∧
      s.dev.qemuResp.sent.length = s.dev.qemuResp.taken ∧
      s.hdlResp.sent.length = s.hdlResp.taken := by
    rw [runM_append, run_reset _ 100 (Nat.le_refl _)]
    exact ⟨_, rfl, rfl, rfl, rfl, ⟨_, rfl, rfl⟩, rfl, rfl⟩
  obtain ⟨tr, hpath, _⟩ := path_of_runM hrun
  obtain ⟨hwait, hrest⟩ := hrest
  exact ⟨tr, s, hpath, by simpa using Option.isSome_iff_ne_none.mp hwait, hrest⟩

/-- The access waits for an answer, the slave for the response to its read. -/
theorem circularWait_readToAnswer :
    ∃ (tr : List (State bus64 × Event bus64)) (s : State bus64),
      Run defaultConf 0 (init fun _ => 0) tr s ∧ CircularWait defaultConf 0 s ∧
      s.dev.qemuResp.sent.length = s.dev.qemuResp.taken ∧
      s.hdlResp.sent.length = s.hdlResp.taken := by
  obtain ⟨tr, s, hrun, hwait, _, _, _, hanswer, hdata⟩ := run_readToAnswer
  exact ⟨tr, s, hrun, circularWait hrun hwait, hanswer, hdata⟩

/-- **The `READ` of the slave is first on `hdl_req`, and nothing serves it.** -/
theorem not_servedWhileWaiting :
    ∃ (tr : List (State bus64 × Event bus64)) (s : State bus64),
      Run defaultConf 0 (init fun _ => 0) tr s ∧ s.dev.waiting ≠ none ∧
      ¬ServedWhileWaiting defaultConf 0 s := by
  obtain ⟨tr, s, hrun, hwait, _, _, ⟨f, hf, hop⟩, _⟩ := run_readToAnswer
  refine ⟨tr, s, hrun, hwait, fun hserved => ?_⟩
  obtain ⟨es, s', hes, hrun', hlt⟩ := hserved f hf hop
  obtain ⟨tr', hpath, rfl⟩ := path_of_runM hrun'
  obtain ⟨_, htaken, _⟩ := waiting_run hpath (exclusive_run hrun) hwait fun c hc =>
    hes c.2 (List.mem_map_of_mem hc)
  rw [htaken] at hlt
  exact absurd hlt (Nat.lt_irrefl _)

end QemuHdlSim.Cosim
