import QemuHdlSim.System.Cosim

/-!
# Requests of the HDL side take effect in issue order

The write slave, the read slave and the interrupt request put their frames on `hdl_req`, in some
order; `handle_hdl_request` takes them off in batches, at times of its own. `IssueOrder` says
what that comes to, in any run: at every moment the host is what executing the first so many
requests one by one makes of it, in the order they were issued, and the handler can always go on
to the end of the queue.

What the AXI side sees of it is in the last fields: a write that was answered on the B channel
was issued before, so everything issued after comes later in that order.
-/

namespace QemuHdlSim.Cosim

open Infra Axi4Ip

variable {p : BusParams} {conf : ACCConf} {warnMs : Int}

/-- The host after executing the requests `reqs` one by one. -/
def executeAll (mem : Mem) (reqs : List ACCData) : Option Host :=
  handleHdlRequest ⟨mem, [], []⟩ reqs

/-- What the run `tr` from guest memory `mem` to `s` did, in terms of the requests it issued. -/
structure IssueOrder (conf : ACCConf) (warnMs : Int) (mem : Mem) (tr : List (State p × Event p))
    (s : State p) : Prop where
  /-- `hdl_req` has the requests in issue order. -/
  sent : s.hdlReq.sent = events issued tr
  /-- The host is what the requests taken so far make of it, one by one, each once. -/
  effects : executeAll mem ((events issued tr).take s.hdlReq.taken) = some s.host
  /-- The `msix_notify` calls are those of the `INTR` requests taken so far. -/
  notified : s.notified
    = (((events issued tr).take s.hdlReq.taken).filter ACCData.isIntr).map ACCData.vector
  /-- There is one response for each `READ` taken so far. -/
  responses : s.hdlResp.sent.length
    = ((events issued tr).take s.hdlReq.taken).countP ACCData.isRead
  /-- The response to a `READ` is in its place, echoes it, and has what memory had. -/
  response : ∀ reqs f rest, events issued tr = reqs ++ f :: rest → f.op = .read →
    reqs.length < s.hdlReq.taken → ∃ h, executeAll mem reqs = some h ∧
      s.hdlResp.sent[reqs.countP ACCData.isRead]? = some (readAnswer h.mem f)
  /-- A `READ` behind a `WRITE` returns its bytes, if no `WRITE` in between covers them. -/
  readsWrite : ∀ reqs w between f rest,
    events issued tr = reqs ++ w :: between ++ f :: rest → f.op = .read →
    (reqs ++ w :: between).length < s.hdlReq.taken →
    ∀ k < f.dataSize.toNat, w.Covers (f.address.toNat + k) →
      (∀ g ∈ between, ¬g.Covers (f.address.toNat + k)) →
      ∃ r, s.hdlResp.sent[(reqs ++ w :: between).countP ACCData.isRead]? = some r ∧
        r.data.get k = w.data.get (f.address.toNat + k - w.address.toNat)
  /-- When an `INTR` is delivered, every request before it is executed. -/
  interrupt : ∀ reqs f rest, events issued tr = reqs ++ f :: rest → f.op = .intr →
    reqs.countP ACCData.isIntr < s.notified.length → reqs.length < s.hdlReq.taken
  /-- By the time of a B handshake, and on the same edge, the write it answers was issued. -/
  acked : ∀ before c after, tr = before ++ c :: after →
    (events bHandshakes (before ++ [c])).length
      ≤ (events issued before).countP ACCData.isWrite
  /-- An AR handshake issues its `READ`. -/
  arHandshake : ∀ c ∈ tr, ∀ e, c.2 = .edge e → c.1.ip.edges ≠ 0 →
    Axi4SR.ArHandshake c.1.ip.sr (srInput c.1.ip e.inp) →
    cReqRead e.stack.reqRead e.inp.iSAraddr e.inp.iSArsize.toNat e.inp.iSArlen.toNat
      (e.inp.iSArid.setWidth 32) ∈ issued c.1 c.2
  /-- While no access waits, the handler can take all that has arrived. -/
  drains : s.handling = true ∨ s.dev.waiting = none →
    ∃ es s', (∀ e ∈ es, e.IsHandler) ∧ runM (step conf warnMs) s es = some s' ∧
      s'.handling = false ∧ s'.hdlReq.taken = s.hdlReq.delivered ∧
      s'.hdlReq.sent = s.hdlReq.sent

/-! ## The fields -/

/-- A request that was taken is among the executed ones. -/
theorem executeAll_split {mem : Mem} {s : State p} {reqs rest : List ACCData} {f : ACCData}
    (h : executeAll mem ((reqs ++ f :: rest).take s.hdlReq.taken) = some s.host)
    (hlt : reqs.length < s.hdlReq.taken) :
    ∃ rest', executeAll mem (reqs ++ f :: rest') = some s.host := by
  obtain ⟨n, hn⟩ := Nat.exists_eq_add_of_lt hlt
  rw [hn, Nat.add_assoc, List.take_length_add_append] at h
  exact ⟨_, h⟩

theorem response_of_executed {mem : Mem} {s : State p} {reqs rest : List ACCData} {f : ACCData}
    (h : executeAll mem ((reqs ++ f :: rest).take s.hdlReq.taken) = some s.host)
    (hop : f.op = .read) (hlt : reqs.length < s.hdlReq.taken) :
    ∃ m, executeAll mem reqs = some m ∧
      s.hdlResp.sent[reqs.countP ACCData.isRead]? = some (readAnswer m.mem f) := by
  obtain ⟨rest', hexec⟩ := executeAll_split h hlt
  obtain ⟨m, hm, hresp⟩ := handleHdlRequest_response hexec hop
  refine ⟨m, hm, ?_⟩
  rw [List.length_nil, Nat.zero_add] at hresp
  exact hresp

/-- The bytes of a response are those of memory. -/
theorem readAnswer_get {mem : Mem} {f : ACCData} {k : Nat} (hk : k < f.dataSize.toNat)
    (hfits : f.dataSize.toNat ≤ buffSize) :
    (readAnswer mem f).data.get k = mem (f.address.toNat + k) := by
  unfold readAnswer
  rw [Buf.get_copyIn _ _ _ _ (by omega), if_pos ⟨by omega, by omega⟩, Nat.sub_zero]

/-- The write slave and the read slave are well-formed in every state a run passes. -/
theorem slavesWf_run {mem : Mem} {tr : List (State p × Event p)} {s : State p}
    (h : Run conf warnMs (init mem) tr s) : ∀ c ∈ tr, SlavesWf c.1.ip :=
  h.invariant_mem (P := fun _ _ => True) (show (fun a : State p => SlavesWf a.ip) (init mem) from
    slavesWf_init) (fun _ _ => trivial) (fun _ _ _ ha _ hb => (b_step ha hb).1)

/-- A B handshake finds its response shown. -/
theorem bHandshakes_le_owedB (s : State p) (e : Event p) :
    (bHandshakes s e).length ≤ (owedB s).length := by
  cases e with
  | edge x =>
    show (Axi4SW.bHandshake s.ip.sw _).length ≤ (Axi4SW.owedB s.ip.sw).length
    unfold Axi4SW.bHandshake Axi4SW.owedB
    cases s.ip.sw.rSBvalid <;> simp
    split <;> simp
  | _ => exact Nat.zero_le _

/-- The request of an AR handshake. -/
theorem issued_of_arHandshake {s s' : State p} {e : Edge p} (hwf : SlavesWf s.ip)
    (hstep : step conf warnMs s (.edge e) = some s') (hedges : s.ip.edges ≠ 0)
    (har : Axi4SR.ArHandshake s.ip.sr (srInput s.ip e.inp)) :
    cReqRead e.stack.reqRead e.inp.iSAraddr e.inp.iSArsize.toNat e.inp.iSArlen.toNat
      (e.inp.iSArid.setWidth 32) ∈ issued s (.edge e) := by
  obtain ⟨_, reqs, _, hreqs, _⟩ := State.edge_eq_some hstep
  have hread : reqReadFrames e.stack.reqRead s.ip e.inp = [cReqRead e.stack.reqRead
      e.inp.iSAraddr e.inp.iSArsize.toNat e.inp.iSArlen.toNat (e.inp.iSArid.setWidth 32)] := by
    unfold reqReadFrames
    rw [reqReadCalls_of_arHandshake hwf hedges har]
    rfl
  obtain ⟨ws, _, rfl⟩ := Option.map_eq_some_iff.mp hreqs
  simp only [issued, hreqs, Option.getD_some, hread]
  split
  · exact List.mem_append_right _ List.mem_cons_self
  · exact List.mem_append_left _ List.mem_cons_self

/-! ## Any run -/

/--
**Requests take effect in issue order.** In any run from time zero in which the requests fit
their frames, whatever the interleaving of clock edges, deliveries, accesses and activations of
the handler.
-/
theorem issueOrder {mem : Mem} {tr : List (State p × Event p)} {s : State p}
    (h : Run conf warnMs (init mem) tr s) (hfits : ∀ f ∈ events issued tr, f.Fits) :
    IssueOrder conf warnMs mem tr s := by
  have hsent := sent_run h
  have hexec : executeAll mem ((events issued tr).take s.hdlReq.taken) = some s.host := by
    rw [← hsent]
    exact executed_run h
  obtain ⟨⟨resps, hresps, hlen⟩, hnotified⟩ := handleHdlRequest_counts hexec
  have hnotified' : s.notified
      = (((events issued tr).take s.hdlReq.taken).filter ACCData.isIntr).map ACCData.vector :=
    hnotified
  refine ⟨hsent, hexec, hnotified', ?_, ?_, ?_, ?_, ?_, ?_, ?_⟩
  · have hresps' : s.hdlResp.sent = resps := hresps
    rw [hresps', hlen]
  · intro reqs f rest heq hop hlt
    rw [heq] at hexec
    exact response_of_executed hexec hop hlt
  · intro reqs w between f rest heq hop hlt k hk hw hbetween
    have hmem : f ∈ events issued tr := by rw [heq]; simp
    rw [heq] at hexec
    obtain ⟨m, hm, hresp⟩ := response_of_executed hexec hop hlt
    refine ⟨_, hresp, ?_⟩
    rw [readAnswer_get hk (hfits f hmem (Or.inl hop))]
    exact handleHdlRequest_written hm hw hbetween
  · intro reqs f rest heq hop hlt
    by_contra hge
    -- with so few requests taken, the interrupts delivered are among those of `reqs`
    rw [hnotified', List.length_map, ← List.countP_eq_length_filter, heq,
      List.take_append_of_le_length (Nat.le_of_not_lt hge)] at hlt
    exact absurd ((List.take_sublist _ _).countP_le) (Nat.not_le_of_lt hlt)
  · intro before c after heq
    rw [heq] at h
    obtain ⟨t, hbefore, hafter⟩ := h.append_inv
    obtain ⟨_, hc, _, _⟩ := hafter.cons_inv
    have hlaw := b_run hbefore
    have hle := bHandshakes_le_owedB c.1 c.2
    rw [hc] at hle
    rw [events_append, List.length_append, hlaw, events_cons, events_nil, List.append_nil, hc]
    exact Nat.add_le_add_left hle _
  · intro c hc e he hedges har
    obtain ⟨before, after, heq⟩ := List.append_of_mem hc
    rw [heq] at h
    obtain ⟨t, _, hafter⟩ := h.append_inv
    obtain ⟨t', rfl, hstep, _⟩ := hafter.cons_inv
    have hwf := slavesWf_run (heq ▸ h) c hc
    rw [he] at hstep ⊢
    exact issued_of_arHandshake hwf hstep hedges har
  · exact drains conf warnMs (by rw [hsent]; exact hfits)

/-! ## A write, a read of it and an interrupt -/

/-- The HDL master reads back what it wrote. -/
def arCycle : Input bus64 :=
  { readyInput with iSArvalid := true, iSAraddr := 0x1000, iSArsize := 3 }

/-- The requests, and one activation of the handler in which the third one arrives. -/
def writeReadInterrupt : List (Event bus64) :=
  [edgeOf .none awCycle, edgeOf .none wCycle, edgeOf .none readyInput, edgeOf .none arCycle,
    .interrupt 4 ACCData.zero, .deliver .hdlReq, .deliver .hdlReq, .activate, .iterate,
    .deliver .hdlReq, .iterate, .iterate, .finish]

/-- All three are executed; the response has the bytes written. -/
theorem issueOrder_writeReadInterrupt :
    ∃ (tr : List (State bus64 × Event bus64)) (s : State bus64),
      Run defaultConf 0 (init fun _ => 0) tr s ∧
      IssueOrder defaultConf 0 (fun _ => 0) tr s ∧ s.hdlReq.taken = 3 ∧ s.notified = [2] ∧
      s.hdlResp.sent.map (fun f => f.data.get 7) = [0xA5] := by
  have hrun : ∃ s, runM (step defaultConf 0) (init fun _ => 0)
      (List.replicate 100 (edgeOf .none readyInput) ++ writeReadInterrupt) = some s ∧
      s.hdlReq.sent.map (fun f => f.dataSize) = [8, 8, 0] ∧ s.hdlReq.taken = 3 ∧
      s.notified = [2] ∧ s.hdlResp.sent.map (fun f => f.data.get 7) = [0xA5] := by
    rw [runM_append, run_reset _ 100 (Nat.le_refl _)]
    refine ⟨_, rfl, rfl, rfl, rfl, ?_⟩
    decide +kernel
  obtain ⟨s, hrun, hsizes, htaken, hnotified, hdata⟩ := hrun
  obtain ⟨tr, hpath, _⟩ := path_of_runM hrun
  refine ⟨tr, s, hpath, issueOrder hpath ?_, htaken, hnotified, hdata⟩
  intro f hf _
  have hmem : f.dataSize ∈ ([8, 8, 0] : List (BitVec 32)) := by
    rw [← hsizes, sent_run hpath]
    exact List.mem_map_of_mem hf
  simp only [List.mem_cons, List.not_mem_nil, or_false] at hmem
  rcases hmem with h | h | h <;> rw [h] <;> decide

end QemuHdlSim.Cosim
