import QemuHdlSim.System.Cosim

/-!
# DMA reads in the co-simulation

A read burst of the HDL side goes through five places before its beats come: `C_req_read` puts
the request on `hdl_req`, `handle_hdl_request` answers it on `hdl_resp`, `C_poll` takes the answer
into the variables of `axi4_ip` and raises a pulse, and on the next edge `axi4_s_r` takes the
pulse, if it is waiting for one. Nothing holds a pulse back, and no frame says which burst it
answers.

`Answering` is the invariant that keeps the five together: what was called is what was answered,
with one more while the module waits.
-/

namespace QemuHdlSim.Cosim

open Infra Axi4Ip

variable {p : BusParams} {conf : ACCConf} {warnMs : Int} {s s' : State p}

/-! ## Calls, pulses and beats -/

/-- The `C_req_read` calls of an event. -/
def readCalls (s : State p) : Event p → List (Axi4SR.ReqReadCall p)
  | .edge e => reqReadCalls s.ip e.inp
  | _ => []

/-- The frames of these calls. -/
def readFrames (s : State p) : Event p → List ACCData
  | .edge e => reqReadFrames e.stack.reqRead s.ip e.inp
  | _ => []

/-- The data of the pulse that the read slave takes in an event, if it takes one. -/
def readPulses (s : State p) : Event p → List (Buf buffSize)
  | .edge e => Axi4SR.pulse s.ip.sr (srInput s.ip e.inp)
  | _ => []

/-- The beats that become owed in an event. -/
def readCredit (s : State p) : Event p → List (Axi4SR.RBeat p)
  | .edge e => Axi4SR.credit s.ip.sr (srInput s.ip e.inp)
  | _ => []

/-- The beats of the call `c` when it is answered with the data `d`. -/
def burstBeats (c : Axi4SR.ReqReadCall p) (d : Buf buffSize) : List (Axi4SR.RBeat p) :=
  Axi4SR.beats c.id c.len d

/-- In reset the HDL master offers no read address, as AXI wants it. -/
def NoReadInReset (s : State p) : Event p → Prop
  | .edge e => s.ip.edges < 100 → e.inp.iSArvalid = false
  | _ => True

/-- The frame's data is in the buffer, from the lane of its address on. -/
def Carries (busw : Nat) (f : ACCData) (d : Buf buffSize) : Prop :=
  ∀ j < f.dataSize.toNat, d.get (f.address.toNat % busw + j) = f.data.get j

/-! ## What an edge does -/

/-- The reads among the requests of an event are those of its `C_req_read` calls. -/
theorem issued_reads {e : Event p} (h : step conf warnMs s e = some s') :
    (issued s e).filter ACCData.isRead = readFrames s e := by
  cases e with
  | edge x =>
    obtain ⟨_, reqs, _, hreqs, _⟩ := State.edge_eq_some h
    have hissued : issued s (.edge x) = reqs := by simp [issued, hreqs]
    obtain ⟨ws, hws, rfl⟩ := Option.map_eq_some_iff.mp hreqs
    have hwrites : ws.filter ACCData.isRead = [] := by
      rw [List.filter_eq_nil_iff]
      intro f hf
      obtain ⟨c, _, hc⟩ := (mapM_eq_some hws).2 f hf
      simp [ACCData.isRead, cReqWrite_op hc]
    have hreads : (reqReadFrames x.stack.reqRead s.ip x.inp).filter ACCData.isRead
        = reqReadFrames x.stack.reqRead s.ip x.inp := by
      rw [List.filter_eq_self]
      intro f hf
      obtain ⟨c, _, rfl⟩ := List.mem_map.mp hf
      rfl
    rw [hissued]
    split
    · rw [List.filter_append, hwrites, hreads, List.nil_append]
      rfl
    · rw [List.filter_append, hwrites, hreads, List.append_nil]
      rfl
  | interrupt d stack =>
    show (s.interruptFrames d stack).filter ACCData.isRead = []
    rw [List.filter_eq_nil_iff]
    intro f hf
    obtain ⟨v, _, rfl⟩ := List.mem_map.mp hf
    simp [ACCData.isRead, cReqInterrupt]
  | _ => rfl

/-- One frame for each call. -/
theorem readFrames_length (s : State p) (e : Event p) :
    (readFrames s e).length = (readCalls s e).length := by
  cases e with
  | edge x => exact List.length_map _
  | _ => rfl

/-- The `hdl_resp` branch of `C_poll`, when its copy stays in range. -/
theorem carries_of_cPollHdlResp {busw : Nat} {f : ACCData} {v v' : PollVars}
    (h : cPollHdlResp busw f v = some v') : Carries busw f v'.data := by
  obtain ⟨d, hd, rfl⟩ := Option.map_eq_some_iff.mp h
  unfold Buf.memcpy? at hd
  split at hd
  · next hin =>
    cases hd
    intro j hj
    rw [Buf.get_copyIn _ _ _ _ hin.1, if_pos ⟨by omega, by omega⟩, Nat.add_sub_cancel_left,
      Nat.zero_add]
  · exact absurd hd (by simp)

/-- What `C_poll` leaves for the read slave: a pulse for each frame it takes from `hdl_resp`, with
the frame's data in place. -/
theorem State.edge_hdlResp {e : Edge p} (h : s.edge conf e = some s') :
    s'.hdlResp.sent = s.hdlResp.sent ∧
      s'.hdlResp.taken = s.hdlResp.taken + s'.ip.reqSRvalid.toNat ∧
      (s'.ip.reqSRvalid = true → ∃ f, s.hdlResp.sent[s.hdlResp.taken]? = some f ∧
        Carries p.stbw f s'.ip.vars.data) := by
  obtain ⟨⟨sock, t⟩, hpoll, h⟩ := Option.bind_eq_some_iff.mp h
  obtain ⟨r, hedge, h⟩ := Option.bind_eq_some_iff.mp h
  obtain ⟨resps, _, h⟩ := Option.bind_eq_some_iff.mp h
  obtain ⟨reqs, _, rfl⟩ := Option.map_eq_some_iff.mp h
  obtain ⟨⟨v, resp⟩, hv, heq⟩ := Option.map_eq_some_iff.mp hedge
  have hip : r.1 = next s.ip e.inp v := (congrArg Prod.fst heq).symm
  have hreq := cPoll_reqType hv
  have hpulse : r.1.reqSRvalid = decide (v.reqType = .sRd) := by rw [hip]; rfl
  show t.hdlResp.sent = _ ∧ t.hdlResp.taken = s.hdlResp.taken + r.1.reqSRvalid.toNat ∧ _
  rw [hpulse]
  -- only the last socket makes the pulse
  cases hsel : e.poll with
  | none =>
    rw [hsel] at hpoll
    cases hpoll
    simp [hreq]
  | initsock =>
    rw [hsel] at hpoll
    cases hpoll
    simp [hreq]
  | qemuReq =>
    rw [hsel] at hpoll
    obtain ⟨⟨f, q⟩, _, heq⟩ := Option.map_eq_some_iff.mp hpoll
    cases heq
    have hne : v.reqType ≠ .sRd := by
      rw [hreq]
      simp only
      split <;> simp
    simp [hne]
  | hdlResp =>
    rw [hsel] at hpoll
    obtain ⟨⟨f, q⟩, hrecv, heq⟩ := Option.map_eq_some_iff.mp hpoll
    cases heq
    obtain ⟨_, hf, hsent, htaken, _⟩ := Fifo.recv?_eq_some hrecv
    refine ⟨hsent, by simp [hreq, htaken], fun _ => ⟨f, hf, ?_⟩⟩
    rw [hip]
    obtain ⟨w, hw, heq⟩ := Option.map_eq_some_iff.mp hv
    cases heq
    exact carries_of_cPollHdlResp hw

/-- What an edge can do to the read slave and the requests it has out. -/
theorem sr_edge {e : Edge p} (hw : SlavesWf s.ip) (hquiet : NoReadInReset s (.edge e))
    (h : s.edge conf e = some s') :
    (∃ c, readCalls s (.edge e) = [c] ∧ readPulses s (.edge e) = [] ∧
        readCredit s (.edge e) = [] ∧ s.ip.sr.rReadState ≠ .data ∧ s'.ip.sr.rReadState = .data ∧
        s'.ip.sr.rId = c.id ∧ s'.ip.sr.rLen = c.len) ∨
      (readCalls s (.edge e) = [] ∧ readPulses s (.edge e) = [s.ip.vars.data] ∧
        readCredit s (.edge e) = Axi4SR.beats s.ip.sr.rId s.ip.sr.rLen s.ip.vars.data ∧
        s.ip.sr.rReadState = .data ∧ s.ip.reqSRvalid = true ∧ s'.ip.sr.rReadState ≠ .data) ∨
      (readCalls s (.edge e) = [] ∧ readPulses s (.edge e) = [] ∧ readCredit s (.edge e) = [] ∧
        (s.ip.sr.rReadState = .data → s.ip.reqSRvalid = false) ∧
        (s'.ip.sr.rReadState = .data ↔ s.ip.sr.rReadState = .data) ∧
        (s.ip.sr.rReadState = .data →
          s'.ip.sr.rId = s.ip.sr.rId ∧ s'.ip.sr.rLen = s.ip.sr.rLen)) := by
  obtain ⟨_, _, _, _, _, _, _, _, _, sock, hclock⟩ := State.edge_eq_some h
  obtain ⟨v, _, _, hip⟩ := clock_eq_some hclock
  by_cases hedges : s.ip.edges < 100
  · -- in reset the slave is idle and stays so
    obtain ⟨hsr, _⟩ := hw.reset hedges
    have hidle : s.ip.sr.rReadState = .idle := by rw [hsr]; rfl
    have hsr' : s'.ip.sr = Axi4SR.reset := by rw [hip]; exact (next_of_reset hedges e.inp v).2.2.1
    have hcalls : reqReadCalls s.ip e.inp = [] := by
      unfold reqReadCalls Axi4SR.cReq
      rw [if_neg (show ¬(_ ∧ _) by simp [srInput, hquiet hedges]), ite_self]
    have hpulse : Axi4SR.pulse s.ip.sr (srInput s.ip e.inp) = [] := if_neg (by simp [hidle])
    refine Or.inr (Or.inr ⟨hcalls, hpulse, ?_, by simp [hidle], ?_, by simp [hidle]⟩)
    · simp [readCredit, Axi4SR.credit, hpulse]
    · rw [hsr', hidle]
      simp [Axi4SR.reset]
  · have hr : (srInput s.ip e.inp).iRstN = true := aresetn_eq_true.mpr (by omega)
    have hstep : s'.ip.sr = Axi4SR.step s.ip.sr (srInput s.ip e.inp) := by rw [hip]; rfl
    have hcalls : reqReadCalls s.ip e.inp = Axi4SR.cReq s.ip.sr (srInput s.ip e.inp) :=
      if_neg (by omega)
    by_cases har : Axi4SR.ArHandshake s.ip.sr (srInput s.ip e.inp)
    · obtain ⟨hidle, hdata, hid, hlen⟩ := Axi4SR.step_ar hr hw.sr har
      have hpulse : Axi4SR.pulse s.ip.sr (srInput s.ip e.inp) = [] := if_neg (by simp [hidle])
      refine Or.inl ⟨⟨e.inp.iSAraddr, e.inp.iSArsize, e.inp.iSArlen, e.inp.iSArid⟩, ?_, hpulse, ?_,
        by simp [hidle], by rw [hstep, hdata], by rw [hstep, hid]; rfl, by rw [hstep, hlen]; rfl⟩
      · show reqReadCalls s.ip e.inp = _
        rw [hcalls, Axi4SR.cReq_eq hw.sr, if_pos har]
        rfl
      · simp [readCredit, Axi4SR.credit, hpulse]
    · obtain ⟨hid, hlen, hdata⟩ := Axi4SR.step_no_ar hr hw.sr har
      have hnone : readCalls s (.edge e) = [] := by
        show reqReadCalls s.ip e.inp = _
        rw [hcalls, Axi4SR.cReq_eq hw.sr, if_neg har]
      by_cases hmet : s.ip.sr.rReadState = .data ∧ s.ip.reqSRvalid = true
      · have hpulse : Axi4SR.pulse s.ip.sr (srInput s.ip e.inp) = [s.ip.vars.data] := if_pos hmet
        refine Or.inr (Or.inl ⟨hnone, hpulse, ?_, hmet.1, hmet.2, ?_⟩)
        · simp [readCredit, Axi4SR.credit, hpulse]
        · rw [hstep, Ne, hdata]
          simp [srInput, hmet.2]
      · have hpulse : Axi4SR.pulse s.ip.sr (srInput s.ip e.inp) = [] := if_neg hmet
        have hnot : s.ip.sr.rReadState = .data → s.ip.reqSRvalid = false := by
          intro hd
          rw [← Bool.not_eq_true]
          exact fun hv => hmet ⟨hd, hv⟩
        refine Or.inr (Or.inr ⟨hnone, hpulse, ?_, hnot, ?_, fun _ => ?_⟩)
        · simp [readCredit, Axi4SR.credit, hpulse]
        · rw [hstep, hdata]
          exact ⟨And.left, fun hd => ⟨hd, hnot hd⟩⟩
        · rw [hstep]
          exact ⟨hid, hlen⟩

/-- What is no edge leaves the IP and its side of `hdl_resp` alone. -/
theorem step_other {e : Event p} (hne : ∀ x, e ≠ .edge x) (h : step conf warnMs s e = some s') :
    s'.ip = s.ip ∧ s'.hdlResp.taken = s.hdlResp.taken ∧
      (∃ fs, s'.hdlResp.sent = s.hdlResp.sent ++ fs) ∧ readCalls s e = [] ∧
      readPulses s e = [] ∧ readCredit s e = [] := by
  have hnone : readCalls s e = [] ∧ readPulses s e = [] ∧ readCredit s e = [] := by
    cases e with
    | edge x => exact absurd rfl (hne x)
    | _ => exact ⟨rfl, rfl, rfl⟩
  rcases step_cases h with ⟨x, rfl, _⟩ | ⟨d, stack, rfl, rfl⟩ | ⟨pipe, rfl, hd⟩ |
    ⟨rfl, _, hserve⟩ | ⟨_, d, b, rfl⟩
  · exact absurd rfl (hne x)
  · exact ⟨rfl, rfl, ⟨[], (List.append_nil _).symm⟩, hnone⟩
  · refine ⟨(State.deliver_eq_some hd).2.2.2.2.2.2.1, ?_, ⟨[], ?_⟩, hnone⟩
    · cases pipe with
      | hdlResp =>
        obtain ⟨q, hq, rfl⟩ := Option.map_eq_some_iff.mp hd
        exact (Fifo.deliver_eq_some hq).2.1
      | _ =>
        obtain ⟨q, _, rfl⟩ := Option.map_eq_some_iff.mp hd
        rfl
    · rw [List.append_nil]
      exact congrArg Host.hdlResp (State.deliver_eq_some hd).2.2.2.1
  · obtain ⟨⟨f, q⟩, _, hserve⟩ := Option.bind_eq_some_iff.mp hserve
    obtain ⟨r, _, rfl⟩ := Option.map_eq_some_iff.mp hserve
    exact ⟨rfl, by simp, ⟨r.resp, by simp⟩, hnone⟩
  · exact ⟨rfl, rfl, ⟨[], (List.append_nil _).symm⟩, hnone⟩

/-! ## The invariant -/

/-- What was called, what was answered and what is on its way, after the steps `past`. -/
structure Answering (mem : Mem) (past : List (State p × Event p)) (s : State p) : Prop where
  wf : SlavesWf s.ip
  executed : Executed mem s
  /-- The `READ`s on `hdl_req` are the calls. -/
  issued : (s.hdlReq.sent.filter ACCData.isRead).length = (events readCalls past).length
  /-- What `C_poll` took from `hdl_resp` went to the slave, or is the pulse of now. -/
  taken : (events readPulses past).length + s.ip.reqSRvalid.toNat = s.hdlResp.taken
  pulse : s.ip.reqSRvalid = true → ∃ f,
    s.hdlResp.sent[(events readPulses past).length]? = some f ∧ Carries p.stbw f s.ip.vars.data
  answered : ∀ (k : Nat) (d : Buf buffSize), (events readPulses past)[k]? = some d →
    ∃ f, s.hdlResp.sent[k]? = some f ∧ Carries p.stbw f d
  /-- All calls but the one that is waited for were answered, each with its own beats. -/
  calls : ∃ done, done.length = (events readPulses past).length ∧
    events readCredit past
      = (done.zip (events readPulses past)).flatMap (fun x => burstBeats x.1 x.2) ∧
    (s.ip.sr.rReadState ≠ .data → events readCalls past = done) ∧
    (s.ip.sr.rReadState = .data → ∃ c, events readCalls past = done ++ [c] ∧
      s.ip.sr.rId = c.id ∧ s.ip.sr.rLen = c.len)

theorem answering_init (mem : Mem) : Answering mem [] (init (p := p) mem) where
  wf := slavesWf_init
  executed := rfl
  issued := rfl
  taken := rfl
  pulse := fun h => absurd h Bool.false_ne_true
  answered := by simp
  calls := ⟨[], rfl, rfl, fun _ => rfl,
    fun h => absurd h (by simp [init, Axi4Ip.init, Axi4SR.reset])⟩

/-- There are no more answers than calls. -/
theorem Answering.sent_le {mem : Mem} {past : List (State p × Event p)}
    (h : Answering mem past s) : s.hdlResp.sent.length ≤ (events readCalls past).length := by
  obtain ⟨⟨fs, hresp, hlen⟩, _⟩ := handleHdlRequest_counts h.executed
  have hsent : s.hdlResp.sent = fs := hresp
  rw [hsent, hlen, ← h.issued, ← List.countP_eq_length_filter]
  exact (List.take_sublist _ _).countP_le

/-- **A pulse finds the slave out of reset and waiting for it.** -/
theorem Answering.met {mem : Mem} {past : List (State p × Event p)} (h : Answering mem past s)
    (hv : s.ip.reqSRvalid = true) : s.ip.aresetn = true ∧ s.ip.sr.rReadState = .data := by
  have hdata : s.ip.sr.rReadState = .data := by
    by_contra hne
    obtain ⟨done, hdone, _, hcalls, _⟩ := h.calls
    have htaken := h.taken
    have hle := Nat.le_trans s.hdlResp.taken_le_sent h.sent_le
    rw [hv, Bool.toNat_true] at htaken
    rw [hcalls hne, hdone] at hle
    omega
  refine ⟨aresetn_eq_true.mpr ?_, hdata⟩
  by_contra hlt
  obtain ⟨hsr, _⟩ := h.wf.reset (by omega)
  rw [hsr] at hdata
  exact absurd hdata (by simp [Axi4SR.reset])

/-- The part of the invariant that is about the pipe to the handler. -/
theorem Answering.requests {mem : Mem} {past : List (State p × Event p)} {e : Event p}
    (h : Answering mem past s) (hstep : step conf warnMs s e = some s') :
    Executed mem s' ∧ (s'.hdlReq.sent.filter ACCData.isRead).length
      = (events readCalls (past ++ [(s, e)])).length := by
  refine ⟨h.executed.step hstep, ?_⟩
  rw [sent_step hstep, List.filter_append, List.length_append, h.issued, issued_reads hstep,
    readFrames_length, events_append, List.length_append, events_cons, events_nil, List.append_nil]

/-- What is no edge. -/
theorem Answering.other {mem : Mem} {past : List (State p × Event p)} {e : Event p}
    (h : Answering mem past s) (hne : ∀ x, e ≠ .edge x)
    (hstep : step conf warnMs s e = some s') : Answering mem (past ++ [(s, e)]) s' := by
  obtain ⟨hip, htaken, ⟨fs, hsent⟩, hcalls, hpulses, hcredit⟩ := step_other hne hstep
  obtain ⟨hexec, hissued⟩ := h.requests hstep
  have hcalls' : events readCalls (past ++ [(s, e)]) = events readCalls past := by simp [hcalls]
  have hpulses' : events readPulses (past ++ [(s, e)]) = events readPulses past := by
    simp [hpulses]
  have hcredit' : events readCredit (past ++ [(s, e)]) = events readCredit past := by
    simp [hcredit]
  have hkept : ∀ {k : Nat} {f : ACCData}, s.hdlResp.sent[k]? = some f →
      s'.hdlResp.sent[k]? = some f := by
    intro k f hf
    rw [hsent, List.getElem?_append_left (List.getElem?_eq_some_iff.mp hf).1, hf]
  refine ⟨by rw [hip]; exact h.wf, hexec, hissued, ?_, ?_, ?_, ?_⟩
  · rw [hpulses', hip, htaken]
    exact h.taken
  · rw [hpulses', hip]
    intro hv
    obtain ⟨f, hf, hd⟩ := h.pulse hv
    exact ⟨f, hkept hf, hd⟩
  · rw [hpulses']
    intro k d hk
    obtain ⟨f, hf, hd⟩ := h.answered k d hk
    exact ⟨f, hkept hf, hd⟩
  · rw [hcalls', hpulses', hcredit', hip]
    exact h.calls

/-- After an edge every frame taken before is with the slave, and the one taken on it is the
pulse. -/
theorem Answering.edge_pulses {mem : Mem} {past : List (State p × Event p)} {e : Edge p}
    (h : Answering mem past s) (hquiet : NoReadInReset s (.edge e))
    (hstep : s.edge conf e = some s') :
    (events readPulses (past ++ [(s, .edge e)])).length = s.hdlResp.taken ∧
      ∀ (k : Nat) (d : Buf buffSize), (events readPulses (past ++ [(s, .edge e)]))[k]? = some d →
        ∃ f, s.hdlResp.sent[k]? = some f ∧ Carries p.stbw f d := by
  have htaken := h.taken
  rw [events_append, events_cons, events_nil, List.append_nil]
  rcases sr_edge h.wf hquiet hstep with ⟨_, _, hpulses, _, hne, _⟩ |
    ⟨_, hpulses, _, _, hv, _⟩ | ⟨_, hpulses, _, hnot, _⟩
  · have hlow : s.ip.reqSRvalid = false := by
      rw [← Bool.not_eq_true]
      exact fun hv => hne (h.met hv).2
    rw [hlow, Bool.toNat_false] at htaken
    rw [hpulses, List.append_nil]
    exact ⟨htaken, h.answered⟩
  · rw [hv, Bool.toNat_true] at htaken
    rw [hpulses]
    refine ⟨by simpa using htaken, ?_⟩
    intro k d hk
    rcases Nat.lt_trichotomy k (events readPulses past).length with hlt | heq | hgt
    · rw [List.getElem?_append_left hlt] at hk
      exact h.answered k d hk
    · rw [heq, List.getElem?_concat_length] at hk
      cases hk
      rw [heq]
      exact h.pulse hv
    · rw [List.getElem?_eq_none (by simp; omega)] at hk
      exact absurd hk (by simp)
  · have hlow : s.ip.reqSRvalid = false := by
      rw [← Bool.not_eq_true]
      intro hv
      rw [hnot (h.met hv).2] at hv
      exact absurd hv (by simp)
    rw [hlow, Bool.toNat_false] at htaken
    rw [hpulses, List.append_nil]
    exact ⟨htaken, h.answered⟩

/-- The calls and the beats after an edge. -/
theorem Answering.edge_calls {mem : Mem} {past : List (State p × Event p)} {e : Edge p}
    (h : Answering mem past s) (hquiet : NoReadInReset s (.edge e))
    (hstep : s.edge conf e = some s') :
    ∃ done, done.length = (events readPulses (past ++ [(s, .edge e)])).length ∧
      events readCredit (past ++ [(s, .edge e)])
        = (done.zip (events readPulses (past ++ [(s, .edge e)]))).flatMap
            (fun x => burstBeats x.1 x.2) ∧
      (s'.ip.sr.rReadState ≠ .data → events readCalls (past ++ [(s, .edge e)]) = done) ∧
      (s'.ip.sr.rReadState = .data → ∃ c,
        events readCalls (past ++ [(s, .edge e)]) = done ++ [c] ∧ s'.ip.sr.rId = c.id ∧
          s'.ip.sr.rLen = c.len) := by
  obtain ⟨done, hlen, hbeats, hidle, hopen⟩ := h.calls
  simp only [events_append, events_cons, events_nil, List.append_nil]
  rcases sr_edge h.wf hquiet hstep with ⟨c, hcalls, hpulses, hcredit, hne, hdata, hid, hl⟩ |
    ⟨hcalls, hpulses, hcredit, hdata, _, hne⟩ | ⟨hcalls, hpulses, hcredit, _, hiff, hregs⟩
  · -- a new call
    rw [hcalls, hpulses, hcredit, List.append_nil, List.append_nil]
    exact ⟨done, hlen, hbeats, fun hno => absurd hdata hno,
      fun _ => ⟨c, by rw [hidle hne], hid, hl⟩⟩
  · -- the answer to the call that was open
    obtain ⟨c, hcs, hid, hl⟩ := hopen hdata
    rw [hcalls, hpulses, hcredit, List.append_nil]
    refine ⟨done ++ [c], by simp [hlen], ?_, fun _ => hcs, fun hd => absurd hd hne⟩
    rw [List.zip_append hlen, List.flatMap_append, hbeats, hid, hl]
    simp [burstBeats]
  · rw [hcalls, hpulses, hcredit, List.append_nil, List.append_nil, List.append_nil]
    refine ⟨done, hlen, hbeats, fun hno => hidle fun hd => hno (hiff.mpr hd), fun hd => ?_⟩
    obtain ⟨c, hcs, hid, hl⟩ := hopen (hiff.mp hd)
    obtain ⟨hid', hl'⟩ := hregs (hiff.mp hd)
    exact ⟨c, hcs, hid'.trans hid, hl'.trans hl⟩

/-- **One step keeps it.** -/
theorem Answering.step {mem : Mem} {past : List (State p × Event p)} {e : Event p}
    (h : Answering mem past s) (hquiet : NoReadInReset s e)
    (hstep : Cosim.step conf warnMs s e = some s') : Answering mem (past ++ [(s, e)]) s' := by
  by_cases hedge : ∃ x, e = .edge x
  · obtain ⟨x, rfl⟩ := hedge
    obtain ⟨hexec, hissued⟩ := h.requests hstep
    obtain ⟨hsent, htaken, hpulse⟩ := State.edge_hdlResp hstep
    obtain ⟨hlen, hanswered⟩ := h.edge_pulses hquiet hstep
    refine ⟨(b_step h.wf hstep).1, hexec, hissued, ?_, ?_, ?_, h.edge_calls hquiet hstep⟩
    · rw [hlen, htaken]
    · rw [hlen, hsent]
      exact hpulse
    · rw [hsent]
      exact hanswered
  · exact h.other (fun x hx => hedge ⟨x, hx⟩) hstep

/-- **In every run** in which the HDL master offers no read address in reset. -/
theorem answering_run {mem : Mem} {tr : List (State p × Event p)}
    (h : Run conf warnMs (init mem) tr s) (hquiet : ∀ c ∈ tr, NoReadInReset c.1 c.2) :
    Answering mem tr s :=
  h.history (answering_init mem) hquiet fun _ _ _ _ ha hq hb => ha.step hq hb

end QemuHdlSim.Cosim
