import QemuHdlSim.System.DmaRead
import QemuHdlSim.Properties.DmaRead
import QemuHdlSim.Properties.IssueOrder

/-!
# Every answer finds its read burst

`hdl_resp` carries no burst number that `axi4_s_r` looks at, and the pulse of `C_poll` cannot be
held back. `ReadPairing` says why no answer is lost or shown to another burst all the same, in any
run of the co-simulation with any mixture of accesses, writes, interrupts and deliveries.
-/

namespace QemuHdlSim.Cosim

open Infra Axi4Ip

variable {p : BusParams} {conf : ACCConf} {warnMs : Int} {s s' : State p}

/-- The R handshake of an event, if there is one. -/
def rHandshakes (s : State p) : Event p → List (Axi4SR.RBeat p)
  | .edge e => Axi4SR.rHandshake s.ip.sr (srInput s.ip e.inp)
  | _ => []

/-- The master takes the beat it finds in the first cycle after a burst. -/
def TakesLast (s : State p) : Event p → Prop
  | .edge e => Axi4SR.Presentable s.ip.sr (srInput s.ip e.inp)
  | _ => True

/-- `f` is the frame of the call `c`. -/
def IsFrameOf (c : Axi4SR.ReqReadCall p) (f : ACCData) : Prop :=
  ∃ stack, f = cReqRead stack c.addr c.width.toNat c.len.toNat (c.id.setWidth 32)

/-- The data `d` answers the call `c`, which is the `k`-th `READ` among the requests `issued`:
it is what memory had once the requests before it were executed. -/
def Answers (mem : Mem) (issued : List ACCData) (k : Nat) (c : Axi4SR.ReqReadCall p)
    (d : Buf buffSize) : Prop :=
  ∃ reqs f rest m, issued = reqs ++ f :: rest ∧ IsFrameOf c f ∧ reqs.countP ACCData.isRead = k ∧
    executeAll mem reqs = some m ∧
    ∀ j < c.total, d.get (c.addr.toNat % p.stbw + j) = m.mem (c.addr.toNat + j)

/-- What holds of the read bursts in a run `tr` from guest memory `mem` to `s`. -/
structure ReadPairing (mem : Mem) (tr : List (State p × Event p)) (s : State p) : Prop where
  /-- No pulse is lost: it finds the slave out of reset and waiting. -/
  met : ∀ c ∈ tr, c.1.ip.reqSRvalid = true →
    c.1.ip.aresetn = true ∧ c.1.ip.sr.rReadState = .data
  /-- The calls are the `READ`s, in order. -/
  frames : List.Forall₂ IsFrameOf (events readCalls tr) ((events issued tr).filter ACCData.isRead)
  /-- At most one is not answered, and for that one the slave waits. -/
  outstanding : (events readCalls tr).length
    = (events readPulses tr).length + (if s.ip.sr.rReadState = .data then 1 else 0)
  /-- The answers are to the calls, one to one and in order. -/
  answers : ∀ (k : Nat) (d : Buf buffSize), (events readPulses tr)[k]? = some d →
    ∃ c, (events readCalls tr)[k]? = some c ∧ Answers mem (events issued tr) k c d
  /-- What is on the R channel is, burst by burst, cut out of the burst's own answer. -/
  beats : (∀ c ∈ tr, TakesLast c.1 c.2) →
    ((events readCalls tr).zip (events readPulses tr)).flatMap (fun x => burstBeats x.1 x.2)
      = events rHandshakes tr ++ Axi4SR.owed s.ip.sr

/-! ## The fields -/

/-- The calls of one event and its frames. -/
theorem isFrameOf_event (s : State p) (e : Event p) :
    List.Forall₂ IsFrameOf (readCalls s e) (readFrames s e) := by
  cases e with
  | edge x =>
    show List.Forall₂ IsFrameOf (reqReadCalls s.ip x.inp)
      ((reqReadCalls s.ip x.inp).map _)
    rw [List.forall₂_map_right_iff]
    exact List.forall₂_same.mpr fun c _ => ⟨x.stack.reqRead, rfl⟩
  | _ => exact List.Forall₂.nil

theorem isFrameOf_run {tr : List (State p × Event p)} (h : Run conf warnMs s tr s') :
    List.Forall₂ IsFrameOf (events readCalls tr) ((events issued tr).filter ACCData.isRead) := by
  induction h with
  | nil => exact List.Forall₂.nil
  | cons hstep _ ih =>
    rw [events_cons, events_cons, List.filter_append, issued_reads hstep]
    exact List.rel_append (isFrameOf_event _ _) ih

/-- The byte count of a call fits a `uint32_t`. -/
theorem isFrameOf_dataSize {c : Axi4SR.ReqReadCall p} {f : ACCData} (h : IsFrameOf c f) :
    f.dataSize.toNat = c.total := by
  obtain ⟨stack, rfl⟩ := h
  have hlen := c.len.isLt
  have hwidth : 2 ^ c.width.toNat ≤ 2 ^ 7 := Nat.pow_le_pow_right (by omega) (by omega)
  have hle : (c.len.toNat + 1) * 2 ^ c.width.toNat ≤ 256 * 2 ^ 7 :=
    Nat.mul_le_mul (by omega) hwidth
  show (BitVec.ofNat 32 ((c.len.toNat + 1) * 2 ^ c.width.toNat)).toNat = _
  rw [BitVec.toNat_ofNat, Nat.mod_eq_of_lt (Nat.lt_of_le_of_lt hle (by decide))]
  rfl

theorem fits_of_executed {h h' : Host} {q q' : List ACCData} {f : ACCData}
    (hq : handleHdlRequest h (q ++ f :: q') = some h') (hop : f.op = .read) :
    f.dataSize.toNat ≤ buffSize := by
  obtain ⟨m, _, hrest⟩ := handleHdlRequest_append_eq_some hq
  obtain ⟨r, hr, _⟩ := handleHdlRequest_cons_eq_some hrest
  rcases serveFrame_cases hr with ⟨_, hfits, _⟩ | ⟨hop', _⟩ | ⟨hop', _⟩ | ⟨hop' | hop', _⟩
  · exact hfits
  all_goals exact absurd (hop.symm.trans hop') (by decide)

/-- The `k`-th response is the answer to the `k`-th `READ`. -/
theorem response_split {mem : Mem} {q : List ACCData} {host : Host} {k : Nat} {r : ACCData}
    (h : executeAll mem q = some host) (hk : host.hdlResp[k]? = some r) :
    ∃ reqs f rest m, q = reqs ++ f :: rest ∧ f.op = .read ∧ reqs.countP ACCData.isRead = k ∧
      executeAll mem reqs = some m ∧ f.dataSize.toNat ≤ buffSize ∧ r = readAnswer m.mem f := by
  obtain ⟨⟨fs, hresp, hlen⟩, _⟩ := handleHdlRequest_counts h
  have hlt : k < q.countP ACCData.isRead := by
    rw [← hlen]
    rw [hresp] at hk
    exact (List.getElem?_eq_some_iff.mp hk).1
  obtain ⟨reqs, f, rest, rfl, hf, hcount⟩ := exists_append_of_lt_countP hlt
  have hop : f.op = .read := of_decide_eq_true hf
  obtain ⟨m, hm, hget⟩ := handleHdlRequest_response h hop
  rw [List.length_nil, Nat.zero_add, hcount, hk] at hget
  exact ⟨reqs, f, rest, m, rfl, hop, hcount, hm, fits_of_executed h hop, Option.some.inj hget⟩

/-- **An answer that the slave has taken.** -/
theorem answers_of_answering {mem : Mem} {tr : List (State p × Event p)}
    (h : Run conf warnMs (init mem) tr s) (ha : Answering mem tr s) {k : Nat}
    {d : Buf buffSize} (hk : (events readPulses tr)[k]? = some d) :
    ∃ c, (events readCalls tr)[k]? = some c ∧ Answers mem (events issued tr) k c d := by
  obtain ⟨r, hr, hcarries⟩ := ha.answered k d hk
  obtain ⟨reqs, f, rest, m, hsplit, hop, hcount, hm, hfits, rfl⟩ :=
    response_split ha.executed hr
  -- the frames taken so far are the front of all that was issued
  have hissued : events issued tr = reqs ++ f :: (rest ++ s.hdlReq.sent.drop s.hdlReq.taken) := by
    rw [← sent_run h]
    calc s.hdlReq.sent
        = s.hdlReq.sent.take s.hdlReq.taken ++ s.hdlReq.sent.drop s.hdlReq.taken :=
          (List.take_append_drop _ _).symm
      _ = _ := by rw [hsplit, List.append_assoc, List.cons_append]
  have hread : ACCData.isRead f = true := decide_eq_true hop
  have hframe := getElem?_filter_append (P := ACCData.isRead) (a := reqs)
    (b := rest ++ s.hdlReq.sent.drop s.hdlReq.taken) hread
  rw [← hissued, hcount] at hframe
  obtain ⟨hlt, hget⟩ := List.getElem?_eq_some_iff.mp hframe
  have hall := isFrameOf_run h
  have hlt' : k < (events readCalls tr).length := by rw [hall.length_eq]; exact hlt
  have hof : IsFrameOf (events readCalls tr)[k] f := by
    have := hall.get hlt' hlt
    rwa [List.get_eq_getElem, List.get_eq_getElem, hget] at this
  refine ⟨_, List.getElem?_eq_getElem hlt', reqs, f, _, m, hissued, hof, hcount, hm, ?_⟩
  intro j hj
  have haddr : f.address = (events readCalls tr)[k].addr := by
    obtain ⟨stack, rfl⟩ := hof
    rfl
  have hj' : j < f.dataSize.toNat := by rw [isFrameOf_dataSize hof]; exact hj
  have hget := hcarries j hj'
  rw [readAnswer_get hj' hfits] at hget
  rw [← haddr]
  exact hget

/-- The R channel, in reset and after. -/
theorem r_step {e : Event p} (hw : SlavesWf s.ip) (hlast : TakesLast s e)
    (h : step conf warnMs s e = some s') :
    SlavesWf s'.ip ∧ Axi4SR.owed s.ip.sr ++ readCredit s e
      = rHandshakes s e ++ Axi4SR.owed s'.ip.sr := by
  refine ⟨(b_step hw h).1, ?_⟩
  cases e with
  | edge x =>
    obtain ⟨_, _, _, _, _, _, _, _, _, sock, hclock⟩ := State.edge_eq_some h
    obtain ⟨v, _, _, hip⟩ := clock_eq_some hclock
    by_cases hedges : s.ip.edges < 100
    · obtain ⟨hsr, _⟩ := hw.reset hedges
      have hsr' : s'.ip.sr = Axi4SR.reset := by rw [hip]; exact (next_of_reset hedges x.inp v).2.2.1
      rw [hsr', hsr]
      simp [readCredit, rHandshakes, hsr, Axi4SR.credit, Axi4SR.pulse, Axi4SR.rHandshake,
        Axi4SR.owed, Axi4SR.reset]
    · have hr : (srInput s.ip x.inp).iRstN = true := aresetn_eq_true.mpr (by omega)
      rw [hip]
      exact (Axi4SR.owed_step hr hw.sr hlast).2
  | _ =>
    obtain ⟨hip, _, _, _, _, hcredit⟩ := step_other (by simp) h
    rw [hip, hcredit, List.append_nil]
    rfl

/-! ## Any run -/

/-- At most one call is not answered. -/
theorem outstanding_of_answering {mem : Mem} {tr : List (State p × Event p)}
    (ha : Answering mem tr s) : (events readCalls tr).length
      = (events readPulses tr).length + (if s.ip.sr.rReadState = .data then 1 else 0) := by
  obtain ⟨done, hlen, _, hidle, hopen⟩ := ha.calls
  split
  · next hd =>
    obtain ⟨c, hc, _⟩ := hopen hd
    rw [hc, List.length_append, hlen]
    rfl
  · next hd => rw [hidle hd, hlen, Nat.add_zero]

/-- What is on the R channel is cut out of the answers, burst by burst. -/
theorem beats_run {mem : Mem} {tr : List (State p × Event p)} (h : Run conf warnMs (init mem) tr s)
    (hquiet : ∀ c ∈ tr, NoReadInReset c.1 c.2) (hlast : ∀ c ∈ tr, TakesLast c.1 c.2) :
    ((events readCalls tr).zip (events readPulses tr)).flatMap (fun x => burstBeats x.1 x.2)
      = events rHandshakes tr ++ Axi4SR.owed s.ip.sr := by
  have hlaw : Axi4SR.owed (init (p := p) mem).ip.sr ++ events readCredit tr
      = events rHandshakes tr ++ Axi4SR.owed s.ip.sr := by
    refine h.conserve (P := TakesLast) ?_ hlast (fun _ _ _ hw hl hb => r_step hw hl hb)
    exact slavesWf_init
  obtain ⟨done, hlen, hbeats, hidle, hopen⟩ := (answering_run h hquiet).calls
  rw [← hlaw, hbeats]
  show _ = [] ++ _
  rw [List.nil_append]
  -- the call that is not answered has no partner
  by_cases hd : s.ip.sr.rReadState = .data
  · obtain ⟨c, hc, _⟩ := hopen hd
    have hzip : (done ++ [c]).zip (events readPulses tr ++ [])
        = done.zip (events readPulses tr) ++ [c].zip [] := List.zip_append hlen
    rw [List.append_nil, List.zip_nil_right, List.append_nil] at hzip
    rw [hc, hzip]
  · rw [hidle hd]

/--
**Every answer finds its read burst.** In any run from time zero in which the HDL master offers no
read address in reset, whatever the interleaving.
-/
theorem readPairing {mem : Mem} {tr : List (State p × Event p)} {s : State p}
    (h : Run conf warnMs (init mem) tr s) (hquiet : ∀ c ∈ tr, NoReadInReset c.1 c.2) :
    ReadPairing mem tr s := by
  have ha := answering_run h hquiet
  refine ⟨?_, isFrameOf_run h, outstanding_of_answering ha, fun k d hk =>
    answers_of_answering h ha hk, beats_run h hquiet⟩
  intro c hc
  obtain ⟨before, after, heq⟩ := List.append_of_mem hc
  rw [heq] at h hquiet
  obtain ⟨t, hbefore, hafter⟩ := h.append_inv
  obtain ⟨_, rfl, _, _⟩ := hafter.cons_inv
  exact (answering_run hbefore fun d hd => hquiet d (List.mem_append_left _ hd)).met

/-! ## One burst -/

/-- No read address is offered in the events `es`. -/
def NoAddress (es : List (Event p)) : Prop := ∀ e ∈ es, ∀ x, e = .edge x → x.inp.iSArvalid = false

theorem NoAddress.noReadInReset {es : List (Event p)} {tr : List (State p × Event p)}
    (h : NoAddress es) (htr : tr.map Prod.snd = es) : ∀ c ∈ tr, NoReadInReset c.1 c.2 := by
  intro c hc
  have hmem : c.2 ∈ es := by
    rw [← htr]
    exact List.mem_map_of_mem hc
  cases he : c.2 with
  | edge x => exact fun _ => h c.2 hmem x he
  | _ => trivial

/-- What follows the address of a burst of one beat, up to its R handshake. -/
def answerEvents : List (Event bus64) :=
  [.deliver .hdlReq, .activate, .iterate, .finish, .deliver .hdlResp, edgeOf .hdlResp readyInput,
    edgeOf .none readyInput, edgeOf .none readyInput, edgeOf .none readyInput]

theorem noAddress_answerEvents : NoAddress answerEvents := by
  intro e he x hx
  subst hx
  simp only [answerEvents, List.mem_cons, List.not_mem_nil, or_false, reduceCtorEq, false_or,
    edgeOf, Event.edge.injEq] at he
  rcases he with rfl | rfl | rfl | rfl <;> rfl

/-- A burst right after the reset: it is answered, and its beat is handed over. -/
theorem readPairing_oneBurst :
    ∃ (tr : List (State bus64 × Event bus64)) (s : State bus64),
      Run defaultConf 0 (init fun _ => 0x5A) tr s ∧ ReadPairing (fun _ => 0x5A) tr s ∧
      s.hdlResp.taken = 1 ∧ s.ip.sr.rReadState = .idle := by
  obtain ⟨tr, hreset, htr⟩ := path_of_runM (run_reset (fun _ => 0x5A) 100 (Nat.le_refl _))
  have hfirst : ∃ t, step defaultConf 0 (inReset (fun _ => 0x5A) 100) (edgeOf .none arCycle)
      = some t ∧ ∃ s, runM (step defaultConf 0) t answerEvents = some s ∧ s.hdlResp.taken = 1 ∧
      s.ip.sr.rReadState = .idle := ⟨_, rfl, _, rfl, rfl, rfl⟩
  obtain ⟨t, hstep, s, hrun, htaken, hidle⟩ := hfirst
  obtain ⟨tr', hpath, htr'⟩ := path_of_runM hrun
  have hall := hreset.append (Path.cons hstep hpath)
  refine ⟨_, s, hall, readPairing hall ?_, htaken, hidle⟩
  have hquiet : NoAddress (List.replicate 100 (edgeOf .none readyInput)) := by
    intro e he x hx
    rw [hx] at he
    cases List.eq_of_mem_replicate he
    rfl
  intro c hc
  rcases List.mem_append.mp hc with hc | hc
  · exact hquiet.noReadInReset htr c hc
  · rcases List.mem_cons.mp hc with rfl | hc
    · exact fun hlt => absurd hlt (by decide)
    · exact noAddress_answerEvents.noReadInReset htr' c hc

end QemuHdlSim.Cosim
