import QemuHdlSim.Properties.DmaLog

/-!
# The guest memory, as the HDL side sees it

A DMA master wants one thing of the bridge: that its bursts read and write the guest memory in the
order it issued them. `DmaMemory` says so. Below the bursts are two buses, two sockets, a packing
of strobed bytes, a handler that the main loop starts when it likes, and a stack that is not
initialised; above them is a byte memory that does one operation after another.

* `means_run` — a served queue is a run of the memory
* `dmaMemory` — so is any run of the co-simulation
-/

namespace QemuHdlSim.Cosim

open Infra Axi4Ip

variable {p : BusParams} {conf : ACCConf} {warnMs : Int} {s s' : State p}

/-! ## The memory alone -/

/-- The reads of an operation, with the memory they find. -/
def memReads (mem : Mem) : DmaOp p → List (Mem × Axi4SR.ReqReadCall p)
  | .read c => [(mem, c)]
  | _ => []

/-- The interrupts of an operation. -/
def memIntrs (_ : Mem) : DmaOp p → List (BitVec 32)
  | .intr v => [v]
  | _ => []

/-- The read bursts among the operations. -/
def DmaOp.reads : DmaOp p → List (Axi4SR.ReqReadCall p)
  | .read c => [c]
  | _ => []

/-- The operation is a write burst. -/
def DmaOp.isWrite : DmaOp p → Bool
  | .write _ => true
  | _ => false

/-- The beats `bs` are the whole answer to the read `x`. -/
structure Shows (x : Mem × Axi4SR.ReqReadCall p) (bs : List (Axi4SR.RBeat p)) : Prop where
  length : bs.length = x.2.len.toNat + 1
  bytes : x.2.Exact x.1 bs
  id : ∀ b ∈ bs, b.rid = x.2.id
  last : ∀ i b, bs[i]? = some b → (b.rlast = true ↔ i = x.2.len.toNat)

/-- What the run `tr` from `mem` to `s` has to do with the run `mtr` of the memory. -/
structure DmaMemory (mem : Mem) (tr : List (State p × Event p)) (s : State p)
    (mtr : List (Mem × DmaOp p)) : Prop where
  /-- The memory does the operations one by one, and the guest memory is what they leave. -/
  run : Path DmaOp.Means mem mtr s.mem
  /-- They are the operations of the bus, in the order of the bus, up to where the handler is. -/
  ops : mtr.map Prod.snd = (dmaLog none tr).take s.hdlReq.taken
  /-- Nothing else decides what the guest memory is. -/
  unique : ∀ mtr' mem', Path DmaOp.Means mem mtr' mem' →
    mtr'.map Prod.snd = mtr.map Prod.snd → mem' = s.mem
  notified : s.notified = events memIntrs mtr
  /-- On the R channel come the answers to the read bursts, whole and in order. -/
  shown : ∃ bursts, bursts.flatten = events rHandshakes tr ++ Axi4SR.owed s.ip.sr ∧
    List.Forall₂ Shows ((events memReads mtr).take bursts.length) bursts
  /-- On the B channel comes one response for each write burst, or it is shown. -/
  acked : (dmaLog none tr).countP DmaOp.isWrite
    = (events bHandshakes tr).length + (owedB s).length

/-! ## A served queue -/

/-- The response `r` has the bytes of the read `x`. -/
structure Returns (x : Mem × Axi4SR.ReqReadCall p) (r : ACCData) : Prop where
  addr : r.address = x.2.addr
  size : r.dataSize.toNat = x.2.total
  data : ∀ j < x.2.total, r.data.get j = x.1 (x.2.addr.toNat + j)

/-- **One frame**: serving it does what its operation means. -/
theorem means_of_served {op : DmaOp p} {f : ACCData} {mem : Mem} {r : Served}
    (hop : op.Supported) (hf : Implements op f) (h : serveFrame mem f = some r) :
    op.Means mem r.mem ∧ r.notify = memIntrs mem op ∧
      List.Forall₂ Returns (memReads mem op) r.resp := by
  cases op with
  | write b =>
    obtain ⟨hlegal, haligned, hfull⟩ := hop
    obtain ⟨hwrite, haddr, hsize, hdata⟩ := hf
    obtain ⟨old, hold⟩ := hdata hlegal
    have htotal : f.dataSize.toNat = b.total := by rw [hsize, hlegal.dataSize_toNat]
    rw [serveFrame_write hwrite (by rw [htotal]; exact hlegal.total_le)] at h
    cases h
    refine ⟨?_, rfl, List.Forall₂.nil⟩
    rw [htotal, haddr]
    exact exact_of_full hlegal haligned hfull hold mem
  | read c =>
    obtain ⟨stack, hframe⟩ := id hf
    have htotal := isFrameOf_dataSize hf
    have hread : f.op = .read := by rw [hframe]; rfl
    have haddr : f.address = c.addr := by rw [hframe]; rfl
    have hfits : f.dataSize.toNat ≤ buffSize := by rw [htotal]; exact hop.1.total_le
    rw [serveFrame_read hread hfits] at h
    cases h
    refine ⟨rfl, rfl, List.Forall₂.cons ⟨haddr, htotal, fun j hj => ?_⟩ List.Forall₂.nil⟩
    rw [← haddr]
    exact readAnswer_get (by rw [htotal]; exact hj) hfits
  | intr v =>
    rw [serveFrame_intr hf.1] at h
    cases h
    exact ⟨rfl, congrArg (fun x => [x]) hf.2, List.Forall₂.nil⟩

/-- **A served queue is a run of the memory.** -/
theorem means_run {ops : List (DmaOp p)} {q : List ACCData} {host host' : Host}
    (hq : List.Forall₂ Implements ops q) (hops : ∀ op ∈ ops, op.Supported)
    (h : handleHdlRequest host q = some host') :
    ∃ mtr rs, Path DmaOp.Means host.mem mtr host'.mem ∧ mtr.map Prod.snd = ops ∧
      host'.notified = host.notified ++ events memIntrs mtr ∧
      host'.hdlResp = host.hdlResp ++ rs ∧ List.Forall₂ Returns (events memReads mtr) rs := by
  induction hq generalizing host with
  | nil =>
    cases h
    exact ⟨[], [], Path.nil _, rfl, (List.append_nil _).symm, (List.append_nil _).symm,
      List.Forall₂.nil⟩
  | @cons op f ops q hf _ ih =>
    obtain ⟨r, hr, hrest⟩ := handleHdlRequest_cons_eq_some h
    obtain ⟨hmeans, hnotify, hresp⟩ := means_of_served (hops op List.mem_cons_self) hf hr
    obtain ⟨mtr, rs, hrun, hsnd, hnotified, hresps, hreturns⟩ :=
      ih (fun o ho => hops o (List.mem_cons_of_mem _ ho)) hrest
    refine ⟨(host.mem, op) :: mtr, r.resp ++ rs, Path.cons hmeans hrun, by rw [List.map_cons, hsnd],
      ?_, ?_, List.rel_append hresp hreturns⟩
    · rw [hnotified, Host.apply, hnotify, List.append_assoc]
      rfl
    · rw [hresps, Host.apply, List.append_assoc]

/-! ## From a response to the beats -/

/-- The reads of a run are the reads among its operations. -/
theorem map_memReads (mtr : List (Mem × DmaOp p)) :
    (events memReads mtr).map Prod.snd = (mtr.map Prod.snd).flatMap DmaOp.reads := by
  induction mtr with
  | nil => rfl
  | cons c mtr ih =>
    rw [events_cons, List.map_append, ih, List.map_cons, List.flatMap_cons]
    obtain ⟨mem, op⟩ := c
    cases op <;> rfl

/-- The read bursts of the bus are the calls. -/
theorem dmaLog_reads {w : Option (Incoming p)} {tr : List (State p × Event p)}
    (h : Run conf warnMs s tr s') (hw : Watching w s)
    (hquiet : ∀ c ∈ tr, NoAddressInReset c.1 c.2) :
    (dmaLog w tr).flatMap DmaOp.reads = events readCalls tr := by
  induction h generalizing w with
  | nil => rfl
  | @cons s t _ e tr hstep _ ih =>
    have hq := hquiet _ List.mem_cons_self
    have hnext := (hw.step hq hstep).1
    rw [events_cons, dmaLog, List.flatMap_append,
      ih hnext fun c hc => hquiet c (List.mem_cons_of_mem _ hc), readCalls_eq hw.wf hq.read]
    congr 1
    have hwrites : ∀ bs : List (Axi4SW.Burst p), (bs.map DmaOp.write).flatMap DmaOp.reads = [] := by
      intro bs
      simp [List.flatMap_map, DmaOp.reads]
    have hreads : ∀ cs : List (Axi4SR.ReqReadCall p),
        (cs.map DmaOp.read).flatMap DmaOp.reads = cs := by
      intro cs
      simp [List.flatMap_map, DmaOp.reads]
    cases e with
    | edge x =>
      show List.flatMap DmaOp.reads (if x.writeFirst then _ else _) = _
      split
      · rw [List.flatMap_append, hwrites, hreads, List.nil_append]
      · rw [List.flatMap_append, hwrites, hreads, List.append_nil]
    | interrupt d stack =>
      show List.flatMap DmaOp.reads ((reqInterruptCalls s.ip d).map DmaOp.intr) = []
      simp [List.flatMap_map, DmaOp.reads]
    | _ => rfl

/-- The data that `C_poll` puts in place shows the bytes of the burst. -/
theorem placed_of_carries {x : Mem × Axi4SR.ReqReadCall p} {r : ACCData} {d : Buf buffSize}
    (hr : Returns x r) (hd : Carries p.stbw r d) : x.2.Placed x.1 d.get d := by
  intro y
  split
  · next hin =>
    have hdm := Nat.div_add_mod' x.2.addr.toNat p.stbw
    have hget := hd (y - x.2.addr.toNat % p.stbw) (by rw [hr.size]; omega)
    rw [hr.addr, Nat.add_sub_cancel' hin.1, hr.data _ (by omega)] at hget
    rw [hget]
    exact congrArg x.1 (by omega)
  · rfl

/-- **The beats of one burst.** -/
theorem shows_of_carries {x : Mem × Axi4SR.ReqReadCall p} {r : ACCData} {d : Buf buffSize}
    (hx : (DmaOp.read x.2).Supported) (hr : Returns x r) (hd : Carries p.stbw r d) :
    Shows x (burstBeats x.2 d) where
  length := by simp [burstBeats, Axi4SR.beats]
  bytes := by
    have hplaced := placed_of_carries hr hd
    have hword := (Axi.Burst.sameWord_iff hx.1.bytes_dvd p.stbw_pos).mpr hx.2
    intro i hi
    refine ⟨_, getElem?_beats hi, fun j hj hact => ?_⟩
    rw [lane_beat _ _ _ _ hj]
    exact lane_of_sameWord hplaced hi (hword i hi) hact
  id := by
    intro b hb
    obtain ⟨i, _, rfl⟩ := List.mem_map.mp hb
    rfl
  last := by
    intro i b hb
    have hlt : i < x.2.len.toNat + 1 := by
      have hlen := (List.getElem?_eq_some_iff.mp hb).1
      simpa [burstBeats, Axi4SR.beats] using hlen
    rw [burstBeats, getElem?_beats (Nat.lt_succ_iff.mp hlt)] at hb
    cases hb
    exact decide_eq_true_iff

theorem mem_reads {c : Axi4SR.ReqReadCall p} {op : DmaOp p} (h : c ∈ op.reads) : op = .read c := by
  cases op with
  | read c' => rw [List.mem_singleton.mp h]
  | _ => exact absurd h List.not_mem_nil

/-- The calls of the bus begin with those the memory has answered. -/
theorem readCalls_of_memReads {mem : Mem} {tr : List (State p × Event p)}
    {mtr : List (Mem × DmaOp p)} {n : Nat} (h : Run conf warnMs (init mem) tr s)
    (hquiet : ∀ c ∈ tr, NoAddressInReset c.1 c.2)
    (hsnd : mtr.map Prod.snd = (dmaLog none tr).take n) :
    (events memReads mtr).map Prod.snd <+: events readCalls tr := by
  refine ⟨((dmaLog none tr).drop n).flatMap DmaOp.reads, ?_⟩
  rw [map_memReads, hsnd, ← List.flatMap_append, List.take_append_drop,
    dmaLog_reads h (watching_init mem) hquiet]

/-- **The R channel**, from the responses that the memory accounts for. -/
theorem shown_run {mem : Mem} {tr : List (State p × Event p)} {mtr : List (Mem × DmaOp p)}
    (h : Run conf warnMs (init mem) tr s) (hquiet : ∀ c ∈ tr, NoAddressInReset c.1 c.2)
    (hlast : ∀ c ∈ tr, TakesLast c.1 c.2) (hops : ∀ op ∈ dmaLog none tr, op.Supported)
    (hsnd : mtr.map Prod.snd = (dmaLog none tr).take s.hdlReq.taken)
    (hreturns : List.Forall₂ Returns (events memReads mtr) s.hdlResp.sent) :
    ∃ bursts, bursts.flatten = events rHandshakes tr ++ Axi4SR.owed s.ip.sr ∧
      List.Forall₂ Shows ((events memReads mtr).take bursts.length) bursts := by
  have hread : ∀ c ∈ tr, NoReadInReset c.1 c.2 := fun c hc => (hquiet c hc).read
  have ha := answering_run h hread
  have houtstanding := outstanding_of_answering ha
  have hcalls := readCalls_of_memReads h hquiet hsnd
  have hpulses : (events readPulses tr).length ≤ (events memReads mtr).length := by
    have htaken := ha.taken
    have hle := s.hdlResp.taken_le_sent
    rw [hreturns.length_eq]
    omega
  have hlen : ((events readCalls tr).zip (events readPulses tr)).length
      = (events readPulses tr).length := by
    rw [List.length_zip, houtstanding]
    omega
  refine ⟨((events readCalls tr).zip (events readPulses tr)).map fun x => burstBeats x.1 x.2,
    ?_, ?_⟩
  · rw [← List.flatMap_def]
    exact beats_run h hread hlast
  rw [List.length_map, hlen, List.forall₂_iff_get]
  refine ⟨by rw [List.length_take, List.length_map, hlen]; omega, fun i hi hi' => ?_⟩
  rw [List.length_take] at hi
  simp only [List.get_eq_getElem, List.getElem_take, List.getElem_map, List.getElem_zip]
  -- the `i`-th response has the bytes of the `i`-th read, and the `i`-th pulse has its data
  have hir : i < (events memReads mtr).length := by omega
  have hip : i < (events readPulses tr).length := by omega
  obtain ⟨f, hf, hcarries⟩ := ha.answered i _ (List.getElem?_eq_getElem hip)
  obtain ⟨hsent, rfl⟩ := List.getElem?_eq_some_iff.mp hf
  have hret : Returns (events memReads mtr)[i] s.hdlResp.sent[i] := hreturns.get hir hsent
  have hic : i < (events readCalls tr).length := by rw [houtstanding]; omega
  have hcall : (events readCalls tr)[i] = (events memReads mtr)[i].2 := by
    have hget := hcalls.getElem (i := i) (by rw [List.length_map]; exact hir)
    rw [← hget, List.getElem_map]
  have hsupported : (DmaOp.read (events memReads mtr)[i].2).Supported := by
    have hmem : (events memReads mtr)[i].2 ∈ (events memReads mtr).map Prod.snd :=
      List.mem_map_of_mem (List.getElem_mem hir)
    rw [map_memReads, hsnd] at hmem
    obtain ⟨op, hop, hc⟩ := List.mem_flatMap.mp hmem
    rw [← mem_reads hc]
    exact hops op (List.mem_of_mem_take hop)
  rw [hcall]
  exact shows_of_carries hsupported hret hcarries

/-! ## Any run -/

theorem implements_isWrite {op : DmaOp p} {f : ACCData} (h : Implements op f) :
    op.isWrite = f.isWrite := by
  cases op with
  | write b => exact (decide_eq_true h.1).symm
  | read c =>
    obtain ⟨stack, rfl⟩ := h
    rfl
  | intr v => exact (decide_eq_false (by rw [h.1]; decide)).symm

/--
**The bridge is a memory.** In any run from time zero in which the HDL master keeps its address
channels quiet in reset, takes the last beat of a burst when it is shown, and issues operations
that are supported, whatever the interleaving.
-/
theorem dmaMemory {mem : Mem} {tr : List (State p × Event p)} {s : State p}
    (h : Run conf warnMs (init mem) tr s) (hquiet : ∀ c ∈ tr, NoAddressInReset c.1 c.2)
    (hlast : ∀ c ∈ tr, TakesLast c.1 c.2) (hops : ∀ op ∈ dmaLog none tr, op.Supported) :
    ∃ mtr, DmaMemory mem tr s mtr := by
  have himpl := implements_run h (watching_init mem) hquiet
  have hexec := executed_run h
  unfold Executed at hexec
  rw [sent_run h] at hexec
  obtain ⟨mtr, rs, hrun, hsnd, hnotified, hresp, hreturns⟩ :=
    means_run (List.forall₂_take s.hdlReq.taken himpl)
      (fun op hop => hops op (List.mem_of_mem_take hop)) hexec
  have hrs : s.hdlResp.sent = rs := hresp
  refine ⟨mtr, hrun, hsnd, fun mtr' mem' h' hin => ?_, hnotified, ?_, ?_⟩
  · exact (Path.functional (R := DmaOp.Means) (fun _ _ _ _ => means_unique) h' hrun hin).2
  · exact shown_run h hquiet hlast hops hsnd (by rw [hrs]; exact hreturns)
  · rw [forall₂_countP himpl fun _ _ => implements_isWrite]
    exact b_run h

/-! ## A write, a read of it and an interrupt -/

/-- A cycle in which no address is offered. -/
def QuietEdge (e : Event p) : Prop :=
  ∃ x, e = .edge x ∧ x.inp.iSArvalid = false ∧ x.inp.iSAwvalid = false

theorem dmaLog_quiet {tr tr' : List (State p × Event p)} (h : ∀ c ∈ tr, QuietEdge c.2) :
    dmaLog none (tr ++ tr') = dmaLog none tr' := by
  induction tr with
  | nil => rfl
  | cons c tr ih =>
    obtain ⟨s, e⟩ := c
    obtain ⟨x, rfl, har, haw⟩ := h _ List.mem_cons_self
    have hwatch : watch none s.ip.sw (swInput s.ip x.inp) = (none, []) :=
      if_neg fun ha => absurd (haw.symm.trans ha.1) (by simp)
    have hread : readBursts s (.edge x) = [] :=
      if_neg fun ha => absurd (har.symm.trans ha.1) (by simp)
    have hops : dmaOps none s (.edge x) = [] := by
      simp only [dmaOps, hwatch, hread, List.map_nil, List.append_nil, ite_self]
    rw [List.cons_append, dmaLog, hops, List.nil_append, watchEvent, hwatch]
    exact ih fun d hd => h d (List.mem_cons_of_mem _ hd)

/-- The master is ready for a beat of the R channel. -/
def rReady : Event p → Bool
  | .edge e => e.inp.iSRready
  | _ => true

theorem takesLast_of_rReady {s : State p} {e : Event p} (h : rReady e = true) : TakesLast s e := by
  cases e with
  | edge x => exact fun _ _ => h
  | _ => trivial

theorem noAddressInReset_of_edges {s : State p} (h : 100 ≤ s.ip.edges) (e : Event p) :
    NoAddressInReset s e := by
  cases e with
  | edge x => exact fun hlt => absurd hlt (by omega)
  | _ => trivial

/-- `writeReadInterrupt`, and then the response up to its R handshake. -/
def throughResponse : List (Event bus64) :=
  writeReadInterrupt ++ [.deliver .hdlResp, edgeOf .hdlResp readyInput, edgeOf .none readyInput,
    edgeOf .none readyInput, edgeOf .none readyInput]

/-- The burst that `awCycle` and `wCycle` offer. -/
def fullWord : Axi4SW.Burst bus64 :=
  Incoming.burst ⟨swInput Axi4Ip.init awCycle, [(fun _ => 0xA5, 0xFF)]⟩

theorem fullWord_supported : (DmaOp.write fullWord).Supported := by
  refine ⟨⟨by decide, by decide, by decide, ?_⟩, by decide, ?_⟩
  · intro i hi j hj _
    have hi0 : i = 0 := Nat.le_zero.mp hi
    subst hi0
    have hall : ∀ j < 2 ^ 3, Axi.Burst.Active ⟨0x1000, 3, 0⟩ (2 ^ 3) 0 j := by decide
    exact hall j hj
  · intro i hi j hj _
    have hi0 : i = 0 := Nat.le_zero.mp hi
    subst hi0
    have hall : ∀ j < 2 ^ 3, (0xFF : BitVec 8).getLsbD j = true := by decide
    exact hall j hj

/-- All three take effect in the memory, and the beat that was read is handed over. -/
theorem dmaMemory_writeReadInterrupt :
    ∃ (tr : List (State bus64 × Event bus64)) (s : State bus64) (mtr : List (Mem × DmaOp bus64)),
      Run defaultConf 0 (init fun _ => 0) tr s ∧ DmaMemory (fun _ => 0) tr s mtr ∧
      mtr.map Prod.snd = [.write fullWord, .read ⟨0x1000, 3, 0, 0⟩, .intr 2] ∧
      s.hdlResp.taken = 1 ∧ s.ip.sr.rReadState = .idle := by
  obtain ⟨tr, hreset, htr⟩ := path_of_runM (run_reset (fun _ => 0) 100 (Nat.le_refl _))
  have hrun : ∃ s, runM (step defaultConf 0) (inReset (fun _ => 0) 100) throughResponse = some s ∧
      s.hdlReq.taken = 3 ∧ s.hdlResp.taken = 1 ∧ s.ip.sr.rReadState = .idle :=
    ⟨_, rfl, rfl, rfl, rfl⟩
  obtain ⟨s, hrun, htaken, hresp, hidle⟩ := hrun
  have hall := hreset.append (path_traceM hrun)
  have hevents : ∀ c ∈ tr, c.2 = edgeOf .none readyInput := by
    intro c hc
    have hmem := List.mem_map_of_mem (f := Prod.snd) hc
    rw [htr] at hmem
    exact List.eq_of_mem_replicate hmem
  have hlog : dmaLog none (tr ++ traceM (step defaultConf 0) (inReset (fun _ => 0) 100)
      throughResponse) = [.write fullWord, .read ⟨0x1000, 3, 0, 0⟩, .intr 2] := by
    rw [dmaLog_quiet fun c hc => ⟨_, hevents c hc, rfl, rfl⟩]
    rfl
  have hready : throughResponse.all rReady = true := rfl
  have hedges : (traceM (step defaultConf 0) (inReset (fun _ => 0) 100) throughResponse).all
      (fun c => decide (100 ≤ c.1.ip.edges)) = true := rfl
  obtain ⟨mtr, hmem⟩ := dmaMemory hall
    (by
      intro c hc
      rcases List.mem_append.mp hc with hc | hc
      · rw [hevents c hc]
        exact fun _ => ⟨rfl, rfl⟩
      · exact noAddressInReset_of_edges (of_decide_eq_true (List.all_eq_true.mp hedges c hc)) _)
    (by
      intro c hc
      refine takesLast_of_rReady ?_
      rcases List.mem_append.mp hc with hc | hc
      · rw [hevents c hc]
        rfl
      · exact List.all_eq_true.mp hready _ (snd_mem_of_traceM hc))
    (by
      rw [hlog]
      intro op hop
      simp only [List.mem_cons, List.not_mem_nil, or_false] at hop
      rcases hop with rfl | rfl | rfl
      · exact fullWord_supported
      · exact ⟨⟨by decide, by decide, by decide, by decide⟩, Or.inl rfl⟩
      · trivial)
  refine ⟨_, s, mtr, hall, hmem, ?_, hresp, hidle⟩
  rw [hmem.ops, hlog, htaken]
  rfl

end QemuHdlSim.Cosim
