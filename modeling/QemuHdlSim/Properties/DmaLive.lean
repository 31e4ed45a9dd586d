import QemuHdlSim.Properties.DmaPairing
import QemuHdlSim.Properties.MmioLive

/-!
# Every request of the device is served

While an access of the guest waits, the handler does not run, and while the handler runs, no access
is made. So the device's requests wait for the guest's accesses; but these return, and then the
handler comes to the requests, even if the guest goes on with the next access at once. In a fair
run, without lost accesses, every request is executed, every beat of a read burst is handed over
and every write burst is acknowledged.

* `executed_always` — the requests, in any run in which accesses return
* `answered_always`, `handedOver_always`, `acked_always` — the read and the write bursts
* `dmaLive` — with the RAM behind the bridge
-/

namespace QemuHdlSim.Cosim

open Infra Axi4Ip

variable {p : BusParams} {conf : ACCConf} {warnMs : Int}

/-- What the HDL master does with its DMA channels. -/
structure MasterReady (r : Always p conf warnMs) : Prop where
  /-- No read address in reset. -/
  quiet : ∀ n, NoReadInReset (r.state n) (r.input n)
  /-- The last beat of a burst is taken when it is shown. -/
  last : ∀ n, TakesLast (r.state n) (r.input n)
  /-- A request moves no more than a frame holds. -/
  fits : ∀ n, ∀ f ∈ (r.state n).hdlReq.sent, f.Fits
  rready : Recurs fun n => ∃ x, r.input n = .edge x ∧ x.inp.iSRready = true
  bready : Recurs fun n => ∃ x, r.input n = .edge x ∧ x.inp.iSBready = true

/-- The beats of the bursts. -/
def beatCount (cs : List (Axi4SR.ReqReadCall p)) : Nat :=
  cs.foldr (fun c n => c.len.toNat + 1 + n) 0

/-- What was issued before `n` is done before `k`. -/
structure DmaDone (r : Always p conf warnMs) (n k : Nat) : Prop where
  executed : (r.state n).hdlReq.sent.length ≤ (r.state k).hdlReq.taken
  handedOver : beatCount (events readCalls (r.upTo n)) ≤ (events rHandshakes (r.upTo k)).length
  acked : (events issued (r.upTo n)).countP ACCData.isWrite
    ≤ (events bHandshakes (r.upTo k)).length

variable {r : Always p conf warnMs} {mem : Mem}

/-! ## The requests -/

/-- Only `finish` ends an activation, and not before the queue is empty. -/
theorem handling_step {s s' : State p} {e : Event p} (h : step conf warnMs s e = some s')
    (hh : s.handling = true) (hq : s.hdlReq.Queued) : s'.handling = true := by
  cases e with
  | edge x =>
    obtain ⟨_, _, _, _, _, _, hhandling, _⟩ := State.edge_eq_some h
    exact hhandling.trans hh
  | interrupt d stack =>
    cases h
    exact hh
  | deliver pipe =>
    obtain ⟨_, _, _, _, hhandling, _⟩ := State.deliver_eq_some h
    exact hhandling.trans hh
  | call a =>
    obtain ⟨_, _, d, rfl, _⟩ := step_call h
    exact hh
  | recv env =>
    obtain ⟨_, d, rfl, _⟩ := step_recv h
    exact hh
  | activate =>
    obtain ⟨_, rfl⟩ := step_activate h
    rfl
  | iterate =>
    obtain ⟨_, hserve⟩ := step_iterate h
    obtain ⟨_, _, _, _, _, _, _, _, _, hhandling, _⟩ := State.serve_eq_some hserve
    exact hhandling.trans hh
  | finish => exact absurd hq (Nat.not_lt.mpr (step_finish h).1)

/-- An active handler takes the frame at the head of its queue. -/
theorem taken_of_handling (hmain : FairHandler r)
    (hfits : ∀ n, ∀ f ∈ (r.state n).hdlReq.sent, f.Fits) (c : Nat) : LeadsTo
      (fun n => (r.state n).handling = true ∧ (r.state n).hdlReq.Queued ∧
        (r.state n).hdlReq.taken = c)
      fun n => c < (r.state n).hdlReq.taken := by
  refine LeadsTo.ensures ?_ ?_ ?_ hmain.iterates
  · rintro n ⟨hh, hq, rfl⟩
    rcases (moves_step (r.next n) .hdlReq).taken_or_queued hq with hlt | ⟨htaken, hq'⟩
    · exact Or.inr hlt
    · exact Or.inl ⟨handling_step (r.next n) hh hq, hq', htaken⟩
  · rintro n ⟨hh, hq, _⟩
    obtain ⟨s', hs', _⟩ := exists_iterate conf warnMs hh hq (hfits n)
    rw [hs']
    rfl
  · rintro n ⟨_, _, rfl⟩ hn
    have hstep := r.next n
    rw [hn] at hstep
    obtain ⟨_, _, _, _, _, _, htaken, _⟩ := State.serve_eq_some (step_iterate hstep).2
    omega

/-- If accesses return, a frame in the queue activates the handler. -/
theorem handling_of_queued (hmain : FairHandler r)
    (hreturns : Recurs fun n => (r.state n).dev.waiting = none) (c : Nat) : LeadsTo
      (fun n => (r.state n).handling = false ∧ (r.state n).hdlReq.Queued ∧
        (r.state n).hdlReq.taken = c)
      fun n => (r.state n).handling = true ∧ (r.state n).hdlReq.Queued ∧
        (r.state n).hdlReq.taken = c := by
  have hstay : ∀ n, ((r.state n).handling = false ∧ (r.state n).hdlReq.Queued ∧
        (r.state n).hdlReq.taken = c) →
      ((r.state (n + 1)).handling = false ∧ (r.state (n + 1)).hdlReq.Queued ∧
        (r.state (n + 1)).hdlReq.taken = c) ∨
      ((r.state (n + 1)).handling = true ∧ (r.state (n + 1)).hdlReq.Queued ∧
        (r.state (n + 1)).hdlReq.taken = c) := by
    rintro n ⟨hh, hq, rfl⟩
    rcases served_step (r.next n) with ⟨hh', _⟩ | ⟨htaken, hdel, _⟩
    · exact absurd (hh.symm.trans hh') (by simp)
    · have hq' : (r.state (n + 1)).hdlReq.Queued := by
        unfold Fifo.Queued at *
        omega
      cases hn : (r.state (n + 1)).handling with
      | false => exact Or.inl ⟨rfl, hq', htaken⟩
      | true => exact Or.inr ⟨rfl, hq', htaken⟩
  refine LeadsTo.strong hstay (fun n hn => ?_) ?_ hmain.activates
  · -- at the latest when the access has returned
    by_cases hQ : ∃ k, n ≤ k ∧ (r.state k).handling = true ∧ (r.state k).hdlReq.Queued ∧
        (r.state k).hdlReq.taken = c
    · obtain ⟨k, hk, hQ⟩ := hQ
      exact ⟨k, hk, Or.inr hQ⟩
    · obtain ⟨k, hk, hwait⟩ := hreturns n
      obtain ⟨hh, hq, _⟩ := LeadsTo.stays hstay hn (fun j hj hQj => hQ ⟨j, hj, hQj⟩) k hk
      exact ⟨k, hk, Or.inl ⟨hh, hwait, hq⟩⟩
  · rintro n ⟨_, hq, hc⟩ hn
    have hstep := r.next n
    rw [hn] at hstep
    rw [(step_activate hstep).2]
    exact ⟨rfl, hq, hc⟩

/-- **Every request is executed**, if accesses return. -/
theorem executed_always (hfair : Fair r) (hmain : FairHandler r)
    (hreturns : Recurs fun n => (r.state n).dev.waiting = none)
    (hfits : ∀ n, ∀ f ∈ (r.state n).hdlReq.sent, f.Fits) (n : Nat) :
    ∃ k, n ≤ k ∧ (r.state n).hdlReq.sent.length ≤ (r.state k).hdlReq.taken := by
  refine Fifo.allTaken (q := fun n => (r.state n).hdlReq) (fun n => moves_step (r.next n) .hdlReq)
    (hfair.arrives .hdlReq) (fun m hq => ?_) n
  have htaken := taken_of_handling hmain hfits (r.state m).hdlReq.taken
  cases hh : (r.state m).handling with
  | true => exact htaken m ⟨hh, hq, rfl⟩
  | false =>
    have hactive := handling_of_queued hmain hreturns (r.state m).hdlReq.taken
    exact (hactive.trans htaken) m ⟨hh, hq, rfl⟩

/-! ## The read bursts -/

theorem MasterReady.answering (h : MasterReady r) (h0 : r.state 0 = init mem) (n : Nat) :
    Answering mem (r.upTo n) (r.state n) := by
  have hrun : Run conf warnMs (init mem) (r.upTo n) (r.state n) := h0 ▸ r.path n
  refine answering_run hrun fun c hc => ?_
  obtain ⟨k, _, rfl⟩ := r.mem_upTo hc
  exact h.quiet k

/-- A poll of `hdl_resp` takes a frame. -/
theorem taken_of_polls {s s' : State p} {x : Edge p} (h : s.edge conf x = some s')
    (hx : x.poll = .hdlResp) : s'.hdlResp.taken = s.hdlResp.taken + 1 := by
  obtain ⟨⟨sock, t⟩, hpoll, h⟩ := Option.bind_eq_some_iff.mp h
  obtain ⟨_, _, h⟩ := Option.bind_eq_some_iff.mp h
  obtain ⟨_, _, h⟩ := Option.bind_eq_some_iff.mp h
  obtain ⟨_, _, rfl⟩ := Option.map_eq_some_iff.mp h
  have hpoll' : s.poll x.poll = some (sock, t) := hpoll
  rw [hx] at hpoll'
  obtain ⟨⟨f, q⟩, hrecv, heq⟩ := Option.map_eq_some_iff.mp hpoll'
  cases heq
  exact (Fifo.recv?_eq_some hrecv).2.2.2.1

/-- **Every response is polled.** -/
theorem polled_always (hfair : Fair r) (n : Nat) :
    ∃ k, n ≤ k ∧ (r.state n).hdlResp.sent.length ≤ (r.state k).hdlResp.taken := by
  have hmoves : ∀ n, (r.state n).hdlResp.Moves (r.state (n + 1)).hdlResp :=
    fun n => moves_step (r.next n) .hdlResp
  refine Fifo.allTaken (q := fun n => (r.state n).hdlResp) hmoves (hfair.arrives .hdlResp)
    (fun m hq => Fifo.exists_taken hmoves ?_ (hfair.polls .hdlResp .hdlResp rfl) hq) n
  rintro k _ ⟨x, hx, hsel⟩
  have hstep := r.next k
  rw [hx] at hstep
  have htaken := taken_of_polls hstep hsel
  omega

/-- Of the reads that were executed none is without a response. -/
theorem reads_le_of_executed (hmaster : MasterReady r) (h0 : r.state 0 = init mem) {n k : Nat}
    (hk : n ≤ k) (htaken : (r.state n).hdlReq.sent.length ≤ (r.state k).hdlReq.taken) :
    (events readCalls (r.upTo n)).length ≤ (r.state k).hdlResp.sent.length := by
  have ha := hmaster.answering h0
  obtain ⟨⟨fs, hresp, hlen⟩, _⟩ := handleHdlRequest_counts (ha k).executed
  have hfs : (r.state k).hdlResp.sent = fs := hresp
  have hprefix : (r.state n).hdlReq.sent
      <+: (r.state k).hdlReq.sent.take (r.state k).hdlReq.taken :=
    List.prefix_take_iff.mpr ⟨Fifo.log_le_of_moves (q := fun n => (r.state n).hdlReq)
      (fun n => moves_step (r.next n) .hdlReq) hk, htaken⟩
  rw [hfs, hlen, ← (ha n).issued, ← List.countP_eq_length_filter]
  exact hprefix.sublist.countP_le

/-- What was polled before an edge has become a pulse after it. -/
theorem pulses_of_edge (hmaster : MasterReady r) (h0 : r.state 0 = init mem) {n : Nat} {x : Edge p}
    (hx : r.input n = .edge x) :
    (r.state n).hdlResp.taken ≤ (events readPulses (r.upTo (n + 1))).length := by
  have ha := hmaster.answering h0 n
  have htaken := ha.taken
  rw [Forever.upTo_succ, events_append, List.length_append, events_cons, events_nil,
    List.append_nil, hx]
  cases hv : (r.state n).ip.reqSRvalid with
  | false =>
    rw [hv] at htaken
    exact Nat.le_trans (Nat.le_of_eq htaken.symm) (Nat.le_add_right _ _)
  | true =>
    have hpulse : readPulses (r.state n) (.edge x) = [(r.state n).ip.vars.data] :=
      if_pos ⟨(ha.met hv).2, hv⟩
    rw [hpulse]
    rw [hv] at htaken
    exact Nat.le_of_eq htaken.symm

/-- **Every read burst is answered**, if every request is executed. -/
theorem answered_always (hmaster : MasterReady r) (h0 : r.state 0 = init mem) (hfair : Fair r)
    {n m : Nat} (hn : n ≤ m) (htaken : (r.state n).hdlReq.sent.length ≤ (r.state m).hdlReq.taken) :
    ∃ k, m ≤ k ∧ (events readCalls (r.upTo n)).length ≤ (events readPulses (r.upTo k)).length := by
  obtain ⟨l, hl, hpolled⟩ := polled_always hfair m
  obtain ⟨j, hj, x, hx, _⟩ := hmaster.rready l
  have hjl : (r.state l).hdlResp.taken ≤ (r.state j).hdlResp.taken :=
    Fifo.taken_le_of_moves (q := fun n => (r.state n).hdlResp)
      (fun n => moves_step (r.next n) .hdlResp) hj
  have hreads := reads_le_of_executed hmaster h0 hn htaken
  have hpulses := pulses_of_edge hmaster h0 hx
  exact ⟨j + 1, by omega, by omega⟩

/-- A beat that is on the bus stays there until it is taken. -/
theorem rvalid_step {s s' : State p} {e : Event p} (hw : SlavesWf s.ip) (hlast : TakesLast s e)
    (h : step conf warnMs s e = some s') (hv : s.ip.sr.rSRvalid = true)
    (hno : rHandshakes s e = []) : s'.ip.sr.rSRvalid = true := by
  cases e with
  | edge x =>
    obtain ⟨_, _, _, _, _, _, _, _, _, sock, hclock⟩ := State.edge_eq_some h
    obtain ⟨v, _, _, hip⟩ := clock_eq_some hclock
    have hreset : s.ip.aresetn = true := by
      refine aresetn_eq_true.mpr (Nat.le_of_not_lt fun hlt => ?_)
      rw [(hw.reset hlt).1] at hv
      exact absurd hv (by simp [Axi4SR.reset])
    rw [hip]
    exact Axi4SR.rvalid_step hreset hw.sr hlast hv hno
  | _ =>
    obtain ⟨hip, _⟩ := step_other (by simp) h
    rwa [hip]

/-- The beats the read slave still owes. -/
def owedR (s : State p) : List (Axi4SR.RBeat p) := Axi4SR.owed s.ip.sr

/-- What is owed and not on the bus is put there by `rready`. -/
theorem rvalid_of_owed {s s' : State p} {x : Edge p} (hw : SlavesWf s.ip)
    (h : step conf warnMs s (.edge x) = some s') (howed : owedR s ≠ [])
    (hv : s.ip.sr.rSRvalid = false) (hready : x.inp.iSRready = true) :
    s'.ip.sr.rSRvalid = true := by
  obtain ⟨_, _, _, _, _, _, _, _, _, sock, hclock⟩ := State.edge_eq_some h
  obtain ⟨v, _, _, hip⟩ := clock_eq_some hclock
  have hreset : s.ip.aresetn = true := by
    refine aresetn_eq_true.mpr (Nat.le_of_not_lt fun hlt => howed ?_)
    rw [owedR, (hw.reset hlt).1]
    rfl
  rw [hip]
  exact Axi4SR.rvalid_of_owed hreset howed hv hready

/-- The step law of the R channel, along the run. -/
theorem MasterReady.r_law (h : MasterReady r) (h0 : r.state 0 = init mem) (n : Nat) :
    owedR (r.state n) ++ readCredit (r.state n) (r.input n)
      = rHandshakes (r.state n) (r.input n) ++ owedR (r.state (n + 1)) :=
  (r_step (h.answering h0 n).wf (h.last n) (r.next n)).2

/-- **As long as a beat is owed, one is handed over**, at some time. -/
theorem exists_rHandshake (hmaster : MasterReady r) (h0 : r.state 0 = init mem) (n : Nat)
    (howed : owedR (r.state n) ≠ []) :
    ∃ k, n ≤ k ∧ rHandshakes (r.state k) (r.input k) ≠ [] := by
  by_contra hno
  have hnever : ∀ k, n ≤ k → rHandshakes (r.state k) (r.input k) = [] := by
    intro k hk
    by_contra hk'
    exact hno ⟨k, hk, hk'⟩
  have hw : ∀ k, SlavesWf (r.state k).ip := fun k => (hmaster.answering h0 k).wf
  -- an edge on which the master is ready finds no beat on the bus
  have hvalid : ∀ k, n ≤ k → ∀ x, r.input k = .edge x → x.inp.iSRready = true →
      (r.state k).ip.sr.rSRvalid = false := by
    intro k hk x hx hready
    cases hv : (r.state k).ip.sr.rSRvalid with
    | false => rfl
    | true =>
      have hnone := hnever k hk
      rw [hx] at hnone
      exact absurd hnone (by simp [rHandshakes, Axi4SR.rHandshake, hv, srInput, hready])
  have hstays := r.owed_stays (hmaster.r_law h0) howed hnever
  -- it puts one there, which stays until the next such edge
  obtain ⟨k, hk, x, hx, hready⟩ := hmaster.rready n
  have hstep := r.next k
  rw [hx] at hstep
  have hloaded := rvalid_of_owed (hw k) hstep (hstays k hk) (hvalid k hk x hx hready) hready
  have hshown : ∀ j, k + 1 ≤ j → (r.state j).ip.sr.rSRvalid = true := by
    intro j hj
    induction hj with
    | refl => exact hloaded
    | @step j hj ih =>
      have hnj : n ≤ j := Nat.le_trans (Nat.le_succ_of_le hk) hj
      exact rvalid_step (hw j) (hmaster.last j) (r.next j) ih (hnever j hnj)
  obtain ⟨j, hj, y, hy, hready'⟩ := hmaster.rready (k + 1)
  exact absurd ((hshown j hj).symm.trans (hvalid j (by omega) y hy hready')) (by simp)

theorem beatCount_append (cs ds : List (Axi4SR.ReqReadCall p)) :
    beatCount (cs ++ ds) = beatCount cs + beatCount ds := by
  induction cs with
  | nil => exact (Nat.zero_add _).symm
  | cons c cs ih =>
    have hcons : ∀ es, beatCount (c :: es) = c.len.toNat + 1 + beatCount es := fun _ => rfl
    rw [List.cons_append, hcons, hcons, ih]
    omega

/-- What is cut out of the answers are as many beats as the bursts have. -/
theorem length_burstBeats (bs : List (Axi4SR.ReqReadCall p × Buf buffSize)) :
    (bs.flatMap fun b => burstBeats b.1 b.2).length = beatCount (bs.map Prod.fst) := by
  induction bs with
  | nil => rfl
  | cons b bs ih =>
    rw [List.flatMap_cons, List.length_append, ih, burstBeats, Axi4SR.beats, List.length_map,
      List.length_range]
    rfl

/-- **Every read burst that is answered is handed over.** -/
theorem handedOver_always (hmaster : MasterReady r) (h0 : r.state 0 = init mem) {n m : Nat}
    (hn : n ≤ m)
    (hpulses : (events readCalls (r.upTo n)).length ≤ (events readPulses (r.upTo m)).length) :
    ∃ k, m ≤ k ∧ beatCount (events readCalls (r.upTo n))
      ≤ (events rHandshakes (r.upTo k)).length := by
  obtain ⟨k, hk, hdone⟩ := r.handedOver (hmaster.r_law h0) (exists_rHandshake hmaster h0) m
  refine ⟨k, hk, Nat.le_trans ?_ hdone⟩
  have hrun : Run conf warnMs (init mem) (r.upTo m) (r.state m) := h0 ▸ r.path m
  have hbeats := beats_run hrun (fun c hc => by
    obtain ⟨j, _, rfl⟩ := r.mem_upTo hc
    exact hmaster.quiet j) (fun c hc => by
    obtain ⟨j, _, rfl⟩ := r.mem_upTo hc
    exact hmaster.last j)
  -- the calls that have a partner are at least those before `n`
  have hcalls : (events readCalls (r.upTo n)) <+:
      ((events readCalls (r.upTo m)).zip (events readPulses (r.upTo m))).map Prod.fst := by
    obtain ⟨cs, hcs⟩ := r.events_upTo_of_le readCalls hn
    exact prefix_map_fst_zip ⟨cs, hcs.symm⟩ hpulses
  obtain ⟨rest, hrest⟩ := hcalls
  rw [← List.length_append, owedR, ← hbeats, length_burstBeats, ← hrest, beatCount_append]
  exact Nat.le_add_right _ _

/-! ## The write bursts -/

theorem MasterReady.b_law (h : MasterReady r) (h0 : r.state 0 = init mem) (n : Nat) :
    owedB (r.state n) ++ creditB (r.state n) (r.input n)
      = bHandshakes (r.state n) (r.input n) ++ owedB (r.state (n + 1)) :=
  (b_step (h.answering h0 n).wf (r.next n)).2

/-- **A response that is owed is handed over**, at some time. -/
theorem exists_bHandshake (hmaster : MasterReady r) (h0 : r.state 0 = init mem) (n : Nat)
    (howed : owedB (r.state n) ≠ []) :
    ∃ k, n ≤ k ∧ bHandshakes (r.state k) (r.input k) ≠ [] := by
  refine r.exists_handed (hmaster.b_law h0) hmaster.bready ?_ howed
  rintro k ⟨x, hx, hready⟩ howed
  have hshown : (r.state k).ip.sw.rSBvalid = true := by
    simpa [owedB, Axi4SW.owedB] using howed
  rw [hx]
  simp [bHandshakes, bHandshake, Axi4SW.bHandshake, hshown, swInput, hready]

/-- **Every write burst is acknowledged.** -/
theorem acked_always (hmaster : MasterReady r) (h0 : r.state 0 = init mem) (n : Nat) :
    ∃ k, n ≤ k ∧ (events issued (r.upTo n)).countP ACCData.isWrite
      ≤ (events bHandshakes (r.upTo k)).length := by
  obtain ⟨k, hk, hdone⟩ := r.handedOver (hmaster.b_law h0) (exists_bHandshake hmaster h0) n
  have hrun : Run conf warnMs (init mem) (r.upTo n) (r.state n) := h0 ▸ r.path n
  exact ⟨k, hk, by rw [b_run hrun]; exact hdone⟩

/-! ## All of them -/

/-- **What was issued is done**, if accesses return. -/
theorem done_always (hfair : Fair r) (hmain : FairHandler r) (hmaster : MasterReady r)
    (h0 : r.state 0 = init mem) (hreturns : Recurs fun n => (r.state n).dev.waiting = none)
    (n : Nat) : ∃ k, n ≤ k ∧ DmaDone r n k := by
  obtain ⟨a, ha, hexecuted⟩ := executed_always hfair hmain hreturns hmaster.fits n
  obtain ⟨b, hb, hanswered⟩ := answered_always hmaster h0 hfair ha hexecuted
  obtain ⟨c, hc, hhanded⟩ := handedOver_always hmaster h0 (Nat.le_trans ha hb) hanswered
  obtain ⟨d, hd, hacked⟩ := acked_always hmaster h0 n
  -- and stays done
  have hac : a ≤ max c d := Nat.le_trans (Nat.le_trans hb hc) (Nat.le_max_left c d)
  refine ⟨max c d, Nat.le_trans hd (Nat.le_max_right c d), ?_, ?_, ?_⟩
  · exact Nat.le_trans hexecuted (Fifo.taken_le_of_moves (q := fun n => (r.state n).hdlReq)
      (fun n => moves_step (r.next n) .hdlReq) hac)
  · exact Nat.le_trans hhanded (r.length_events_le rHandshakes (Nat.le_max_left c d))
  · exact Nat.le_trans hacked (r.length_events_le bHandshakes (Nat.le_max_right c d))

/-- **Every request of the device is served.** In any fair run without end in which no access is
lost, with a RAM behind the bridge. -/
theorem dmaLive {r : SysAlways p conf warnMs} {mem m : Mem} (h : r.Serves mem m)
    (hclk : r.Clocked) (hfair : Fair r.cosim) (hmain : FairHandler r.cosim) (hnone : r.NoneLost)
    (hmaster : MasterReady r.cosim) (n : Nat) : ∃ k, n ≤ k ∧ DmaDone r.cosim n k :=
  done_always hfair hmain hmaster (congrArg Sys.cosim h.start) (h.returns hclk hfair hnone) n

/-! ## The clock goes on after two accesses and DMA -/

/-- What the step says of the master: its read address, its ready signals and its requests. -/
def masterReady (c : Sys bus64 × SysEvent bus64) : Bool :=
  ((issued c.1.cosim (c.2.driven c.1.ram)).all fun f => decide (f.dataSize.toNat ≤ buffSize)) &&
    match c.2.driven c.1.ram with
    | .edge x => (decide (100 ≤ c.1.cosim.ip.edges) || !x.inp.iSArvalid) && x.inp.iSRready
    | _ => true

theorem masterReady_edge (s : Sys bus64) (h : s.cosim.ip.sw.rWriteState = .idle) :
    masterReady (s, sysEdge .none readyInput) = true := by
  have hissued : issued s.cosim ((sysEdge .none readyInput).driven s.ram) = [] :=
    congrArg (Option.getD · []) (requests_of_idle h true)
  have hquiet : (s.ram.drive true readyInput).iSArvalid = false := rfl
  have hready : (s.ram.drive true readyInput).iSRready = true := rfl
  unfold masterReady
  rw [hissued]
  simp [SysEvent.driven, sysEdge, edgeOf, hquiet, hready]

/-- What that means of the step. -/
theorem spec_of_masterReady {s : Sys bus64} {e : SysEvent bus64} (h : masterReady (s, e) = true) :
    (∀ f ∈ issued s.cosim (e.driven s.ram), f.dataSize.toNat ≤ buffSize) ∧
      NoReadInReset s.cosim (e.driven s.ram) ∧ TakesLast s.cosim (e.driven s.ram) := by
  obtain ⟨hfits, hbus⟩ := Bool.and_eq_true_iff.mp h
  refine ⟨fun f hf => of_decide_eq_true (List.all_eq_true.mp hfits f hf), ?_⟩
  cases hx : e.driven s.ram with
  | edge x =>
    rw [show (s, e).2.driven (s, e).1.ram = .edge x from hx] at hbus
    obtain ⟨har, hready⟩ := Bool.and_eq_true_iff.mp hbus
    refine ⟨fun hlt => ?_, fun _ _ => hready⟩
    rcases Bool.or_eq_true_iff.mp har with hge | hnot
    · exact absurd (of_decide_eq_true hge) (Nat.not_le.mpr hlt)
    · simpa using hnot
  | _ => exact ⟨trivial, trivial⟩

namespace GoesOn

variable {r : SysAlways bus64 defaultConf 0}

theorem fairHandler (h : GoesOn r) : FairHandler r.cosim := by
  refine ⟨StronglyFair.of_never wholeRun.length fun n hn hen => ?_,
    WeaklyFair.of_never wholeRun.length fun n hn hen => ?_⟩
  · exact Fifo.not_queued_of_drained ((h.rest n hn).2.drained .hdlReq) hen.2.2
  · obtain ⟨s', hs'⟩ := Option.isSome_iff_exists.mp hen
    exact absurd ((h.rest n hn).2.handling.symm.trans (step_iterate hs').1) (by simp)

theorem readyForever (h : GoesOn r) (n : Nat) :
    ∃ k, n ≤ k ∧ ∃ x, r.cosim.input k = .edge x ∧ x.inp.iSRready = true ∧
      x.inp.iSBready = true := by
  refine ⟨max n wholeRun.length, Nat.le_max_left _ _, ?_⟩
  obtain ⟨hedge, _⟩ := h.rest (max n wholeRun.length) (Nat.le_max_right _ _)
  have hdriven : r.cosim.input (max n wholeRun.length) = _ :=
    SysEvent.driven_edge (congrArg SysEvent.event hedge)
  exact ⟨_, hdriven, rfl, rfl⟩

theorem master (h : GoesOn r) : MasterReady r.cosim := by
  have hrest : (traceM (Sys.step defaultConf 0) (sysInReset 100) accessesAndHandler).all
      masterReady = true := rfl
  have hall : ∀ n, masterReady (r.state n, r.input n) = true :=
    h.all (P := fun c => masterReady c = true) (fun k => masterReady_edge _ rfl)
      (List.all_eq_true.mp hrest) fun s hs => masterReady_edge s hs.sw
  refine ⟨fun n => (spec_of_masterReady (hall n)).2.1, fun n => (spec_of_masterReady (hall n)).2.2,
    fun n f hf _ => ?_, fun n => ?_, fun n => ?_⟩
  · have h0 : r.cosim.state 0 = init fun _ => 0 := congrArg Sys.cosim h.start
    rw [sent_run (h0 ▸ r.cosim.path n)] at hf
    obtain ⟨c, hc, hfc⟩ := List.mem_flatMap.mp hf
    obtain ⟨k, _, rfl⟩ := r.cosim.mem_upTo hc
    exact (spec_of_masterReady (hall k)).1 f hfc
  · obtain ⟨k, hk, x, hx, hready, _⟩ := h.readyForever n
    exact ⟨k, hk, x, hx, hready⟩
  · obtain ⟨k, hk, x, hx, _, hready⟩ := h.readyForever n
    exact ⟨k, hk, x, hx, hready⟩

/-- What happened so far, and in its part after the reset. -/
theorem events_cosim (h : GoesOn r) {ε : Type} (ev : State bus64 → Event bus64 → List ε) :
    events ev (r.cosim.upTo wholeRun.length) =
      events ev (Sys.cosimTrace (traceM (Sys.step defaultConf 0)
        (Sys.init (fun _ => 0) fun _ => 0) (List.replicate 100 (sysEdge .none readyInput)))) ++
      events ev (Sys.cosimTrace (traceM (Sys.step defaultConf 0) (sysInReset 100)
        accessesAndHandler)) := by
  rw [r.cosim_upTo, h.trace, wholeRun, traceM_append _ run_sysInReset, Sys.cosimTrace,
    List.map_append, events_append]
  rfl

end GoesOn

/-- The read and the interrupt are executed, and the beat is handed over. -/
theorem dmaLive_wholeRun : ∃ r : SysAlways bus64 defaultConf 0,
    r.Serves (fun _ => 0) (fun _ => 0) ∧ r.Clocked ∧ Fair r.cosim ∧ FairHandler r.cosim ∧
      r.NoneLost ∧ MasterReady r.cosim ∧
      ∃ k, 2 ≤ (r.cosim.state k).hdlReq.taken ∧ (events rHandshakes (r.cosim.upTo k)) ≠ [] := by
  obtain ⟨r, hr⟩ := exists_goesOn
  refine ⟨r, hr.serves, hr.clocked, hr.fair, hr.fairHandler, hr.noneLost, hr.master, ?_⟩
  obtain ⟨k, _, hexecuted, hhanded, _⟩ :=
    dmaLive hr.serves hr.clocked hr.fair hr.fairHandler hr.noneLost hr.master wholeRun.length
  have h0 : r.cosim.state 0 = init fun _ => 0 := congrArg Sys.cosim hr.start
  rw [sent_run (h0 ▸ r.cosim.path wholeRun.length), hr.events_cosim,
    List.length_append] at hexecuted
  rw [hr.events_cosim, beatCount_append] at hhanded
  have hissued : (events issued (Sys.cosimTrace (traceM (Sys.step defaultConf 0) (sysInReset 100)
      accessesAndHandler))).length = 2 := rfl
  have hreads : events readCalls (Sys.cosimTrace (traceM (Sys.step defaultConf 0) (sysInReset 100)
      accessesAndHandler)) = [⟨0x1000, 3, 0, 0⟩] := rfl
  rw [hreads] at hhanded
  refine ⟨k, by omega, fun hnil => ?_⟩
  rw [hnil] at hhanded
  simp [beatCount] at hhanded

end QemuHdlSim.Cosim
