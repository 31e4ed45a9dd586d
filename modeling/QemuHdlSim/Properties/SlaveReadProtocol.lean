import QemuHdlSim.Bridge.SlaveRead

/-!
# When the read slave keeps the R channel protocol

A run is any sequence of cycles after reset, with any pattern of `rready` and of response pulses.
`Protocol` says what a master relies on, over the steps of the run:

* the `C_req_read` calls are the AR handshakes
* a beat that is shown and not taken stays shown, unchanged
* between two AR handshakes, and after the last one, the R handshakes are the beats of the one
  burst in order, cut out of the first response that came after its AR handshake
* in between it does not wait: once the response is there, each cycle with `rready` high takes the
  beat that is shown and shows the next one, and `arready` comes back with the last

A beat taken in the cycle of an AR handshake belongs to the burst before it.

`protocol_iff` — the protocol is kept in a run exactly when no cycle of it finds the module in
`READ_IDLE` with `rvalid` high and `rready` low, since such a cycle takes the last beat back.
-/

namespace QemuHdlSim.Axi4SR

open Infra

variable {p : BusParams}

/-- The beats a burst accepted in step `a` has to hand over, once its response is there. -/
def burstBeats (a : State p × Input p) (responses : List (Buf buffSize)) : List (RBeat p) :=
  responses.head?.toList.flatMap (beats a.2.iSArid a.2.iSArlen)

/-- The beat the R channel shows, if it shows one. -/
def shownR (s : State p) : List (RBeat p) := if s.rSRvalid then [s.shown] else []

/-- The cycles with `rready` high since the first response. -/
def readies : Trace p → Nat
  | [] => 0
  | c :: tr => if c.2.reqValid then tr.countP fun d => d.2.iSRready else readies tr

/-- What a master relies on in a run. -/
structure Protocol (tr : Trace p) : Prop where
  /-- Each AR handshake makes one call, with its payload; nothing else makes one. -/
  calls : ∀ c ∈ tr, cReq c.1 c.2 =
    if ArHandshake c.1 c.2 then [⟨c.2.iSAraddr, c.2.iSArsize, c.2.iSArlen, c.2.iSArid⟩] else []
  /-- A beat that is not taken stays. -/
  stable : ∀ c ∈ tr, c.1.rSRvalid = true → c.2.iSRready = false →
    (step c.1 c.2).rSRvalid = true ∧ (step c.1 c.2).shown = c.1.shown
  /-- Up to the first AR handshake nothing is handed over, and it is waited for. -/
  before : ∀ mid a post, tr = mid ++ a :: post → NoAr mid →
    events rHandshake (mid ++ [a]) = [] ∧ a.1.rSArready = true
  /-- From one AR handshake to the next, the whole burst is handed over. -/
  complete : ∀ pre a mid a' post, tr = pre ++ a :: mid ++ a' :: post →
    ArHandshake a.1 a.2 → NoAr mid → ArHandshake a'.1 a'.2 →
    ∃ d, (events response mid).head? = some d ∧
      events rHandshake (mid ++ [a']) = beats a.2.iSArid a.2.iSArlen d
  /-- After an AR handshake, what was taken or is shown are the first beats of the burst, one for
  each cycle with `rready` high. -/
  paced : ∀ pre a mid post, tr = pre ++ a :: mid ++ post → ArHandshake a.1 a.2 → NoAr mid →
    events rHandshake mid ++ shownR (stateAfter step a mid)
      = (burstBeats a (events response mid)).take (readies mid)
  /-- The next one can come when these are all. -/
  free : ∀ pre a mid post, tr = pre ++ a :: mid ++ post → ArHandshake a.1 a.2 → NoAr mid →
    ((stateAfter step a mid).rSArready = true ↔ a.2.iSArlen.toNat < readies mid)

/-! ## One step -/

/-- The beat in `READ_IDLE` is taken back, whatever `rready` is. -/
theorem rvalid_of_idle {s : State p} {i : Input p} (hr : i.iRstN = true)
    (hs : s.rReadState = .idle) : (step s i).rSRvalid = false := by
  simp only [step, hr, if_true, comboRead, hs]
  by_cases hv : i.iSArvalid = true <;> simp [hv]

/-- Outside `READ_IDLE` a beat that is not taken stays. -/
theorem stable_of_presentable {s : State p} {i : Input p} (hr : i.iRstN = true) (hw : Wf s)
    (hp : Presentable s i) (hv : s.rSRvalid = true) (hready : i.iSRready = false) :
    (step s i).rSRvalid = true ∧ (step s i).shown = s.shown := by
  cases hst : s.rReadState with
  | idle =>
    have htaken := hp hst hv
    rw [hready] at htaken
    exact absurd htaken (by simp)
  | data =>
    have hnot := (hw.data hst).1
    rw [hv] at hnot
    exact absurd hnot (by simp)
  | response =>
    have hsame : step s i = s := by simp [step, hr, comboRead, hst, hready]
    rw [hsame]
    exact ⟨hv, rfl⟩

/-! ## One burst -/

/-- A cycle more. -/
theorem readies_snoc (tr : Trace p) (c : State p × Input p) : readies (tr ++ [c])
    = if events response tr = [] then 0 else readies tr + if c.2.iSRready then 1 else 0 := by
  induction tr with
  | nil =>
    show (if c.2.reqValid then List.countP (fun d : State p × Input p => d.2.iSRready) []
      else 0) = _
    rw [events_nil, if_pos rfl, List.countP_nil, ite_self]
  | cons d tr ih =>
    rw [List.cons_append, readies, readies, ih, events_cons, response]
    cases hq : d.2.reqValid with
    | false => simp only [Bool.false_eq_true, if_false, List.nil_append]
    | true =>
      simp only [if_true, List.singleton_append, reduceCtorEq, if_false, List.countP_append,
        List.countP_singleton]

/-- Without an address the module stays in `READ_IDLE`. -/
theorem step_idle {s : State p} {i : Input p} (hr : i.iRstN = true) (hw : Wf s)
    (hs : s.rReadState = .idle) (hna : ¬ArHandshake s i) : (step s i).rReadState = .idle := by
  have hv : i.iSArvalid = false := by
    rw [← Bool.not_eq_true]
    exact fun hv => hna ⟨hv, hw.arready.mpr hs⟩
  simp [step, hr, comboRead, hs, hv]

theorem run_idle {s s' : State p} {tr : Trace p} (h : Run s tr s') (hw : Wf s)
    (hs : s.rReadState = .idle) (hna : NoAr tr) : s'.rReadState = .idle := by
  induction tr generalizing s with
  | nil =>
    cases h.1
    exact hs
  | cons c tr ih =>
    obtain ⟨rfl, hr, hrest⟩ := h.cons_inv
    exact ih hrest (Wf.of_step hr hw) (step_idle hr hw hs (hna c List.mem_cons_self))
      fun d hd => hna d (List.mem_cons_of_mem _ hd)

/-- Where the module is with a burst of `len + 1` beats, `mid` after its AR handshake. -/
structure Paced (len : BitVec 8) (mid : Trace p) (s : State p) : Prop where
  burst : s.rLen = len
  waits : s.rReadState = .data → events response mid = [] ∧ readies mid = 0
  loads : s.rReadState = .response →
    events response mid ≠ [] ∧ s.rLenCnt.toNat = readies mid
  through : s.rReadState = .idle → events response mid ≠ [] ∧ len.toNat < readies mid

theorem paced_of_data {len : BitVec 8} {s : State p} (hlen : s.rLen = len)
    (hs : s.rReadState = .data) : Paced len [] s :=
  ⟨hlen, fun _ => ⟨rfl, rfl⟩, by simp [hs], by simp [hs]⟩

theorem Paced.idle_iff {len : BitVec 8} {mid : Trace p} {s : State p} (h : Paced len mid s)
    (hw : Wf s) : s.rReadState = .idle ↔ len.toNat < readies mid := by
  cases hst : s.rReadState with
  | idle => exact iff_of_true rfl (h.through hst).2
  | data => exact iff_of_false (by simp) (by rw [(h.waits hst).2]; exact Nat.not_lt_zero _)
  | response =>
    have hle := (hw.response hst).2
    rw [(h.loads hst).2, h.burst] at hle
    exact iff_of_false (by simp) (Nat.not_lt.mpr hle)

/-- **One cycle of a burst.** -/
theorem Paced.step {len : BitVec 8} {mid : Trace p} {s : State p} {i : Input p}
    (h : Paced len mid s) (hr : i.iRstN = true) (hw : Wf s) (hna : ¬ArHandshake s i) :
    Paced len (mid ++ [(s, i)]) (step s i) := by
  have hburst : (Axi4SR.step s i).rLen = len := (step_no_ar hr hw hna).2.1.trans h.burst
  have hevents : events response (mid ++ [(s, i)]) = events response mid ++ response s i := by
    rw [events_append, events_cons, events_nil, List.append_nil]
  cases hst : s.rReadState with
  | idle =>
    obtain ⟨hresp, hlt⟩ := h.through hst
    have hstay := step_idle hr hw hst hna
    refine ⟨hburst, by simp [hstay], by simp [hstay], fun _ => ⟨by simp [hevents, hresp], ?_⟩⟩
    rw [readies_snoc, if_neg hresp]
    omega
  | data =>
    obtain ⟨hresp, _⟩ := h.waits hst
    have hzero : readies (mid ++ [(s, i)]) = 0 := by rw [readies_snoc, if_pos hresp]
    cases hq : i.reqValid with
    | false =>
      rw [step_wait hr hst hq]
      refine ⟨h.burst, fun _ => ⟨?_, hzero⟩, by simp [hst], by simp [hst]⟩
      rw [hevents, hresp, response, hq]
      rfl
    | true =>
      obtain ⟨hst', _, hcnt⟩ := step_pulse hr hw hst hq
      refine ⟨hburst, by simp [hst'], fun _ => ⟨?_, hcnt.trans hzero.symm⟩, by simp [hst']⟩
      rw [hevents, hresp, response, hq]
      exact List.cons_ne_nil _ _
  | response =>
    obtain ⟨hresp, hcnt⟩ := h.loads hst
    have hne : events response (mid ++ [(s, i)]) ≠ [] := by simp [hevents, hresp]
    cases hready : i.iSRready with
    | false =>
      have hsame : Axi4SR.step s i = s := by simp [Axi4SR.step, hr, comboRead, hst, hready]
      rw [hsame]
      refine ⟨h.burst, by simp [hst], fun _ => ⟨hne, ?_⟩, by simp [hst]⟩
      simp [readies_snoc, hresp, hready, hcnt]
    | true =>
      have hmore : readies (mid ++ [(s, i)]) = readies mid + 1 := by
        simp [readies_snoc, hresp, hready]
      obtain ⟨hlast, hnext⟩ := step_load hr hst hready
      by_cases hl : s.rLenCnt = s.rLen
      · have hst' := hlast hl
        refine ⟨hburst, by simp [hst'], by simp [hst'], fun _ => ⟨hne, ?_⟩⟩
        rw [hmore, ← hcnt, hl, h.burst]
        exact Nat.lt_succ_self _
      · obtain ⟨hst', _, hcnt'⟩ := hnext hl
        refine ⟨hburst, by simp [hst'], fun _ => ⟨hne, ?_⟩, by simp [hst']⟩
        rw [hmore, hcnt', ← hcnt]
        exact (toNat_succ_of_ne (hw.response hst).2 hl).1

/-- The cycles of a burst. -/
theorem paced_run {len : BitVec 8} {tr mid : Trace p} {s s' : State p} (h : Run s tr s')
    (hw : Wf s) (hna : NoAr tr) (hp : Paced len mid s) : Paced len (mid ++ tr) s' := by
  induction tr generalizing s mid with
  | nil =>
    cases h.1
    rwa [List.append_nil]
  | cons c tr ih =>
    obtain ⟨rfl, hr, hrest⟩ := h.cons_inv
    have hend := ih hrest (Wf.of_step hr hw) (fun d hd => hna d (List.mem_cons_of_mem _ hd))
      (hp.step hr hw (hna c List.mem_cons_self))
    rwa [List.append_assoc, List.singleton_append] at hend

/-- What is taken or shown is as much as was loaded. -/
theorem Paced.shown {len : BitVec 8} {mid : Trace p} {s : State p} (h : Paced len mid s)
    (hw : Wf s) {rs : List (RBeat p)} {id : BitVec p.tagw}
    (hall : (events response mid).head?.toList.flatMap (beats id len) = rs ++ owed s) :
    rs ++ shownR s
      = ((events response mid).head?.toList.flatMap (beats id len)).take (readies mid) := by
  have hsplit : owed s = shownR s ++ (if s.rReadState = .response then
    segment (beat s.rId s.rLen s.rData) s.rLenCnt.toNat s.rLen.toNat else []) := rfl
  rw [hsplit, ← List.append_assoc] at hall
  -- a response that is there has `len + 1` beats
  have hlength : events response mid ≠ [] →
      ((events response mid).head?.toList.flatMap (beats id len)).length = len.toNat + 1 := by
    intro hne
    obtain ⟨d, ds, hd⟩ := List.exists_cons_of_ne_nil hne
    simp [hd, beats]
  cases hst : s.rReadState with
  | idle =>
    obtain ⟨hne, hlt⟩ := h.through hst
    rw [if_neg (by simp [hst]), List.append_nil] at hall
    rw [← hall, List.take_of_length_le (by rw [hlength hne]; omega)]
  | data =>
    obtain ⟨hnil, _⟩ := h.waits hst
    rw [if_neg (by simp [hst]), List.append_nil] at hall
    rw [← hall, hnil]
    exact List.take_nil.symm
  | response =>
    obtain ⟨hne, hcnt⟩ := h.loads hst
    have hle := (hw.response hst).2
    rw [hcnt, h.burst] at hle
    rw [if_pos hst] at hall
    refine eq_take_of_append hall.symm ?_ (by rw [hlength hne]; omega)
    rw [length_segment, hlength hne, hcnt, h.burst]

/-! ## The condition -/

theorem stable_of_all {tr : Trace p} {s' : State p} (h : Run reset tr s')
    (hp : AllPresentable tr) :
    ∀ c ∈ tr, c.1.rSRvalid = true → c.2.iSRready = false →
      (step c.1 c.2).rSRvalid = true ∧ (step c.1 c.2).shown = c.1.shown :=
  fun c hc => stable_of_presentable (h.2 c hc) ((run_wf h wf_reset).2 c hc) (hp c hc)

/-- The state an AR handshake leaves, in a run that goes on with `mid`. -/
theorem run_at_ar {s s' : State p} {pre mid : Trace p} {a : State p × Input p}
    (h : Run s (pre ++ a :: mid) s') (hw : Wf s) (ha : ArHandshake a.1 a.2) :
    ∃ t, Wf t ∧ t.rReadState = .data ∧ t.rId = a.2.iSArid ∧ t.rLen = a.2.iSArlen ∧
      Run t mid s' := by
  obtain ⟨m, hpre, hrest⟩ := h.append_inv
  obtain ⟨hm, hr, hmid⟩ := hrest.cons_inv
  have hwm := (run_wf hpre hw).1
  obtain ⟨_, hd, hid, hlen⟩ := step_ar hr hwm (hm ▸ ha)
  exact ⟨_, Wf.of_step hr hwm, hd, hid, hlen, hmid⟩

theorem protocol_of_presentable {tr : Trace p} {s' : State p} (h : Run reset tr s')
    (hp : AllPresentable tr) : Protocol tr where
  calls c hc := cReq_eq ((run_wf h wf_reset).2 c hc) c.2
  stable := stable_of_all h hp
  before := by
    intro mid a post htr hna
    subst htr
    rw [← List.singleton_append, ← List.append_assoc] at h
    obtain ⟨m, hmid, _⟩ := h.append_inv
    have howed := run_conserve hmid wf_reset (fun c hc => hp c (by
      rcases List.mem_append.mp hc with hc | hc
      · exact List.mem_append_left _ hc
      · rw [List.mem_singleton.mp hc]
        exact List.mem_append_right _ List.mem_cons_self))
    -- no pulse is taken on the way, and none in the last step
    obtain ⟨m', hmid', hlast⟩ := hmid.append_inv
    obtain ⟨_, _, hcredit, _, hout⟩ := run_serving hmid' wf_reset hna
    obtain ⟨hnd, hnone⟩ := hout (by simp [reset])
    have hcredit' : credit a.1 a.2 = [] := by
      rw [hlast.cons_inv.1]
      simp [credit, pulse, hnd]
    rw [events_append, hcredit, hnone, events_cons, hcredit'] at howed
    refine ⟨(List.append_eq_nil_iff.mp howed.symm).1, ?_⟩
    rw [hlast.cons_inv.1]
    exact (run_wf hmid' wf_reset).1.arready.mpr (run_idle hmid' wf_reset rfl hna)
  complete := by
    intro pre a mid a' post htr ha hna ha'
    subst htr
    rw [List.append_assoc, List.cons_append] at h
    obtain ⟨t, hwt, hd, hid, hlen, hrun⟩ := run_at_ar h wf_reset ha
    obtain ⟨m, hmid, hlast⟩ := hrun.append_inv
    obtain ⟨hm, hr, _⟩ := hlast.cons_inv
    have hpm : AllPresentable mid := fun c hc => hp c (by simp [hc])
    have hburst := run_burst hmid hwt hd hpm hna
    -- the next AR handshake finds the module idle, so the response came and one beat is owed
    have hwm := (run_wf hmid hwt).1
    obtain ⟨hidle, _⟩ := step_ar hr hwm (hm ▸ ha')
    obtain ⟨_, _, _, hin, _⟩ := run_serving hmid hwt hna
    have hpa' : Presentable a'.1 a'.2 := hp a' (by simp)
    have hshown : owed m = rHandshake a'.1 a'.2 := by
      rw [hm] at hpa' ⊢
      exact owed_of_idle hidle hpa'
    cases hresp : events response mid with
    | nil =>
      have hstill := (hin hd).1.mpr hresp
      rw [hidle] at hstill
      exact absurd hstill (by simp)
    | cons d ds =>
      refine ⟨d, rfl, ?_⟩
      rw [hresp, hshown, hid, hlen] at hburst
      rw [events_append, events_cons, events_nil, List.append_nil, ← hburst]
      simp
  paced := by
    intro pre a mid post htr ha hna
    subst htr
    obtain ⟨m, hrun, _⟩ := h.append_inv
    rw [hrun.stateAfter_eq]
    obtain ⟨t, hwt, hd, hid, hlen, hmid⟩ := run_at_ar hrun wf_reset ha
    have hpaced := paced_run hmid hwt hna (paced_of_data hlen hd)
    have hburst := run_burst hmid hwt hd (fun c hc => hp c (by simp [hc])) hna
    rw [hid, hlen] at hburst
    exact hpaced.shown (run_wf hmid hwt).1 hburst
  free := by
    intro pre a mid post htr ha hna
    subst htr
    obtain ⟨m, hrun, _⟩ := h.append_inv
    rw [hrun.stateAfter_eq]
    obtain ⟨t, hwt, hd, _, hlen, hmid⟩ := run_at_ar hrun wf_reset ha
    have hpaced := paced_run hmid hwt hna (paced_of_data hlen hd)
    exact (run_wf hmid hwt).1.arready.trans (hpaced.idle_iff (run_wf hmid hwt).1)

/--
**The read slave keeps the R channel protocol exactly in the runs in which every last beat is
taken in the one cycle it is shown**: no cycle finds `READ_IDLE` with `rvalid` high and `rready`
low.
-/
theorem protocol_iff (is : List (Input p)) (hr : ∀ i ∈ is, i.iRstN = true) :
    Protocol (traceOf step reset is) ↔ ∀ c ∈ traceOf step reset is, Presentable c.1 c.2 := by
  have hrun : Run reset (traceOf step reset is) _ := ClockedRun.of_traceOf hr reset
  constructor
  · intro h c hc hidle hv
    by_contra hready
    have hlow : c.2.iSRready = false := by simpa using hready
    have hstays := (h.stable c hc hv hlow).1
    rw [rvalid_of_idle (hrun.2 c hc) hidle] at hstays
    exact absurd hstays (by simp)
  · exact protocol_of_presentable hrun

/-! ## A single-beat read whose beat is lost -/

/-- One cycle of a master that reads one beat at address `0x1000`. -/
def oneBeatCycle (arvalid reqValid rready : Bool) : Input bus64 where
  iRstN := true
  reqData := fun _ => 0x5A
  reqValid := reqValid
  iSArid := 2
  iSAraddr := 0x1000
  iSArlen := 0
  iSArsize := 3
  iSArvalid := arvalid
  iSRready := rready

/-- The beat is shown in the last cycle and taken there. -/
def takenRun : List (Input bus64) :=
  [oneBeatCycle true false true, oneBeatCycle false true true, oneBeatCycle false false true,
    oneBeatCycle false false true]

/-- The beat is shown in the fourth cycle with `rready` low; then the next burst is accepted. -/
def lostRun : List (Input bus64) :=
  [oneBeatCycle true false true, oneBeatCycle false true true, oneBeatCycle false false true,
    oneBeatCycle false false false, oneBeatCycle true false true]

theorem protocol_takenRun :
    Protocol (traceOf step reset takenRun) ∧
      (events rHandshake (traceOf step reset takenRun)).length = 1 := by
  refine ⟨(protocol_iff takenRun (by simp [takenRun, oneBeatCycle])).mpr ?_, rfl⟩
  intro c hc
  simp only [takenRun, traceOf, List.mem_cons, List.not_mem_nil, or_false] at hc
  rcases hc with rfl | rfl | rfl | rfl <;> exact fun _ _ => rfl

/-- Two bursts were accepted and the first was answered, yet no beat was handed over. -/
theorem protocol_lostRun :
    (∀ i ∈ lostRun, i.iRstN = true) ∧
      (events cReq (traceOf step reset lostRun)).length = 2 ∧
      (events response (traceOf step reset lostRun)).length = 1 ∧
      events rHandshake (traceOf step reset lostRun) = [] ∧
      ¬Protocol (traceOf step reset lostRun) := by
  refine ⟨by simp [lostRun, oneBeatCycle], rfl, rfl, rfl, ?_⟩
  intro h
  have hstays := h.stable ((lostRun.take 3).foldl step reset, oneBeatCycle false false false)
    (List.mem_cons_of_mem _ (List.mem_cons_of_mem _ (List.mem_cons_of_mem _ List.mem_cons_self)))
    rfl rfl
  exact absurd hstays.1 (by decide)

end QemuHdlSim.Axi4SR
