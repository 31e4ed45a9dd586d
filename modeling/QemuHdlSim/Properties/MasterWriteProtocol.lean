import QemuHdlSim.Bridge.MasterWrite

/-!
# When the write master keeps the protocol of its three channels

A run is any sequence of cycles after reset. The slave on the other side is `Compliant`: it
raises `bvalid` once for each write of which it has taken the address and the last beat.
`Protocol` says what such a slave and the guest rely on, over the steps of the run:

* an address or a beat that is shown and not taken stays shown, unchanged
* from the cycle that accepts a request until the module is idle again, there is one AW
  handshake with the request's address, the W handshakes are its beats in order, and
  `C_resp_write` is called once
* in between it does not wait: the address is shown until it is taken, and each cycle shows one
  beat more, the first one in the cycle after `awvalid` went up
* `bvalid` makes the module idle, and while it is nothing is shown and no call is made

`protocol_of_ready` — the protocol is kept in every run whose steps are all `Ready`. A `wready`
that is low in `WRITE_DATA` breaks it: the module shows a beat again that was taken
(`protocol_lateReady`), or loads the next beat over one that was not.
-/

namespace QemuHdlSim.Axi4MW

open Infra

variable {p : BusParams}

/-- A run of the module out of reset. -/
abbrev Run (s : State p) (tr : Trace p) (s' : State p) : Prop :=
  ClockedRun step (fun i => i.iRstN = true) s tr s'

/-- The module is busy with a request in every step of `tr`. -/
def Busy (tr : Trace p) : Prop := ∀ c ∈ tr, c.1.rWriteState ≠ .idle

/-- The beat the W channel shows, if it shows one. -/
def shownW (s : State p) : List (WBeat p) := if s.rMWvalid then [s.wShown] else []

/-- What the slave and the guest rely on in a run. -/
structure Protocol (tr : Trace p) : Prop where
  /-- An address that is not taken stays. -/
  stableAw : ∀ c ∈ tr, c.1.rMAwvalid = true → c.2.iMAwready = false →
    (step c.1 c.2).rMAwvalid = true ∧ (step c.1 c.2).awShown = c.1.awShown
  /-- A beat that is not taken stays. -/
  stableW : ∀ c ∈ tr, c.1.rMWvalid = true → c.2.iMWready = false →
    (step c.1 c.2).rMWvalid = true ∧ (step c.1 c.2).wShown = c.1.wShown
  /-- Nothing is shown and no response is sent while the module is idle. -/
  quiet : ∀ c ∈ tr, c.1.rWriteState = .idle →
    c.1.rMAwvalid = false ∧ c.1.rMWvalid = false ∧ cResp c.1 c.2 = []
  /-- A request is handed over as a whole before the module is idle again. -/
  complete : ∀ pre a mid a' post, tr = pre ++ a :: mid ++ a' :: post →
    Accepts a.1 a.2 → Busy mid → a'.1.rWriteState = .idle →
    events awHandshake mid = [⟨a.2.reqAddr, a.2.reqLen, a.2.reqSize⟩] ∧
      events wHandshake mid = beats a.2.reqData a.2.reqStrb a.2.reqLen ∧
      events cResp mid = [()]
  /-- The address is shown from the cycle after the one that accepts the request, until it is
  taken. -/
  address : ∀ pre a mid post, tr = pre ++ a :: mid ++ post → Accepts a.1 a.2 → Busy mid →
    events awHandshake mid ++ owedAw (stateAfter step a mid)
      = [⟨a.2.reqAddr, a.2.reqLen, a.2.reqSize⟩]
  /-- After `n` cycles the first `n` beats were taken or, the last of them, are shown. -/
  data : ∀ pre a mid post, tr = pre ++ a :: mid ++ post → Accepts a.1 a.2 → Busy mid →
    events wHandshake mid ++ shownW (stateAfter step a mid)
      = (beats a.2.reqData a.2.reqStrb a.2.reqLen).take mid.length
  /-- The response is sent once, in the cycle that makes the module idle again. -/
  response : ∀ pre a mid post, tr = pre ++ a :: mid ++ post → Accepts a.1 a.2 → Busy mid →
    events cResp mid = if (stateAfter step a mid).rWriteState = .idle then [()] else []
  /-- That is the one with `bvalid`. -/
  finish : ∀ c ∈ tr, c.2.iMBvalid = true → (step c.1 c.2).rWriteState = .idle

/-- All steps of the run are `Ready`. -/
def AllReady (tr : Trace p) : Prop := ∀ c ∈ tr, Ready c.1 c.2

/-- `bvalid` comes only after the last beat was taken. -/
def InTime (tr : Trace p) : Prop :=
  ∀ c ∈ tr, c.2.iMBvalid = true → c.1.rWriteState = .response

/-! ## The run laws -/

theorem run_wf {s s' : State p} {tr : Trace p} (h : Run s tr s') (hw : Wf s)
    (hready : AllReady tr) : Wf s' ∧ ∀ c ∈ tr, Wf c.1 := by
  have hstep : ∀ a i b, Wf (p := p) a → (i.iRstN = true ∧ Ready a i) → step a i = b → Wf b := by
    rintro a i b ha ⟨hr, hri⟩ rfl
    exact Wf.of_step hr ha hri
  exact ⟨h.1.invariant hw (fun c hc => ⟨h.2 c hc, hready c hc⟩) hstep,
    h.1.invariant_mem hw (fun c hc => ⟨h.2 c hc, hready c hc⟩) hstep⟩

/-- The conservation laws of the three channels over a run. -/
theorem run_conserve {s s' : State p} {tr : Trace p} (h : Run s tr s') (hw : Wf s)
    (hready : AllReady tr) (hb : InTime tr) :
    owedAw s ++ events creditAw tr = events awHandshake tr ++ owedAw s' ∧
      owedW s ++ events creditW tr = events wHandshake tr ++ owedW s' ∧
      owedB s ++ events creditB tr = events cResp tr ++ owedB s' := by
  let P : State p → Input p → Prop := fun a i =>
    i.iRstN = true ∧ Ready a i ∧ (i.iMBvalid = true → a.rWriteState = .response)
  have hP : ∀ c ∈ tr, P c.1 c.2 := fun c hc => ⟨h.2 c hc, hready c hc, hb c hc⟩
  refine ⟨h.1.conserve hw hP ?_, h.1.conserve hw hP ?_, h.1.conserve hw hP ?_⟩
  · rintro a i b ha ⟨hr, hri, _⟩ rfl
    exact ⟨Wf.of_step hr ha hri, aw_law hr ha⟩
  · rintro a i b ha ⟨hr, hri, _⟩ rfl
    exact ⟨Wf.of_step hr ha hri, w_law hr ha hri⟩
  · rintro a i b ha ⟨hr, hri, hbi⟩ rfl
    exact ⟨Wf.of_step hr ha hri, b_law hr hbi⟩

/-- A compliant slave answers in time. -/
theorem inTime_of_compliant {s s' : State p} {tr : Trace p} (h : Run s tr s') (hw : Wf s)
    (hready : AllReady tr) {n aw w b : Nat} (hbal : Balanced n aw w b s)
    (hc : Compliant aw w b tr) : InTime tr := by
  induction tr generalizing s n aw w b with
  | nil => exact fun c hc => absurd hc List.not_mem_nil
  | cons c tr ih =>
    obtain ⟨hcs, hr, hrest⟩ := h.cons_inv
    obtain ⟨hlt, hctr⟩ := hc
    rw [hcs] at hctr
    have hri : Ready s c.2 := hcs ▸ hready c List.mem_cons_self
    obtain ⟨hin, hbal'⟩ := hbal.step hr hw hri hlt
    have hintr := ih hrest (Wf.of_step hr hw hri) (fun d hd => hready d (List.mem_cons_of_mem _ hd))
      hbal' hctr
    intro d hd
    rcases List.mem_cons.mp hd with rfl | hd
    · rw [hcs]
      exact hin
    · exact hintr d hd

/-! ## One request -/

/-- The state that accepting a request leaves: all of it is owed. -/
theorem owed_of_accepts {s : State p} {i : Input p} (hr : i.iRstN = true) (hw : Wf s)
    (ha : Accepts s i) :
    owedAw (step s i) = [⟨i.reqAddr, i.reqLen, i.reqSize⟩] ∧
      owedW (step s i) = beats i.reqData i.reqStrb i.reqLen ∧ owedB (step s i) = [()] := by
  obtain ⟨hst, hq⟩ := ha
  obtain ⟨_, hwv⟩ := hw.idle hst
  simp [step, hr, comboWrite, hst, hq, owedAw, owedW, owedB, State.awShown, hwv, beats,
    segment_zero]

/-- An idle state owes nothing. -/
theorem owed_of_idle {s : State p} (hw : Wf s) (hs : s.rWriteState = .idle) :
    owedAw s = [] ∧ owedW s = [] ∧ owedB s = [] := by
  obtain ⟨haw, hwv⟩ := hw.idle hs
  simp [owedAw, owedW, owedB, hs, haw, hwv]

/-- A busy module takes no request. -/
theorem credit_of_busy {tr : Trace p} (h : Busy tr) :
    events creditAw tr = [] ∧ events creditW tr = [] ∧ events creditB tr = [] := by
  have hna : ∀ c ∈ tr, ¬Accepts c.1 c.2 := fun c hc ha => h c hc ha.1
  refine ⟨List.flatMap_eq_nil_iff.mpr fun c hc => ?_, List.flatMap_eq_nil_iff.mpr fun c hc => ?_,
    List.flatMap_eq_nil_iff.mpr fun c hc => ?_⟩
  · exact if_neg (hna c hc)
  · exact if_neg (hna c hc)
  · exact if_neg (hna c hc)

/-- Where the module is in the `n`-th cycle of a request of `len + 1` beats. -/
structure Paced (len : BitVec 8) (n : Nat) (s : State p) : Prop where
  burst : s.rLen = len
  data : s.rWriteState = .data → s.rLenCnt.toNat = n
  loaded : s.rWriteState ≠ .data → len.toNat < n

theorem paced_accepts {s : State p} {i : Input p} (hr : i.iRstN = true) (ha : Accepts s i) :
    Paced i.reqLen 0 (step s i) := by
  obtain ⟨hst, hq⟩ := ha
  refine ⟨(step_accepts hr ⟨hst, hq⟩).2.2.1, fun _ => ?_, fun hne => ?_⟩
  · simp [step, hr, comboWrite, hst, hq]
  · exact absurd (step_accepts hr ⟨hst, hq⟩).1 hne

/-- **One cycle of a request**: one beat more is loaded, if there is one. -/
theorem Paced.step {len : BitVec 8} {n : Nat} {s : State p} {i : Input p} (h : Paced len n s)
    (hr : i.iRstN = true) (hw : Wf s) (hready : Ready s i) (hs : s.rWriteState ≠ .idle) :
    Paced len (n + 1) (step s i) := by
  obtain ⟨hlen, hdata, hloaded⟩ := h
  cases hst : s.rWriteState with
  | idle => exact absurd hst hs
  | data =>
    have hcnt := hdata hst
    have hle := hw.data hst
    simp only [Axi4MW.step, hr, if_true, comboWrite, hst, hready.data hst]
    by_cases hlast : s.rLenCnt = s.rLen
    · rw [if_pos hlast]
      refine ⟨hlen, by simp, fun _ => ?_⟩
      rw [← hlen, ← hlast, hcnt]
      exact Nat.lt_succ_self n
    · rw [if_neg hlast]
      refine ⟨hlen, fun _ => ?_, by simp⟩
      rw [← hcnt]
      exact (toNat_succ_of_ne hle hlast).1
  | response =>
    have hlt := hloaded (by simp [hst])
    have hout : (Axi4MW.step s i).rLen = s.rLen ∧ (Axi4MW.step s i).rWriteState ≠ .data := by
      simp only [Axi4MW.step, hr, if_true, comboWrite, hst]
      cases i.iMBvalid <;> simp
    exact ⟨hout.1.trans hlen, fun hd => absurd hd hout.2, fun _ => Nat.lt_succ_of_lt hlt⟩

theorem paced_run {len : BitVec 8} {n : Nat} {s s' : State p} {tr : Trace p} (h : Run s tr s')
    (hw : Wf s) (hready : AllReady tr) (hbusy : Busy tr) (hp : Paced len n s) :
    Paced len (n + tr.length) s' := by
  induction tr generalizing s n with
  | nil =>
    cases h.1
    exact hp
  | cons c tr ih =>
    obtain ⟨rfl, hr, hrest⟩ := h.cons_inv
    have hri := hready c List.mem_cons_self
    have hnext := ih hrest (Wf.of_step hr hw hri) (fun d hd => hready d (List.mem_cons_of_mem _ hd))
      (fun d hd => hbusy d (List.mem_cons_of_mem _ hd))
      (hp.step hr hw hri (hbusy c List.mem_cons_self))
    rwa [List.length_cons, Nat.add_comm tr.length, ← Nat.add_assoc]

/-- What is taken or shown is as much as was loaded. -/
theorem Paced.shown {len : BitVec 8} {n : Nat} {s : State p} (h : Paced len n s) (hw : Wf s)
    {ws bs : List (WBeat p)} (hbs : bs.length = len.toNat + 1) (hall : bs = ws ++ owedW s) :
    ws ++ shownW s = bs.take n := by
  have hsplit : owedW s = shownW s ++ (if s.rWriteState = .data then
    segment (beat s.rData s.rStrb s.rLen) s.rLenCnt.toNat s.rLen.toNat else []) := rfl
  rw [hsplit, ← List.append_assoc] at hall
  by_cases hst : s.rWriteState = .data
  · have hle := hw.data hst
    rw [h.data hst, h.burst] at hle
    rw [if_pos hst] at hall
    refine eq_take_of_append hall.symm ?_ (by omega)
    rw [length_segment, h.data hst, h.burst, hbs]
  · have hlt := h.loaded hst
    rw [if_neg hst, List.append_nil] at hall
    rw [← hall, List.take_of_length_le (by omega)]

/-- What was done for the request of `a` in the cycles `mid`, and what is left to do. -/
structure HandedOver (a : Input p) (mid : Trace p) (s : State p) : Prop where
  wf : Wf s
  paced : Paced a.reqLen mid.length s
  address : [⟨a.reqAddr, a.reqLen, a.reqSize⟩] = events awHandshake mid ++ owedAw s
  data : beats a.reqData a.reqStrb a.reqLen = events wHandshake mid ++ owedW s
  response : [()] = events cResp mid ++ owedB s

/-- **What a request hands over**, from the cycle that accepts it while the module is busy. -/
theorem handed_over {pre mid : Trace p} {a : State p × Input p} {s' : State p}
    (h : Run reset (pre ++ a :: mid) s') (hready : AllReady (pre ++ a :: mid))
    (hb : InTime (pre ++ a :: mid)) (ha : Accepts a.1 a.2) (hbusy : Busy mid) :
    HandedOver a.2 mid s' := by
  have hw' := (run_wf h wf_reset hready).1
  obtain ⟨m, hpre, hrest⟩ := h.append_inv
  obtain ⟨hm, hr, hmid⟩ := hrest.cons_inv
  have hmem : ∀ {c}, c ∈ mid → c ∈ pre ++ a :: mid :=
    fun hc => List.mem_append_right _ (List.mem_cons_of_mem _ hc)
  have hwm := (run_wf hpre wf_reset (fun c hc => hready c (List.mem_append_left _ hc))).1
  have hra : Ready m a.2 := hm ▸ hready a (by simp)
  obtain ⟨hAw, hW, hB⟩ := owed_of_accepts hr hwm (hm ▸ ha)
  obtain ⟨cAw, cW, cB⟩ := credit_of_busy hbusy
  have hlaws := run_conserve hmid (Wf.of_step hr hwm hra) (fun c hc => hready c (hmem hc))
    (fun c hc => hb c (hmem hc))
  rw [hAw, hW, hB, cAw, cW, cB, List.append_nil, List.append_nil, List.append_nil] at hlaws
  have hpaced := paced_run hmid (Wf.of_step hr hwm hra) (fun c hc => hready c (hmem hc)) hbusy
    (paced_accepts hr (hm ▸ ha))
  rw [Nat.zero_add] at hpaced
  exact ⟨hw', hpaced, hlaws.1, hlaws.2.1, hlaws.2.2⟩

/-! ## Stability -/

theorem stableAw_of_ready {s : State p} {i : Input p} (hr : i.iRstN = true) (hw : Wf s)
    (hv : s.rMAwvalid = true) (hlow : i.iMAwready = false) :
    (step s i).rMAwvalid = true ∧ (step s i).awShown = s.awShown := by
  have hna : ¬Accepts s i := by
    rintro ⟨hst, _⟩
    rw [(hw.idle hst).1] at hv
    exact absurd hv (by simp)
  have hlaw := aw_law hr hw
  rw [creditAw, if_neg hna, awHandshake, if_neg (by simp [hlow]), owedAw, if_pos hv, owedAw] at hlaw
  cases hv' : (step s i).rMAwvalid with
  | false => simp [hv'] at hlaw
  | true => exact ⟨rfl, by simpa [hv'] using hlaw.symm⟩

theorem not_stalled_of_ready {s : State p} {i : Input p} (hw : Wf s) (hready : Ready s i)
    (hv : s.rMWvalid = true) : i.iMWready = true := by
  cases hst : s.rWriteState with
  | idle =>
    rw [(hw.idle hst).2] at hv
    exact absurd hv (by simp)
  | data => exact hready.data hst
  | response => exact hready.response hst hv

/-! ## The condition -/

/--
**The write master keeps the protocol in every run in which the slave is compliant and every
step is `Ready`.**
-/
theorem protocol_of_ready (is : List (Input p)) (hr : ∀ i ∈ is, i.iRstN = true)
    (hc : Compliant 0 0 0 (traceOf step reset is))
    (hready : ∀ c ∈ traceOf step reset is, Ready c.1 c.2) :
    Protocol (traceOf step reset is) := by
  have hrun : Run reset (traceOf step reset is) _ := ClockedRun.of_traceOf hr reset
  have hwf := (run_wf hrun wf_reset hready).2
  have hin := inTime_of_compliant hrun wf_reset hready balanced_reset hc
  have hrequest : ∀ pre a mid post, traceOf step reset is = pre ++ a :: mid ++ post →
      Accepts a.1 a.2 → Busy mid → HandedOver a.2 mid (stateAfter step a mid) := by
    intro pre a mid post htr ha hbusy
    rw [htr] at hrun hready hin
    obtain ⟨m, hfirst, _⟩ := hrun.append_inv
    rw [hfirst.stateAfter_eq]
    exact handed_over hfirst (fun c hc => hready c (List.mem_append_left _ hc))
      (fun c hc => hin c (List.mem_append_left _ hc)) ha hbusy
  refine ⟨?_, ?_, ?_, ?_, ?_, ?_, ?_, ?_⟩
  · exact fun c hc => stableAw_of_ready (hrun.2 c hc) (hwf c hc)
  · intro c hc hv hlow
    have hhigh := not_stalled_of_ready (hwf c hc) (hready c hc) hv
    rw [hlow] at hhigh
    exact absurd hhigh (by simp)
  · intro c hc hidle
    obtain ⟨haw, hwv⟩ := (hwf c hc).idle hidle
    refine ⟨haw, hwv, if_neg fun hb => ?_⟩
    have hresp := hin c hc hb
    rw [hidle] at hresp
    exact absurd hresp (by simp)
  · intro pre a mid a' post htr ha hbusy hidle
    obtain ⟨hw, _, haddress, hdata, hresponse⟩ := hrequest pre a mid _ htr ha hbusy
    -- the state behind the request is the one `a'` is taken in
    rw [htr] at hrun
    obtain ⟨m, hfirst, hlast⟩ := hrun.append_inv
    rw [hfirst.stateAfter_eq, ← hlast.cons_inv.1] at hw haddress hdata hresponse
    obtain ⟨o1, o2, o3⟩ := owed_of_idle hw hidle
    rw [o1, List.append_nil] at haddress
    rw [o2, List.append_nil] at hdata
    rw [o3, List.append_nil] at hresponse
    exact ⟨haddress.symm, hdata.symm, hresponse.symm⟩
  · exact fun pre a mid post htr ha hbusy => (hrequest pre a mid post htr ha hbusy).address.symm
  · intro pre a mid post htr ha hbusy
    obtain ⟨hw, hpaced, _, hdata, _⟩ := hrequest pre a mid post htr ha hbusy
    exact hpaced.shown hw (by simp [beats]) hdata
  · intro pre a mid post htr ha hbusy
    have hresponse := (hrequest pre a mid post htr ha hbusy).response
    unfold owedB at hresponse
    split
    · rename_i hidle
      rwa [if_pos hidle, List.append_nil, eq_comm] at hresponse
    · rename_i hbusy'
      rw [if_neg hbusy'] at hresponse
      exact List.append_left_eq_self.mp hresponse.symm
  · intro c hc hb
    have hst := hin c hc hb
    simp [step, hrun.2 c hc, comboWrite, hst, hb]

/-! ## A single-beat write -/

/-- One cycle of a slave that always takes addresses, while one word is written to `0x1000`. -/
def oneBeatCycle (reqValid wready bvalid : Bool) : Input bus64 where
  iRstN := true
  reqAddr := 0x1000
  reqLen := 0
  reqSize := 3
  reqStrb := 0xFF
  reqData := fun k => BitVec.ofNat 8 k.val
  reqValid := reqValid
  iMAwready := true
  iMWready := wready
  iMBvalid := bvalid

/-- `wready` is high throughout. -/
def readyRun : List (Input bus64) :=
  [oneBeatCycle true true false, oneBeatCycle false true false, oneBeatCycle false true false,
    oneBeatCycle false true true]

/-- `wready` is low in the cycle in which the beat is loaded, and high from then on. -/
def lateRun : List (Input bus64) :=
  [oneBeatCycle true true false, oneBeatCycle false false false, oneBeatCycle false true false,
    oneBeatCycle false true false, oneBeatCycle false true true, oneBeatCycle false true false]

theorem protocol_readyRun : Protocol (traceOf step reset readyRun) := by
  refine protocol_of_ready readyRun (by simp [readyRun, oneBeatCycle]) ?_ ?_
  · refine ⟨?_, ?_, ?_, ?_, trivial⟩ <;> decide
  · intro c hc
    simp only [readyRun, traceOf, List.mem_cons, List.not_mem_nil, or_false] at hc
    rcases hc with rfl | rfl | rfl | rfl <;> exact ⟨by decide, by decide, by decide⟩

/-- The slave is compliant, yet the only beat is handed over twice. -/
theorem protocol_lateReady :
    (∀ i ∈ lateRun, i.iRstN = true) ∧ Compliant 0 0 0 (traceOf step reset lateRun) ∧
      (events wHandshake (traceOf step reset lateRun)).length = 2 ∧
      ¬Protocol (traceOf step reset lateRun) := by
  refine ⟨by simp [lateRun, oneBeatCycle], ?_, rfl, ?_⟩
  · refine ⟨?_, ?_, ?_, ?_, ?_, ?_, trivial⟩ <;> decide
  · intro h
    have hbusy : Busy (((traceOf step reset lateRun).drop 1).take 4) := by
      intro c hc
      simp only [lateRun, traceOf, List.drop_succ_cons, List.drop_zero, List.take_succ_cons,
        List.take_zero, List.mem_cons, List.not_mem_nil, or_false] at hc
      rcases hc with rfl | rfl | rfl | rfl <;> decide
    obtain ⟨_, hbeats, _⟩ := h.complete [] (reset, oneBeatCycle true true false) _
      ((lateRun.take 5).foldl step reset, oneBeatCycle false true false) [] rfl ⟨rfl, rfl⟩ hbusy rfl
    have htwo : 2 = 1 := congrArg List.length hbeats
    exact absurd htwo (by decide)

end QemuHdlSim.Axi4MW
