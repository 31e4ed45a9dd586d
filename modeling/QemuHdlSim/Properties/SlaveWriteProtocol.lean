import QemuHdlSim.Bridge.SlaveWrite

/-!
# The write slave keeps the protocol of its three channels

A run is any sequence of cycles after reset: `wvalid` may come before the address, with it or after
it, and `bready` as it likes. `Protocol` says what a master and QEMU rely on, over the steps of the
run:

* `awready`, `wready` and `bvalid` say which state the module is in
* a response that is not taken stays
* from one AW handshake to the next there are `awlen + 1` W handshakes, then one `C_req_write` with
  just these beats, and then one B handshake with the `awid`

`Progress.step` is the step lemma, by the kinds of cycle of the module.
-/

namespace QemuHdlSim.Axi4SW

open Infra

variable {p : BusParams}

/-- The cycles of a run. -/
abbrev Trace (p : BusParams) := List (State p × Input p)

/-- A run of the module out of reset. -/
abbrev Run (s : State p) (tr : Trace p) (s' : State p) : Prop :=
  ClockedRun step (fun i => i.iRstN = true) s tr s'

/-- There is no AW handshake in `tr`. -/
def NoAw (tr : Trace p) : Prop := ∀ c ∈ tr, ¬AwHandshake c.1 c.2

/-- The strobe words `ss` are in their places, as long as there is room for them. -/
def HoldsStrbs (strb : Fin p.nstb → BitVec 64) (ss : List (BitVec p.stbw)) : Prop :=
  ∀ (i : Nat) (h : i < ss.length) (hn : i < p.nstb),
    strb ⟨i, hn⟩ = (ss.get ⟨i, h⟩).setWidth 64

theorem HoldsStrbs.snoc {strb : Fin p.nstb → BitVec 64} {ss : List (BitVec p.stbw)}
    (h : HoldsStrbs strb ss) (x : BitVec p.stbw) :
    HoldsStrbs (setStrb strb ss.length x) (ss ++ [x]) := by
  intro i hi hn
  rw [List.length_append, List.length_singleton] at hi
  unfold setStrb
  rcases Nat.lt_or_eq_of_le (Nat.le_of_lt_succ hi) with hlt | rfl
  · have hne : i ≠ ss.length := by omega
    rw [if_neg hne, h i hlt hn, List.get_eq_getElem, List.get_eq_getElem,
      List.getElem_append_left hlt]
  · rw [if_pos rfl, List.get_eq_getElem]
    simp

/-! ## What a burst comes to -/

/-- The beats of the burst of `a` were taken in the cycles `mid`, and the call was made. -/
structure Called (a : Input p) (mid : Trace p) : Prop where
  beats : (events wHandshake mid).length = a.iSAwlen.toNat + 1
  /-- One call, with the burst and in the first places its beats and strobes. -/
  call : ∃ d strb, events cReq mid = [⟨a.iSAwaddr, a.iSAwsize, a.iSAwlen, d, strb⟩] ∧
    HoldsWords d ((events wHandshake mid).map Prod.fst) ∧
    HoldsStrbs strb ((events wHandshake mid).map Prod.snd)

/-- Some beats of the burst are missing, and nothing was done yet. -/
structure Collected (a : Input p) (mid : Trace p) : Prop where
  beats : (events wHandshake mid).length ≤ a.iSAwlen.toNat
  call : events cReq mid = []
  response : events bIds mid = []

/-- What a master and QEMU rely on in a run. -/
structure Protocol (tr : Trace p) : Prop where
  /-- `awready`, `wready` and `bvalid` are high in one state each. -/
  ready : ∀ c ∈ tr, ReadyWf c.1
  /-- A response that is not taken stays. -/
  stableB : ∀ c ∈ tr, c.1.rSBvalid = true → c.2.iSBready = false →
    (step c.1 c.2).rSBvalid = true ∧ (step c.1 c.2).rSBid = c.1.rSBid
  /-- Before the first AW handshake nothing is taken, called or answered. -/
  before : ∀ mid post, tr = mid ++ post → NoAw mid →
    events wHandshake mid = [] ∧ events cReq mid = [] ∧ events bIds mid = []
  /-- After an AW handshake the burst is collected, then called, then answered with its id. -/
  served : ∀ pre a mid post, tr = pre ++ a :: mid ++ post → AwHandshake a.1 a.2 → NoAw mid →
    Collected a.2 mid ∨ (Called a.2 mid ∧ events bIds mid <+: [a.2.iSAwid])
  /-- The response is not shown before the last beat was taken. -/
  late : ∀ pre a mid b post, tr = pre ++ a :: mid ++ b :: post → AwHandshake a.1 a.2 → NoAw mid →
    b.1.rSBvalid = true → Called a.2 mid
  /-- All that is done by the time of the next AW handshake. -/
  complete : ∀ pre a mid b post, tr = pre ++ a :: mid ++ b :: post → AwHandshake a.1 a.2 →
    NoAw mid → AwHandshake b.1 b.2 → Called a.2 mid ∧ events bIds mid = [a.2.iSAwid]

/-! ## One burst -/

/-- Where the module is with the burst of `a`, when there was no other address in `mid`. -/
structure Progress (a : Input p) (mid : Trace p) (s : State p) : Prop where
  words : HoldsWords s.rDataTmp ((events wHandshake mid).map Prod.fst)
  strbs : HoldsStrbs s.rStrbTmp ((events wHandshake mid).map Prod.snd)
  data : s.rWriteState = .data →
    (s.rId = a.iSAwid ∧ s.rAddr = a.iSAwaddr ∧ s.rSize = a.iSAwsize ∧ s.rLen = a.iSAwlen) ∧
      (events wHandshake mid).length = s.rLenCnt.toNat ∧ s.rLenCnt.toNat ≤ s.rLen.toNat ∧
      events cReq mid = [] ∧ events bIds mid = []
  response : s.rWriteState = .response → Called a mid ∧ events bIds mid = [] ∧ s.rSBid = a.iSAwid
  idle : s.rWriteState = .idle → Called a mid ∧ events bIds mid = [a.iSAwid]

theorem progress_aw {s : State p} {i : Input p} (hr : i.iRstN = true) (hw : ReadyWf s)
    (ha : AwHandshake s i) : Progress i [] (step s i) := by
  rw [(step_aw hr hw ha).1]
  refine ⟨holdsWords_nil _, fun i h => absurd h (Nat.not_lt_zero i), fun _ => ?_, by simp, by simp⟩
  exact ⟨⟨rfl, rfl, rfl, rfl⟩, rfl, Nat.zero_le _, rfl, rfl⟩

/-- A cycle that hands nothing over changes nothing in what was handed over. -/
theorem Progress.quiet {a : Input p} {mid : Trace p} {s : State p} {i : Input p}
    (h : Progress a mid s) (hq : Quiet s i) : Progress a (mid ++ [(s, i)]) s := by
  have hwmid : events wHandshake (mid ++ [(s, i)]) = events wHandshake mid := by simp [hq.w]
  have hbmid : events bIds (mid ++ [(s, i)]) = events bIds mid := by simp [hq.b]
  have hcmid : events cReq (mid ++ [(s, i)]) = events cReq mid := by simp [hq.call]
  have hcalled : Called a mid → Called a (mid ++ [(s, i)]) := by
    rintro ⟨hbeats, hcall⟩
    exact ⟨by rw [hwmid]; exact hbeats, by rw [hwmid, hcmid]; exact hcall⟩
  obtain ⟨hwords, hstrbs, hdata, hresponse, hidle⟩ := h
  refine ⟨by rw [hwmid]; exact hwords, by rw [hwmid]; exact hstrbs, ?_, ?_, ?_⟩
  · rw [hwmid, hbmid, hcmid]
    exact hdata
  · rw [hbmid]
    exact fun hs => ⟨hcalled (hresponse hs).1, (hresponse hs).2⟩
  · rw [hbmid]
    exact fun hs => ⟨hcalled (hidle hs).1, (hidle hs).2⟩

/-- The words after one more beat. -/
theorem Progress.snoc {a : Input p} {mid : Trace p} {s : State p} {i : Input p}
    (h : Progress a mid s) (hcount : (events wHandshake mid).length = s.rLenCnt.toNat)
    (hbeat : wHandshake s i = [(i.iSWdata, i.iSWstrb)]) :
    HoldsWords (s.rDataTmp.copyIn (s.rLenCnt.toNat * p.stbw) i.iSWdata.lane p.stbw)
        ((events wHandshake (mid ++ [(s, i)])).map Prod.fst) ∧
      HoldsStrbs (setStrb s.rStrbTmp s.rLenCnt.toNat i.iSWstrb)
        ((events wHandshake (mid ++ [(s, i)])).map Prod.snd) ∧
      (events wHandshake (mid ++ [(s, i)])).length = s.rLenCnt.toNat + 1 := by
  have hmid : events wHandshake (mid ++ [(s, i)])
      = events wHandshake mid ++ [(i.iSWdata, i.iSWstrb)] := by
    simp [hbeat]
  have hwords := h.words.snoc i.iSWdata
  have hstrbs := h.strbs.snoc i.iSWstrb
  rw [List.length_map, hcount] at hwords hstrbs
  rw [hmid, List.map_append, List.map_append, List.length_append, hcount]
  exact ⟨hwords, hstrbs, rfl⟩

/-- **One cycle of a burst.** -/
theorem Progress.step {a : Input p} {mid : Trace p} {s : State p} {i : Input p}
    (h : Progress a mid s) (hr : i.iRstN = true) (hw : ReadyWf s) (hna : ¬AwHandshake s i) :
    Progress a (mid ++ [(s, i)]) (step s i) := by
  cases hs : s.rWriteState with
  | idle =>
    obtain ⟨hstep, hquiet⟩ := step_idle hr hw hs hna
    rw [hstep]
    exact h.quiet hquiet
  | data =>
    obtain ⟨⟨hid, haddr, hsize, hlen⟩, hcount, hle, hcalls, hbs⟩ := h.data hs
    cases hv : i.iSWvalid with
    | false =>
      obtain ⟨hstep, hquiet⟩ := step_gap hr hw hs hv
      rw [hstep]
      exact h.quiet hquiet
    | true =>
      by_cases heq : s.rLenCnt = s.rLen
      · -- the counter ends the burst, whatever `wlast` says
        obtain ⟨hstep, hbeat, hb, hcall⟩ := step_last hr hw hs hv heq
        obtain ⟨hwords, hstrbs, hlength⟩ := h.snoc hcount hbeat
        have hcalled : Called a (mid ++ [(s, i)]) := by
          refine ⟨by rw [hlength, heq, hlen], _, _, ?_, hwords, hstrbs⟩
          rw [events_append, hcalls, events_cons, hcall, haddr, hsize, hlen]
          rfl
        rw [hstep]
        exact ⟨hwords, hstrbs, by simp, fun _ => ⟨hcalled, by simp [hb, hbs], hid⟩, by simp⟩
      · obtain ⟨hstep, hbeat, hb, hcall⟩ := step_beat hr hw hs hv heq
        obtain ⟨hwords, hstrbs, hlength⟩ := h.snoc hcount hbeat
        obtain ⟨hcnt, hlt⟩ := toNat_succ_of_ne hle heq
        rw [hstep]
        refine ⟨hwords, hstrbs, fun _ => ⟨⟨hid, haddr, hsize, hlen⟩, ?_, ?_, ?_, ?_⟩,
          by simp [hs], by simp [hs]⟩
        · rw [hlength, hcnt]
        · rw [hcnt]
          exact hlt
        · simp [hcalls, hcall]
        · simp [hbs, hb]
  | response =>
    obtain ⟨hcalled, hbs, hbid⟩ := h.response hs
    obtain ⟨hstep, hbeat, hb, hcall⟩ := step_response hr hw hs
    cases hready : i.iSBready with
    | false =>
      rw [hready] at hb hstep
      rw [hstep]
      exact h.quiet ⟨hbeat, hb, hcall⟩
    | true =>
      -- the answer is taken; the beats and the call are those of before
      rw [hready] at hb hstep
      have hwmid : events wHandshake (mid ++ [(s, i)]) = events wHandshake mid := by simp [hbeat]
      have hcmid : events cReq (mid ++ [(s, i)]) = events cReq mid := by simp [hcall]
      have hcalled' : Called a (mid ++ [(s, i)]) := by
        obtain ⟨hbeats, hcalls⟩ := hcalled
        exact ⟨by rw [hwmid]; exact hbeats, by rw [hwmid, hcmid]; exact hcalls⟩
      rw [hstep, if_pos rfl]
      refine ⟨by rw [hwmid]; exact h.words, by rw [hwmid]; exact h.strbs, by simp, by simp,
        fun _ => ⟨hcalled', ?_⟩⟩
      simp [hbs, hb, hbid]

/-! ## Runs -/

theorem run_ready {s s' : State p} {tr : Trace p} (h : Run s tr s') (hw : ReadyWf s) :
    ReadyWf s' ∧ ∀ c ∈ tr, ReadyWf c.1 :=
  h.invariant hw fun _ _ ha hr => ha.of_step hr

/-- The cycles after an AW handshake, up to the next one. -/
theorem progress_run {a : Input p} {tr mid : Trace p} {s s' : State p} (h : Run s tr s')
    (hw : ReadyWf s) (hna : NoAw tr) (hp : Progress a mid s) : Progress a (mid ++ tr) s' := by
  induction tr generalizing s mid with
  | nil =>
    cases h.1
    rwa [List.append_nil]
  | cons c tr ih =>
    obtain ⟨rfl, hr, hrest⟩ := h.cons_inv
    have hend := ih hrest (hw.of_step hr) (fun d hd => hna d (List.mem_cons_of_mem _ hd))
      (hp.step hr hw (hna c List.mem_cons_self))
    rwa [List.append_assoc, List.singleton_append] at hend

/-- **A burst is in progress from the cycle of its AW handshake.** -/
theorem progress_of_aw {pre mid : Trace p} {a : State p × Input p} {s' : State p}
    (h : Run reset (pre ++ a :: mid) s') (ha : AwHandshake a.1 a.2) (hna : NoAw mid) :
    Progress a.2 mid s' := by
  obtain ⟨m, hpre, hrest⟩ := h.append_inv
  obtain ⟨rfl, hr, hmid⟩ := hrest.cons_inv
  have hw := (run_ready hpre readyWf_reset).1
  exact progress_run hmid (hw.of_step hr) hna (progress_aw hr hw ha)

/-- Without an address the module stays idle. -/
theorem quiet_of_noAw {mid : Trace p} {s s' : State p} (h : Run s mid s') (hw : ReadyWf s)
    (hs : s.rWriteState = .idle) (hna : NoAw mid) :
    events wHandshake mid = [] ∧ events cReq mid = [] ∧ events bIds mid = [] := by
  induction mid generalizing s with
  | nil => exact ⟨rfl, rfl, rfl⟩
  | cons c mid ih =>
    obtain ⟨rfl, hr, hrest⟩ := h.cons_inv
    obtain ⟨hstep, hquiet⟩ := step_idle hr hw hs (hna c List.mem_cons_self)
    rw [hstep] at hrest
    obtain ⟨h1, h2, h3⟩ := ih hrest hw hs fun d hd => hna d (List.mem_cons_of_mem _ hd)
    exact ⟨by simp [hquiet.w, h1], by simp [hquiet.call, h2], by simp [hquiet.b, h3]⟩

/-- The state after the cycles `mid` says how far the burst is. -/
theorem Progress.cases {a : Input p} {mid : Trace p} {s : State p} (h : Progress a mid s) :
    (s.rWriteState = .data ∧ Collected a mid) ∨
      (s.rWriteState = .response ∧ Called a mid ∧ events bIds mid = []) ∨
      (s.rWriteState = .idle ∧ Called a mid ∧ events bIds mid = [a.iSAwid]) := by
  cases hs : s.rWriteState with
  | data =>
    obtain ⟨⟨_, _, _, hlen⟩, hcount, hle, hcalls, hbs⟩ := h.data hs
    exact Or.inl ⟨rfl, by rw [hcount, ← hlen]; exact hle, hcalls, hbs⟩
  | response =>
    obtain ⟨hcalled, hbs, _⟩ := h.response hs
    exact Or.inr (Or.inl ⟨rfl, hcalled, hbs⟩)
  | idle => exact Or.inr (Or.inr ⟨rfl, h.idle hs⟩)

/-! ## The protocol -/

/--
**The write slave keeps the protocol in every run.** The beats and strobes of a call are in place
whenever they fit its buffers.
-/
theorem protocol_of_reset (is : List (Input p)) (hr : ∀ i ∈ is, i.iRstN = true) :
    Protocol (traceOf step reset is) := by
  have hrun : Run reset (traceOf step reset is) _ := ClockedRun.of_traceOf hr reset
  have hready := (run_ready hrun readyWf_reset).2
  refine ⟨hready, fun c hc hv hlow => ?_, fun mid post htr hna => ?_, ?_, ?_, ?_⟩
  · have hs := (hready c hc).b.mp hv
    rw [(step_response (hrun.2 c hc) (hready c hc) hs).1, hlow]
    exact ⟨hv, rfl⟩
  · rw [htr] at hrun
    obtain ⟨m, hfirst, _⟩ := hrun.append_inv
    exact quiet_of_noAw hfirst readyWf_reset rfl hna
  · intro pre a mid post htr ha hna
    rw [htr] at hrun
    obtain ⟨m, hfirst, _⟩ := hrun.append_inv
    rcases (progress_of_aw hfirst ha hna).cases with ⟨_, hc⟩ | ⟨_, hc, hb⟩ | ⟨_, hc, hb⟩
    · exact Or.inl hc
    · exact Or.inr ⟨hc, by rw [hb]; exact List.nil_prefix⟩
    · exact Or.inr ⟨hc, by rw [hb]⟩
  · intro pre a mid b post htr ha hna hbv
    rw [htr] at hrun
    obtain ⟨m, hfirst, hlast⟩ := hrun.append_inv
    have hs : m.rWriteState = .response := by
      rw [← hlast.cons_inv.1]
      exact (hready b (by rw [htr]; simp)).b.mp hbv
    rcases (progress_of_aw hfirst ha hna).cases with ⟨hd, _⟩ | ⟨_, hc, _⟩ | ⟨hi, _⟩
    · exact absurd (hs.symm.trans hd) (by simp)
    · exact hc
    · exact absurd (hs.symm.trans hi) (by simp)
  · rintro pre a mid b post htr ha hna ⟨_, hawready⟩
    rw [htr] at hrun
    obtain ⟨m, hfirst, hlast⟩ := hrun.append_inv
    have hs : m.rWriteState = .idle := by
      rw [← hlast.cons_inv.1]
      exact (hready b (by rw [htr]; simp)).aw.mp hawready
    rcases (progress_of_aw hfirst ha hna).cases with ⟨hd, _⟩ | ⟨hresp, _⟩ | ⟨_, hc, hb⟩
    · exact absurd (hs.symm.trans hd) (by simp)
    · exact absurd (hs.symm.trans hresp) (by simp)
    · exact ⟨hc, hb⟩

/-! ## A burst whose data is early -/

/-- A cycle in which the master offers a word, and perhaps the address of a burst of one beat. -/
def earlyCycle (awvalid bready : Bool) : Input bus64 where
  iRstN := true
  iSAwid := 5
  iSAwaddr := 0x1000
  iSAwlen := 0
  iSAwsize := 3
  iSAwvalid := awvalid
  iSWdata := fun _ => 0xA5
  iSWstrb := 0xFF
  iSWvalid := true
  iSBready := bready

theorem protocol_earlyRun : Protocol (traceOf step reset
    [earlyCycle false false, earlyCycle true false, earlyCycle false false, earlyCycle false false,
      earlyCycle false true]) := protocol_of_reset _ (by decide)

end QemuHdlSim.Axi4SW
