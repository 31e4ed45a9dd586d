import QemuHdlSim.Bridge.MasterRead
import QemuHdlSim.Infra.Path

/-!
# The read master keeps the protocol of its two channels

A run is any sequence of cycles after reset. The slave on the other side is `Compliant`: it sends
beats only for addresses it has taken, `len + 1` for each, with `rlast` on the last one. What it
still has to send is an account that every handshake moves.

* `Balanced.step` — a compliant beat finds the module waiting for just that beat
* `Progress.step` — where the module is with a request, cycle by cycle
* `protocol_of_compliant` — the protocol is kept, whatever the times of `arready` and of the beats
-/

namespace QemuHdlSim.Axi4MR

open Infra

variable {p : BusParams}

/-- The cycles of a run. -/
abbrev Trace (p : BusParams) := List (State × Input p)

/-- A run of the module out of reset. -/
abbrev Run (s : State) (tr : Trace p) (s' : State) : Prop :=
  ClockedRun step (fun i => i.iRstN = true) s tr s'

/-- The module is busy with a request in every step of `tr`. -/
def Busy (tr : Trace p) : Prop := ∀ c ∈ tr, c.1.rReadState = .data

/-! ## The slave -/

/-- The lengths of the reads whose address was taken, and the beats of the first one so far. -/
structure Account where
  owed : List (BitVec 8)
  beats : Nat

/-- A beat is the next one of the first read, and `rlast` says whether it is the last. -/
def Account.Allows (a : Account) (i : Input p) : Prop :=
  i.iMRvalid = true → ∃ len, a.owed.head? = some len ∧ (i.iMRlast = true ↔ a.beats = len.toNat)

/-- The account after the handshakes of a cycle. -/
def Account.next (a : Account) (s : State) (i : Input p) : Account :=
  let a := if rHandshake s i = [] then a
    else if i.iMRlast then ⟨a.owed.tail, 0⟩ else ⟨a.owed, a.beats + 1⟩
  ⟨a.owed ++ (arHandshake s i).map ArReq.arlen, a.beats⟩

/-- The slave sends what it owes and nothing else. -/
def Compliant (a : Account) : Trace p → Prop
  | [] => True
  | c :: tr => a.Allows c.2 ∧ Compliant (a.next c.1 c.2) tr

/-- The account is what the registers say. -/
structure Balanced (a : Account) (s : State) : Prop where
  idle : s.rReadState = .idle → a.owed = [] ∧ a.beats = 0
  data : s.rReadState = .data →
    (s.rMArvalid = true ∧ a.owed = [] ∧ a.beats = 0 ∧ s.rLenCnt.toNat = 0) ∨
      (s.rMArvalid = false ∧ a.owed = [s.rLen] ∧ a.beats = s.rLenCnt.toNat)

theorem balanced_reset : Balanced ⟨[], 0⟩ reset := ⟨fun _ => ⟨rfl, rfl⟩, by simp [reset]⟩

/-- While nothing is owed there is no beat. -/
theorem Account.Allows.low {a : Account} {i : Input p} (h : a.Allows i) (hnil : a.owed = []) :
    i.iMRvalid = false := by
  cases hv : i.iMRvalid with
  | false => rfl
  | true =>
    obtain ⟨len, hhead, _⟩ := h hv
    rw [hnil] at hhead
    exact absurd hhead (by simp)

/-- The account after a cycle without a beat. -/
theorem Account.next_of_low (a : Account) {s : State} {i : Input p} (hv : i.iMRvalid = false) :
    a.next s i = ⟨a.owed ++ (arHandshake s i).map ArReq.arlen, a.beats⟩ := by
  unfold next
  rw [if_pos (by simp [rHandshake, hv])]

/-- **One step of the account.** -/
theorem Balanced.step {a : Account} {s : State} {i : Input p} (h : Balanced a s)
    (hr : i.iRstN = true) (hw : Wf s) (hc : a.Allows i) :
    InTime s i ∧ Balanced (a.next s i) (step s i) := by
  cases hst : s.rReadState with
  | idle =>
    obtain ⟨howed, hbeats⟩ := h.idle hst
    have hv := hc.low howed
    have har : arHandshake s i = [] := by simp [arHandshake, hw.idle hst]
    refine ⟨fun hv' => absurd hv' (by simp [hv]), ?_⟩
    rw [a.next_of_low hv, har, howed, hbeats]
    simp only [Axi4MR.step, hr, if_true, comboRead, hst]
    cases hq : i.reqValid with
    | false => exact ⟨fun _ => ⟨rfl, rfl⟩, by simp [hst]⟩
    | true => exact ⟨by simp, fun _ => Or.inl ⟨rfl, rfl, rfl, rfl⟩⟩
  | data =>
    rcases h.data hst with ⟨harv, howed, hbeats, hcnt⟩ | ⟨harv, howed, hbeats⟩
    · -- the address is still shown
      have hv := hc.low howed
      refine ⟨fun hv' => absurd hv' (by simp [hv]), ?_⟩
      rw [a.next_of_low hv, (step_wait hr hst hv).1, howed, hbeats]
      refine ⟨by simp [hst], fun _ => ?_⟩
      cases hready : i.iMArready with
      | false => exact Or.inl ⟨by simp [harv], by simp [arHandshake, hready], rfl, hcnt⟩
      | true =>
        exact Or.inr ⟨by simp, by simp [arHandshake, harv, hready, State.arShown], hcnt.symm⟩
    · -- it was taken, and one burst is owed
      have har : arHandshake s i = [] := by simp [arHandshake, harv]
      obtain ⟨hready, hle⟩ := hw.data hst
      cases hv : i.iMRvalid with
      | false =>
        refine ⟨fun hv' => absurd hv' (by simp [hv]), ?_⟩
        rw [a.next_of_low hv, (step_wait hr hst hv).1, har, howed, hbeats]
        exact ⟨by simp [hst], fun _ => Or.inr ⟨by simp [harv], rfl, rfl⟩⟩
      | true =>
        obtain ⟨len, hhead, hlast⟩ := hc hv
        rw [howed] at hhead
        cases hhead
        have hiff : i.iMRlast = true ↔ s.rLenCnt = s.rLen := by
          rw [hlast, hbeats, BitVec.toNat_inj]
        refine ⟨fun _ => ⟨hst, harv, hiff⟩, ?_⟩
        unfold Account.next
        rw [har]
        cases hl : i.iMRlast with
        | false =>
          have hne : s.rLenCnt ≠ s.rLen := fun heq => absurd (hiff.mpr heq) (by simp [hl])
          obtain ⟨hstep, _, hbeat⟩ := step_beat hr hw hst harv hv hl
          rw [hstep, hbeat, if_neg (by simp), if_neg (by simp), howed, hbeats]
          refine ⟨by simp [hst], fun _ => Or.inr ⟨harv, rfl, ?_⟩⟩
          exact (toNat_succ_of_ne hle hne).1.symm
        | true =>
          obtain ⟨hstep, _, hbeat⟩ := step_last hr hw hst harv hv hl
          rw [hstep, hbeat, if_neg (by simp), if_pos rfl, howed]
          exact ⟨fun _ => ⟨rfl, rfl⟩, by simp⟩

/-- A compliant slave is in time. -/
theorem inTime_of_compliant {s s' : State} {tr : Trace p} (h : Run s tr s') (hw : Wf s)
    {a : Account} (hbal : Balanced a s) (hc : Compliant a tr) :
    ∀ c ∈ tr, Wf c.1 ∧ InTime c.1 c.2 := by
  induction tr generalizing s a with
  | nil => exact fun c hc => absurd hc List.not_mem_nil
  | cons c tr ih =>
    obtain ⟨rfl, hr, hrest⟩ := h.cons_inv
    obtain ⟨hallows, hctr⟩ := hc
    obtain ⟨hin, hbal'⟩ := hbal.step hr hw hallows
    intro d hd
    rcases List.mem_cons.mp hd with rfl | hd
    · exact ⟨hw, hin⟩
    · exact ih hrest (Wf.of_step hr hw hin) hbal' hctr d hd

/-! ## One request -/

/-- Where the module is with the request of `a`, when it was busy with it for the cycles `mid`. -/
structure Progress (a : Input p) (mid : Trace p) (s : State) : Prop where
  shown : s.arShown = ⟨a.reqAddr, a.reqLen, a.reqSize⟩
  ar : events arHandshake mid
    = if s.rMArvalid then [] else [⟨a.reqAddr, a.reqLen, a.reqSize⟩]
  words : HoldsWords s.rDataTmp (events rHandshake mid)
  waiting : s.rReadState = .data →
    (events rHandshake mid).length = s.rLenCnt.toNat ∧ events cReq mid = []
  answered : s.rReadState = .idle → s.rMArvalid = false ∧
    (events rHandshake mid).length = a.reqLen.toNat + 1 ∧
    events cReq mid = [⟨a.reqAddr, s.rDataTmp⟩]

theorem progress_accepts {s : State} {i : Input p} (h : Accepts s i) :
    Progress i [] (step s i) := by
  obtain ⟨hr, hs, hq⟩ := h
  have hstep : step s i = { s with
      rReadState := .data
      rMArvalid := true
      rMRready := true
      rLenCnt := 0
      rAddr := i.reqAddr
      rSize := i.reqSize
      rLen := i.reqLen } := by
    simp [step, hr, comboRead, hs, hq]
  rw [hstep]
  exact ⟨rfl, rfl, holdsWords_nil _, fun _ => ⟨rfl, rfl⟩, by simp⟩

/-- **One cycle of a request.** -/
theorem Progress.step {a : Input p} {mid : Trace p} {s : State} {i : Input p}
    (h : Progress a mid s) (hr : i.iRstN = true) (hw : Wf s) (hin : InTime s i)
    (hs : s.rReadState = .data) : Progress a (mid ++ [(s, i)]) (step s i) := by
  obtain ⟨hcount, hcalls⟩ := h.waiting hs
  have hshown := h.shown
  cases hv : i.iMRvalid with
  | false =>
    obtain ⟨hstep, hcall, hbeat⟩ := step_wait hr hs hv
    have hr' : events rHandshake (mid ++ [(s, i)]) = events rHandshake mid := by simp [hbeat]
    have hc' : events cReq (mid ++ [(s, i)]) = [] := by simp [hcall, hcalls]
    refine ⟨by rw [hstep]; exact hshown, ?_, ?_, fun _ => ?_, by rw [hstep]; simp [hs]⟩
    · -- the address leaves in the cycle in which it is taken
      rw [events_append, h.ar, hstep]
      cases harv : s.rMArvalid with
      | false => simp [arHandshake, harv]
      | true =>
        cases hready : i.iMArready with
        | false => simp [arHandshake, hready]
        | true => simp [arHandshake, harv, hready, hshown]
    · rw [hr', hstep]
      exact h.words
    · rw [hr', hc', hstep]
      exact ⟨hcount, rfl⟩
  | true =>
    obtain ⟨_, harv, hlast⟩ := hin hv
    obtain ⟨_, hle⟩ := hw.data hs
    have har : events arHandshake (mid ++ [(s, i)]) = [⟨a.reqAddr, a.reqLen, a.reqSize⟩] := by
      simp [h.ar, arHandshake, harv]
    have hwords := h.words.snoc i.iMRdata
    rw [hcount] at hwords
    cases hl : i.iMRlast with
    | false =>
      obtain ⟨hstep, hcall, hbeat⟩ := step_beat hr hw hs harv hv hl
      have hne : s.rLenCnt ≠ s.rLen := fun heq => absurd (hlast.mpr heq) (by simp [hl])
      refine ⟨by rw [hstep]; exact hshown, by rw [har, hstep]; simp [harv], ?_, fun _ => ⟨?_, ?_⟩,
        by rw [hstep]; simp [hs]⟩
      · rw [events_append, hstep, events_cons, hbeat]
        exact hwords
      · rw [events_append, events_cons, hbeat, hstep, (toNat_succ_of_ne hle hne).1, ← hcount]
        simp
      · simp [hcalls, hcall]
    | true =>
      -- the response is sent in this very cycle, with the last beat in its buffer
      obtain ⟨hstep, hcall, hbeat⟩ := step_last hr hw hs harv hv hl
      have hcnt : s.rLenCnt = s.rLen := hlast.mp hl
      have hlen : s.rLen = a.reqLen := congrArg ArReq.arlen hshown
      have haddr : s.rAddr = a.reqAddr := congrArg ArReq.araddr hshown
      refine ⟨by rw [hstep]; exact hshown, by rw [har, hstep]; simp [harv], ?_,
        by rw [hstep]; simp, fun _ => ⟨by rw [hstep]; exact harv, ?_, ?_⟩⟩
      · rw [events_append, hstep, events_cons, hbeat]
        exact hwords
      · rw [events_append, events_cons, hbeat, List.length_append, hcount, hcnt, hlen]
        rfl
      · rw [events_append, events_cons, hcalls, hcall, hstep, haddr]
        rfl

/-- The cycles in which the module is busy with a request. -/
theorem progress_run {a : Input p} {tr mid : Trace p} {s s' : State} (h : Run s tr s')
    (hin : ∀ c ∈ tr, Wf c.1 ∧ InTime c.1 c.2) (hbusy : Busy tr) (hp : Progress a mid s) :
    Progress a (mid ++ tr) s' := by
  induction tr generalizing s mid with
  | nil =>
    cases h.1
    rwa [List.append_nil]
  | cons c tr ih =>
    obtain ⟨rfl, hr, hrest⟩ := h.cons_inv
    obtain ⟨hw, hinc⟩ := hin c List.mem_cons_self
    have hnext := hp.step hr hw hinc (hbusy c List.mem_cons_self)
    have hend := ih hrest (fun d hd => hin d (List.mem_cons_of_mem _ hd))
      (fun d hd => hbusy d (List.mem_cons_of_mem _ hd)) hnext
    rwa [List.append_assoc, List.singleton_append] at hend

/-! ## The protocol -/

/-- The request of `a` was answered in the cycles `mid`. -/
structure Answered (a : Input p) (mid : Trace p) : Prop where
  /-- One AR handshake, with the request. -/
  ar : events arHandshake mid = [⟨a.reqAddr, a.reqLen, a.reqSize⟩]
  beats : (events rHandshake mid).length = a.reqLen.toNat + 1
  /-- One call, with the address of the request and all the beats in place. -/
  call : ∃ d, events cReq mid = [⟨a.reqAddr, d⟩] ∧ HoldsWords d (events rHandshake mid)

/-- It was not yet: the address is shown until it is taken, and a beat is waited for. -/
structure Pending (a : Input p) (mid : Trace p) (s : State) : Prop where
  ar : events arHandshake mid = if s.rMArvalid then [] else [⟨a.reqAddr, a.reqLen, a.reqSize⟩]
  shown : s.arShown = ⟨a.reqAddr, a.reqLen, a.reqSize⟩
  rready : s.rMRready = true
  beats : (events rHandshake mid).length ≤ a.reqLen.toNat
  call : events cReq mid = []

/-- What the slave and the guest rely on in a run. -/
structure Protocol (tr : Trace p) : Prop where
  /-- An address that is not taken stays. -/
  stableAr : ∀ c ∈ tr, c.1.rMArvalid = true → c.2.iMArready = false →
    (step c.1 c.2).rMArvalid = true ∧ (step c.1 c.2).arShown = c.1.arShown
  /-- Every beat offered is taken. -/
  taken : ∀ c ∈ tr, c.2.iMRvalid = true → rHandshake c.1 c.2 = [c.2.iMRdata]
  /-- Nothing is shown and no call is made while the module is idle. -/
  quiet : ∀ c ∈ tr, c.1.rReadState = .idle → c.1.rMArvalid = false ∧ cReq c.1 c.2 = []
  /-- A request that was accepted waits for its beats, or is answered and the module idle. -/
  served : ∀ pre a mid post, tr = pre ++ a :: mid ++ post → Accepts a.1 a.2 → Busy mid →
    ((stateAfter step a mid).rReadState = .data ∧ Pending a.2 mid (stateAfter step a mid)) ∨
      ((stateAfter step a mid).rReadState = .idle ∧ Answered a.2 mid)
  /-- When the module is idle again it is answered. -/
  answered : ∀ pre a mid b post, tr = pre ++ a :: mid ++ b :: post → Accepts a.1 a.2 → Busy mid →
    b.1.rReadState = .idle → Answered a.2 mid

/-- The state after the cycles `mid` says how far the request is. -/
theorem Progress.cases {a : Input p} {mid : Trace p} {s : State} (h : Progress a mid s)
    (hw : Wf s) :
    (s.rReadState = .data ∧ Pending a mid s) ∨ (s.rReadState = .idle ∧ Answered a mid) := by
  cases hst : s.rReadState with
  | data =>
    obtain ⟨hcount, hcalls⟩ := h.waiting hst
    have hlen : s.rLen = a.reqLen := congrArg ArReq.arlen h.shown
    obtain ⟨hready, hle⟩ := hw.data hst
    exact Or.inl ⟨rfl, h.ar, h.shown, hready, by rw [hcount, ← hlen]; exact hle, hcalls⟩
  | idle =>
    obtain ⟨harv, hcount, hcall⟩ := h.answered hst
    refine Or.inr ⟨rfl, ?_, hcount, _, hcall, h.words⟩
    rw [h.ar, if_neg (by simp [harv])]

/-- **Every request is in progress from the cycle that accepts it.** -/
theorem progress_of_accepts {pre mid : Trace p} {a : State × Input p} {s' : State}
    (h : Run reset (pre ++ a :: mid) s') (hin : ∀ c ∈ pre ++ a :: mid, Wf c.1 ∧ InTime c.1 c.2)
    (ha : Accepts a.1 a.2) (hbusy : Busy mid) : Progress a.2 mid s' ∧ Wf s' := by
  have hw : Wf s' := h.1.invariant (P := fun s i => i.iRstN = true ∧ InTime s i) wf_reset
    (fun c hc => ⟨h.2 c hc, (hin c hc).2⟩)
    (fun s i _ hs hi hstep => hstep ▸ Wf.of_step hi.1 hs hi.2)
  obtain ⟨m, _, hrest⟩ := h.append_inv
  obtain ⟨rfl, _, hmid⟩ := hrest.cons_inv
  have hmem : ∀ {c}, c ∈ mid → c ∈ pre ++ a :: mid :=
    fun hc => List.mem_append_right _ (List.mem_cons_of_mem _ hc)
  exact ⟨progress_run hmid (fun c hc => hin c (hmem hc)) hbusy (progress_accepts ha), hw⟩

/--
**The read master keeps the protocol in every run in which the slave is compliant.** The words of a
call are in place whenever they fit the buffer.
-/
theorem protocol_of_compliant (is : List (Input p)) (hr : ∀ i ∈ is, i.iRstN = true)
    (hc : Compliant ⟨[], 0⟩ (traceOf step reset is)) : Protocol (traceOf step reset is) := by
  have hrun : Run reset (traceOf step reset is) _ := ClockedRun.of_traceOf hr reset
  have hin := inTime_of_compliant hrun wf_reset balanced_reset hc
  refine ⟨fun c hc harv hlow => ?_, fun c hc hv => ?_, fun c hc hidle => ?_, ?_, ?_⟩
  · obtain ⟨hw, hinc⟩ := hin c hc
    have hdata : c.1.rReadState = .data := by
      cases hst : c.1.rReadState with
      | data => rfl
      | idle => exact absurd harv (by simp [hw.idle hst])
    have hv : c.2.iMRvalid = false := by
      cases hv : c.2.iMRvalid with
      | false => rfl
      | true => exact absurd harv (by simp [(hinc hv).2.1])
    rw [(step_wait (hrun.2 c hc) hdata hv).1, hlow]
    exact ⟨harv, rfl⟩
  · obtain ⟨hw, hinc⟩ := hin c hc
    exact if_pos ⟨hv, (hw.data (hinc hv).1).1⟩
  · exact ⟨(hin c hc).1.idle hidle, if_neg (by simp [hidle])⟩
  · intro pre a mid post htr ha hbusy
    rw [htr] at hrun hin
    obtain ⟨m, hfirst, _⟩ := hrun.append_inv
    obtain ⟨hp, hw⟩ :=
      progress_of_accepts hfirst (fun c hc => hin c (List.mem_append_left _ hc)) ha hbusy
    rw [hfirst.stateAfter_eq]
    exact hp.cases hw
  · intro pre a mid b post htr ha hbusy hidle
    rw [htr] at hrun hin
    obtain ⟨m, hfirst, hlast⟩ := hrun.append_inv
    obtain ⟨hp, hw⟩ :=
      progress_of_accepts hfirst (fun c hc => hin c (List.mem_append_left _ hc)) ha hbusy
    rcases hp.cases hw with ⟨hdata, _⟩ | ⟨_, hanswered⟩
    · rw [hlast.cons_inv.1, hdata] at hidle
      exact absurd hidle (by simp)
    · exact hanswered

/-! ## A read of two beats -/

/-- One cycle of a slave that always takes addresses, while two words are read from `0x1000`. -/
def twoBeatCycle (reqValid rvalid rlast : Bool) : Input bus64 where
  iRstN := true
  reqAddr := 0x1000
  reqLen := 1
  reqSize := 3
  reqValid := reqValid
  iMArready := true
  iMRdata := fun _ => 0x5A
  iMRlast := rlast
  iMRvalid := rvalid

/-- The request, the address, the two beats with a gap between them, and an idle cycle. -/
def twoBeatRun : List (Input bus64) :=
  [twoBeatCycle true false false, twoBeatCycle false false false, twoBeatCycle false true false,
    twoBeatCycle false false false, twoBeatCycle false true true, twoBeatCycle false false false]

theorem protocol_twoBeatRun : Protocol (traceOf step reset twoBeatRun) := by
  refine protocol_of_compliant twoBeatRun (by decide) ?_
  refine ⟨?_, ?_, ?_, ?_, ?_, ?_, trivial⟩
  · exact fun h => absurd h (by decide)
  · exact fun h => absurd h (by decide)
  · exact fun _ => ⟨1, by decide, by decide⟩
  · exact fun h => absurd h (by decide)
  · exact fun _ => ⟨1, by decide, by decide⟩
  · exact fun h => absurd h (by decide)

end QemuHdlSim.Axi4MR
