import QemuHdlSim.Bridge.Ip
import QemuHdlSim.Infra.Path

/-!
# When a polled MMIO request is taken

`C_poll` takes a request off `qemu_req` on any edge and turns it into a pulse of one cycle.
With at most one access outstanding and a slave that is always ready, the module the pulse goes
to is idle when it comes (`account_step`): the request before it was answered, and a module
answers when it goes back to idle.

That leaves the reset. `C_poll` runs in reset too, and a pulse that meets a module in reset is
gone, and with it the request:

* `noLoss_iff` — every request polled in a run is taken, with its address, length, size,
  strobes and data, exactly when none is polled on the first 99 edges
-/

namespace QemuHdlSim.Axi4Ip

open Infra

variable {p : BusParams}

/-- A run: the edges, each with the state before it. -/
abbrev Trace (p : BusParams) := List (State p × Cycle p)

/-- A run of the IP. -/
abbrev Run (conf : ACCConf) (s : State p) (tr : Trace p) (s' : State p) : Prop :=
  Path (fun a c b => clock conf a c = some b) s tr s'

/-- The request `C_poll` takes on this edge, if it takes one. -/
def Cycle.request (c : Cycle p) : Option ACCData :=
  match c.sock with
  | .qemuReq f => some f
  | _ => none

/-- How many requests `C_poll` takes on this edge. -/
def Cycle.takes (c : Cycle p) : Nat := if c.request.isSome then 1 else 0

/-- How many responses are sent on this edge. -/
def responses (s : State p) (c : Cycle p) : Nat :=
  (respReadCalls s c.inp).length + (respWriteCalls s c.inp).length

/--
QEMU makes one access at a time: a request comes only when those before it were answered, at the
latest on the same edge. `n` counts the unanswered ones.
-/
def OneOutstanding (n : Nat) : Trace p → Prop
  | [] => True
  | c :: tr => (c.2.takes = 1 → n ≤ responses c.1 c.2) ∧
      OneOutstanding (n + c.2.takes - responses c.1 c.2) tr

/-- The slave takes every address and every beat at once. -/
def AlwaysReady (i : Input p) : Prop :=
  i.iMArready = true ∧ i.iMAwready = true ∧ i.iMWready = true

/-- The run as the write master sees it. -/
def mwTrace (tr : Trace p) : Axi4MW.Trace p := tr.map fun c => (c.1.mw, mwInput c.1 c.2.inp)

/-- What QEMU and the slave do in a run. -/
structure Environment (tr : Trace p) : Prop where
  one : OneOutstanding 0 tr
  ready : ∀ c ∈ tr, AlwaysReady c.2.inp
  compliant : Axi4MW.Compliant 0 0 0 (mwTrace tr)

/-! ## Taking a request -/

/--
The state after `f` was polled: the pulse goes to the module `f` is for and to no other, finds
it out of reset and idle, and makes it leave idle with the request in its registers.
-/
structure Taken (f : ACCData) (s : State p) : Prop where
  read : f.op = .read →
    s.reqMRvalid = true ∧ s.reqMWvalid = false ∧ s.aresetn = true ∧ s.mr.rReadState = .idle ∧
    ∀ i v, let r := (next s i v).mr
      r.rReadState = .data ∧ r.rAddr = s.vars.addr ∧ r.rLen = s.vars.len.setWidth 8 ∧
        r.rSize = s.vars.size.setWidth 3
  write : f.op ≠ .read →
    s.reqMWvalid = true ∧ s.reqMRvalid = false ∧ s.aresetn = true ∧ s.mw.rWriteState = .idle ∧
    ∀ i v, let r := (next s i v).mw
      r.rWriteState = .data ∧ r.rAddr = s.vars.addr ∧ r.rLen = s.vars.len.setWidth 8 ∧
        r.rSize = s.vars.size.setWidth 3 ∧ r.rStrb = s.vars.strb.setWidth p.stbw ∧
        r.rData = s.vars.data

/-- A pulse finds the module it goes to out of reset and idle. -/
structure PulseMet (s : State p) : Prop where
  read : s.reqMRvalid = true → s.aresetn = true ∧ s.mr.rReadState = .idle
  write : s.reqMWvalid = true → s.aresetn = true ∧ s.mw.rWriteState = .idle

/-- No request of the run is lost. -/
def NoLoss (conf : ACCConf) (tr : Trace p) : Prop :=
  ∀ c ∈ tr, PulseMet c.1 ∧
    ∀ f, c.2.request = some f → ∀ s', clock conf c.1 c.2 = some s' → Taken f s'

/-- No request is polled on the first 99 edges. -/
def LateRequests (tr : Trace p) : Prop :=
  ∀ c ∈ tr, ∀ f, c.2.request = some f → 99 ≤ c.1.edges

/-! ## The requests on their way -/

/-- The requests the read master is busy with. -/
def mrBusy (s : Axi4MR.State) : Nat := (decide (s.rReadState ≠ .idle)).toNat

/-- The requests the write master is busy with. -/
def mwBusy (s : Axi4MW.State p) : Nat := (decide (s.rWriteState ≠ .idle)).toNat

/-- The requests that were polled and not answered: pulses and busy modules. -/
def pending (s : State p) : Nat :=
  s.reqMRvalid.toNat + s.reqMWvalid.toNat + (mrBusy s.mr + mwBusy s.mw)

theorem mrBusy_eq_zero {s : Axi4MR.State} : mrBusy s = 0 ↔ s.rReadState = .idle := by
  unfold mrBusy
  by_cases h : s.rReadState = .idle <;> simp [h]

theorem mwBusy_eq_zero {s : Axi4MW.State p} : mwBusy s = 0 ↔ s.rWriteState = .idle := by
  unfold mwBusy
  by_cases h : s.rWriteState = .idle <;> simp [h]

theorem toNat_eq_one {b : Bool} (h : b = true) : b.toNat = 1 := by
  rw [h]
  rfl

theorem toNat_eq_zero {b : Bool} (h : b.toNat = 0) : b = false := by
  cases b with
  | false => rfl
  | true => exact absurd h (by simp)

/-- The state agrees with the accounts of QEMU (`n`) and of the slave (`aw`, `w` and `b`). -/
structure Account (n aw w b : Nat) (s : State p) : Prop where
  pending : pending s = n
  le_one : n ≤ 1
  wf : Axi4MW.Wf s.mw
  balanced : ∃ k, Axi4MW.Balanced k aw w b s.mw
  inReset : s.edges < 100 → s.mr.rReadState = .idle ∧ s.mw = Axi4MW.reset ∧
    s.reqMRvalid = false ∧ s.reqMWvalid = false

theorem account_init : Account (p := p) 0 0 0 0 init where
  pending := rfl
  le_one := Nat.zero_le _
  wf := Axi4MW.wf_reset
  balanced := ⟨0, Axi4MW.balanced_reset⟩
  inReset _ := ⟨rfl, rfl, rfl, rfl⟩

/-- The pulses of the next cycle. -/
theorem pulses_next {conf : ACCConf} {s : State p} {c : Cycle p} {v : PollVars}
    {r : Option ACCConf} (h : cPoll p.stbw conf c.sock s.vars = some (v, r)) :
    (∀ f, c.request = some f → (next s c.inp v).reqMRvalid = decide (f.op = .read) ∧
        (next s c.inp v).reqMWvalid = decide (f.op ≠ .read)) ∧
      (c.request = none → (next s c.inp v).reqMRvalid = false ∧
        (next s c.inp v).reqMWvalid = false) := by
  have htype := cPoll_reqType h
  obtain ⟨sock, inp⟩ := c
  cases sock with
  | none => simp [next, Cycle.request, htype]
  | initsock => simp [next, Cycle.request, htype]
  | hdlResp f => simp [next, Cycle.request, htype]
  | qemuReq f => by_cases hop : f.op = .read <;> simp [next, Cycle.request, htype, hop]

theorem Cycle.takes_le_one (c : Cycle p) : c.takes ≤ 1 := by
  unfold takes
  split <;> omega

theorem Cycle.takes_eq_one {c : Cycle p} : c.takes = 1 ↔ ∃ f, c.request = some f := by
  unfold takes
  cases c.request <;> simp

theorem pulseCount_next {conf : ACCConf} {s : State p} {c : Cycle p} {v : PollVars}
    {r : Option ACCConf} (h : cPoll p.stbw conf c.sock s.vars = some (v, r)) :
    (next s c.inp v).reqMRvalid.toNat + (next s c.inp v).reqMWvalid.toNat = c.takes := by
  obtain ⟨hsome, hnone⟩ := pulses_next h
  unfold Cycle.takes
  cases hreq : c.request with
  | none =>
    obtain ⟨h1, h2⟩ := hnone hreq
    rw [h1, h2]
    rfl
  | some f =>
    obtain ⟨h1, h2⟩ := hsome f hreq
    rw [h1, h2]
    by_cases hop : f.op = .read <;> simp [hop]

/-- What the read master still has to answer after an edge. -/
theorem mrBusy_step {s : Axi4MR.State} {i : Axi4MR.Input p} (hr : i.iRstN = true)
    (hone : i.reqValid = true → s.rReadState = .idle) :
    mrBusy (Axi4MR.step s i) + (Axi4MR.cReq s i).length = i.reqValid.toNat + mrBusy s := by
  simp only [mrBusy, ne_eq, Axi4MR.step_idle_iff hr]
  cases hst : s.rReadState with
  | idle => cases hq : i.reqValid <;> simp [Axi4MR.Finishes, Axi4MR.cReq, hst]
  | data =>
    have hq : i.reqValid = false := by
      rw [← Bool.not_eq_true]
      intro hq
      rw [hst] at hone
      exact absurd (hone hq) (by simp)
    by_cases hf : Axi4MR.Finishes s i
    · rw [Axi4MR.cReq_of_finishes hf]
      simp [hf, hq]
    · rw [Axi4MR.cReq_of_not_finishes hf]
      simp [hf, hq]

/-- What the write master still has to answer after an edge. -/
theorem mwBusy_step {s : Axi4MW.State p} {i : Axi4MW.Input p} (hr : i.iRstN = true)
    (hin : i.iMBvalid = true → s.rWriteState = .response)
    (hone : i.reqValid = true → s.rWriteState = .idle) :
    mwBusy (Axi4MW.step s i) + (Axi4MW.cResp s i).length = i.reqValid.toNat + mwBusy s := by
  have hlaw := congrArg List.length (Axi4MW.b_law hr hin)
  rw [List.length_append, List.length_append] at hlaw
  have howed : ∀ t : Axi4MW.State p, (Axi4MW.owedB t).length = mwBusy t := by
    intro t
    unfold Axi4MW.owedB mwBusy
    by_cases ht : t.rWriteState = .idle <;> simp [ht]
  have hcredit : (Axi4MW.creditB s i).length = i.reqValid.toNat := by
    unfold Axi4MW.creditB
    cases hq : i.reqValid with
    | false =>
      have hna : ¬Axi4MW.Accepts s i := by
        rintro ⟨_, hq'⟩
        rw [hq] at hq'
        exact absurd hq' (by simp)
      rw [if_neg hna]
      rfl
    | true =>
      rw [if_pos ⟨hone hq, hq⟩]
      rfl
  rw [howed, howed, hcredit] at hlaw
  omega

/-- An edge in reset: nothing is on its way, and the slave has nothing to answer. -/
theorem account_reset {conf : ACCConf} {n aw w b : Nat} {s s' : State p} {c : Cycle p}
    (h : Account n aw w b s) (hclock : clock conf s c = some s') (hreset : s.edges < 100)
    (hb : c.inp.iMBvalid = true → b < aw ∧ b < w) (hlate : c.takes = 1 → 99 ≤ s.edges) :
    Account (n + c.takes - responses s c)
      (aw + (Axi4MW.awHandshake s.mw (mwInput s c.inp)).length)
      (w + Axi4MW.lasts (Axi4MW.wHandshake s.mw (mwInput s c.inp)))
      (b + (Axi4MW.cResp s.mw (mwInput s c.inp)).length) s' := by
  obtain ⟨v, r, hpoll, rfl⟩ := clock_eq_some hclock
  have hcount := pulseCount_next hpoll
  have htakes := c.takes_le_one
  obtain ⟨k, hbal⟩ := h.balanced
  obtain ⟨hmr, hmw, hpr, hpw⟩ := h.inReset hreset
  have hnb : c.inp.iMBvalid = false := by
    rw [← Bool.not_eq_true]
    intro hbv
    have hresp := hbal.response h.wf (hb hbv)
    rw [hmw] at hresp
    exact absurd hresp (by simp [Axi4MW.reset])
  have hpend : n = 0 := by
    rw [← h.pending]
    simp [pending, mrBusy, mwBusy, hmr, hmw, hpr, hpw, Axi4MW.reset]
  have hresp : responses s c = 0 := by
    simp [responses, respReadCalls, respWriteCalls, Axi4MR.cReq, hmr, Axi4MW.cResp, mwInput, hnb]
  have hzero : (Axi4MW.awHandshake s.mw (mwInput s c.inp)).length = 0 ∧
      Axi4MW.lasts (Axi4MW.wHandshake s.mw (mwInput s c.inp)) = 0 ∧
      (Axi4MW.cResp s.mw (mwInput s c.inp)).length = 0 := by
    simp [Axi4MW.awHandshake, Axi4MW.wHandshake, Axi4MW.lasts, Axi4MW.cResp, hmw, Axi4MW.reset,
      mwInput, hnb]
  obtain ⟨hmr', hmw', _, _⟩ := next_of_reset hreset c.inp v
  rw [hpend, hresp, hzero.1, hzero.2.1, hzero.2.2]
  refine ⟨?_, by omega, ?_, ?_, ?_⟩
  · unfold pending
    rw [hcount, hmr', hmw']
    simp [mrBusy, mwBusy, Axi4MR.reset, Axi4MW.reset]
  · rw [hmw']
    exact Axi4MW.wf_reset
  · rw [hmw', ← hmw]
    exact ⟨k, hbal⟩
  · intro hstill
    have hstill' : s.edges + 1 < 100 := hstill
    have hno : c.takes = 0 := by omega
    rw [hno] at hcount
    exact ⟨by rw [hmr']; rfl, hmw', toNat_eq_zero (by omega), toNat_eq_zero (by omega)⟩

/-- An edge out of reset: the modules take their pulses and answer on their way back to idle. -/
theorem account_running {conf : ACCConf} {n aw w b : Nat} {s s' : State p} {c : Cycle p}
    (h : Account n aw w b s) (hclock : clock conf s c = some s') (hreset : 100 ≤ s.edges)
    (hready : AlwaysReady c.inp) (hb : c.inp.iMBvalid = true → b < aw ∧ b < w)
    (hone : c.takes = 1 → n ≤ responses s c) :
    Account (n + c.takes - responses s c)
      (aw + (Axi4MW.awHandshake s.mw (mwInput s c.inp)).length)
      (w + Axi4MW.lasts (Axi4MW.wHandshake s.mw (mwInput s c.inp)))
      (b + (Axi4MW.cResp s.mw (mwInput s c.inp)).length) s' := by
  obtain ⟨v, r, hpoll, rfl⟩ := clock_eq_some hclock
  have hcount := pulseCount_next hpoll
  have htakes := c.takes_le_one
  obtain ⟨k, hbal⟩ := h.balanced
  have hr : s.aresetn = true := aresetn_eq_true.mpr hreset
  have hreadyMW : Axi4MW.Ready s.mw (mwInput s c.inp) :=
    ⟨fun _ => hready.2.2, fun _ _ _ => hready.2.1, fun _ _ => hready.2.2⟩
  obtain ⟨hin, hbal'⟩ := hbal.step (i := mwInput s c.inp) hr h.wf hreadyMW hb
  have hpend := h.pending
  unfold pending at hpend
  have hle := h.le_one
  have hmr := mrBusy_step (s := s.mr) (i := mrInput s c.inp) hr fun hq => by
    have hone := toNat_eq_one (b := s.reqMRvalid) hq
    exact mrBusy_eq_zero.mp (by omega)
  have hmw := mwBusy_step (s := s.mw) (i := mwInput s c.inp) hr hin fun hq => by
    have hone := toNat_eq_one (b := s.reqMWvalid) hq
    exact mwBusy_eq_zero.mp (by omega)
  have hpulses : (mrInput s c.inp).reqValid.toNat + (mwInput s c.inp).reqValid.toNat
      = s.reqMRvalid.toNat + s.reqMWvalid.toNat := rfl
  have hcalls : responses s c = (Axi4MR.cReq s.mr (mrInput s c.inp)).length
      + (Axi4MW.cResp s.mw (mwInput s c.inp)).length := by
    unfold responses respReadCalls respWriteCalls
    rw [if_neg (by omega)]
  have hpend' : pending (next s c.inp v) = n + c.takes - responses s c := by
    unfold pending
    rw [hcount]
    show c.takes + (mrBusy (Axi4MR.step s.mr (mrInput s c.inp))
      + mwBusy (Axi4MW.step s.mw (mwInput s c.inp))) = _
    omega
  refine ⟨hpend', ?_, ?_, ⟨_, hbal'⟩, ?_⟩
  · omega
  · exact Axi4MW.Wf.of_step hr h.wf hreadyMW
  · intro hstill
    have hstill' : s.edges + 1 < 100 := hstill
    omega

/-- **One edge keeps the accounts**, when no request is polled too early. -/
theorem account_step {conf : ACCConf} {n aw w b : Nat} {s s' : State p} {c : Cycle p}
    (h : Account n aw w b s) (hclock : clock conf s c = some s') (hready : AlwaysReady c.inp)
    (hb : c.inp.iMBvalid = true → b < aw ∧ b < w) (hone : c.takes = 1 → n ≤ responses s c)
    (hlate : c.takes = 1 → 99 ≤ s.edges) :
    Account (n + c.takes - responses s c)
      (aw + (Axi4MW.awHandshake s.mw (mwInput s c.inp)).length)
      (w + Axi4MW.lasts (Axi4MW.wHandshake s.mw (mwInput s c.inp)))
      (b + (Axi4MW.cResp s.mw (mwInput s c.inp)).length) s' := by
  rcases Nat.lt_or_ge s.edges 100 with hreset | hreset
  · exact account_reset h hclock hreset hb hlate
  · exact account_running h hclock hreset hready hb hone

/-- A request polled late enough is taken. -/
theorem taken_of_account {conf : ACCConf} {n aw w b : Nat} {s s' : State p} {c : Cycle p}
    {f : ACCData} (h : Account n aw w b s') (hreq : c.request = some f)
    (hclock : clock conf s c = some s') (hlate : 99 ≤ s.edges) : Taken f s' := by
  obtain ⟨v, r, hpoll, rfl⟩ := clock_eq_some hclock
  obtain ⟨hread, hwrite⟩ := (pulses_next hpoll).1 f hreq
  have hr : (next s c.inp v).aresetn = true := by
    refine aresetn_eq_true.mpr ?_
    show 100 ≤ s.edges + 1
    omega
  have hpend := h.pending
  have hle := h.le_one
  unfold pending at hpend
  constructor
  · intro hop
    have hpulse : (next s c.inp v).reqMRvalid = true := by simp [hread, hop]
    have hone := toNat_eq_one hpulse
    have hmr : (next s c.inp v).mr.rReadState = .idle := mrBusy_eq_zero.mp (by omega)
    refine ⟨hpulse, by simp [hwrite, hop], hr, hmr, ?_⟩
    intro i u
    exact Axi4MR.step_accepts (i := mrInput (next s c.inp v) i) ⟨hr, hmr, hpulse⟩
  · intro hop
    have hpulse : (next s c.inp v).reqMWvalid = true := by simp [hwrite, hop]
    have hone := toNat_eq_one hpulse
    have hmw : (next s c.inp v).mw.rWriteState = .idle := mwBusy_eq_zero.mp (by omega)
    refine ⟨hpulse, by simp [hread, hop], hr, hmw, ?_⟩
    intro i u
    exact Axi4MW.step_accepts (i := mwInput (next s c.inp v) i) hr ⟨hmw, hpulse⟩

theorem pulseMet_of_account {n aw w b : Nat} {s : State p} (h : Account n aw w b s) :
    PulseMet s := by
  have hpend := h.pending
  have hle := h.le_one
  unfold pending at hpend
  have hreset : ∀ pulse : Bool, pulse = true → (s.edges < 100 → pulse = false) →
      s.aresetn = true := by
    intro pulse hv hno
    refine aresetn_eq_true.mpr ?_
    by_contra hlt
    rw [hno (by omega)] at hv
    exact absurd hv (by simp)
  constructor
  · intro hv
    have hone := toNat_eq_one hv
    exact ⟨hreset _ hv fun hlt => (h.inReset hlt).2.2.1, mrBusy_eq_zero.mp (by omega)⟩
  · intro hv
    have hone := toNat_eq_one hv
    exact ⟨hreset _ hv fun hlt => (h.inReset hlt).2.2.2, mwBusy_eq_zero.mp (by omega)⟩

/-- The accounts over a whole run. -/
theorem noLoss_of_late {conf : ACCConf} {s s' : State p} {tr : Trace p} (h : Run conf s tr s')
    {n aw w b : Nat} (ha : Account n aw w b s) (hone : OneOutstanding n tr)
    (hready : ∀ c ∈ tr, AlwaysReady c.2.inp) (hc : Axi4MW.Compliant aw w b (mwTrace tr))
    (hlate : LateRequests tr) : NoLoss conf tr := by
  induction h generalizing n aw w b with
  | nil => exact fun c hc => absurd hc List.not_mem_nil
  | @cons s t s' c tr hclock hrest ih =>
    have hlate' : c.takes = 1 → 99 ≤ s.edges := by
      intro ht
      obtain ⟨f, hf⟩ := Cycle.takes_eq_one.mp ht
      exact hlate (s, c) List.mem_cons_self f hf
    have hacc := account_step ha hclock (hready _ List.mem_cons_self) hc.1 hone.1 hlate'
    intro d hd
    rcases List.mem_cons.mp hd with rfl | hd
    · refine ⟨pulseMet_of_account ha, ?_⟩
      intro f hf t' ht'
      have heq : t = t' := Option.some.inj (hclock.symm.trans ht')
      subst heq
      exact taken_of_account hacc hf hclock (hlate' (Cycle.takes_eq_one.mpr ⟨f, hf⟩))
    · exact ih hacc hone.2 (fun e he => hready e (List.mem_cons_of_mem _ he)) hc.2
        (fun e he => hlate e (List.mem_cons_of_mem _ he)) d hd

/-! ## The condition -/

/-- Every step of a run leads somewhere. -/
theorem exists_next {conf : ACCConf} {s s' : State p} {tr : Trace p} (h : Run conf s tr s') :
    ∀ c ∈ tr, ∃ t, clock conf c.1 c.2 = some t := by
  induction h with
  | nil => simp
  | cons hclock _ ih =>
    intro c hc
    rcases List.mem_cons.mp hc with rfl | hc
    · exact ⟨_, hclock⟩
    · exact ih c hc

/--
**Every request is taken exactly when none is polled on the first 99 edges.**

In any run from time zero, with one access at a time, a slave that is always ready and answers
each write once, the pulses meet modules that are out of reset and idle, and every polled
request is in the registers of its module two edges later, if and only if no request is polled
while the module would still be in reset on the next edge.
-/
theorem noLoss_iff {conf : ACCConf} {tr : Trace p} {s : State p} (h : Run conf init tr s)
    (henv : Environment tr) : NoLoss conf tr ↔ LateRequests tr := by
  constructor
  · intro hno c hc f hf
    obtain ⟨t, ht⟩ := exists_next h c hc
    have htaken := (hno c hc).2 f hf t ht
    have hr : t.aresetn = true := by
      by_cases hop : f.op = .read
      · exact (htaken.read hop).2.2.1
      · exact (htaken.write hop).2.2.1
    obtain ⟨v, r, _, rfl⟩ := clock_eq_some ht
    have hedges : 100 ≤ c.1.edges + 1 := aresetn_eq_true.mp hr
    omega
  · exact noLoss_of_late h account_init henv.one henv.ready henv.compliant

/-! ## A request during reset and one after it -/

/-- A read of four bytes. -/
def readFrame : ACCData := { ACCData.zero with op := .read, dataSize := 4 }

/-- An edge on which `C_poll` finds `sock`. -/
def pollEdge (sock : PollSock) : Cycle bus64 := ⟨sock, readyInput⟩

/-- In reset, before edge `k`, when nothing was polled yet. -/
def beforeEdge (k : Nat) : State bus64 := { init with edges := k }

/-- On edge `k` `C_poll` finds `readFrame`, on the next one nothing. -/
def pollAt (k : Nat) : Trace bus64 :=
  [(beforeEdge k, pollEdge (.qemuReq readFrame)),
    ((clock defaultConf (beforeEdge k) (pollEdge (.qemuReq readFrame))).getD init, pollEdge .none)]

/-- On the edges before it nothing either. -/
def waitFor (k : Nat) : Trace bus64 :=
  (List.range k).map (fun j => (beforeEdge j, pollEdge .none)) ++ pollAt k

theorem clock_beforeEdge {k : Nat} (hk : k < 100) :
    clock defaultConf (beforeEdge k) (pollEdge .none) = some (beforeEdge (k + 1)) := by
  show some (next (beforeEdge k) readyInput PollVars.zero) = _
  exact congrArg some (next_init hk readyInput)

theorem run_beforeEdge {k : Nat} (hk : k ≤ 100) :
    Run defaultConf init ((List.range k).map fun j => (beforeEdge j, pollEdge .none))
      (beforeEdge k) := by
  induction k with
  | zero => exact Path.nil _
  | succ k ih =>
    rw [List.range_succ, List.map_append]
    exact (ih (Nat.le_of_succ_le hk)).snoc (clock_beforeEdge hk)

/-- A slave that answers nothing is compliant. -/
theorem compliant_of_low {aw w b : Nat} {tr : Axi4MW.Trace bus64}
    (h : ∀ c ∈ tr, c.2.iMBvalid = false) : Axi4MW.Compliant aw w b tr := by
  induction tr generalizing aw w b with
  | nil => trivial
  | cons c tr ih =>
    refine ⟨fun hb => ?_, ih fun d hd => h d (List.mem_cons_of_mem _ hd)⟩
    rw [h c List.mem_cons_self] at hb
    exact absurd hb Bool.false_ne_true

/-- Edges without a request come before the first one. -/
theorem oneOutstanding_append {tr tr' : Trace bus64} (h : ∀ c ∈ tr, c.2.takes = 0)
    (h' : OneOutstanding 0 tr') : OneOutstanding 0 (tr ++ tr') := by
  induction tr with
  | nil => exact h'
  | cons c tr ih =>
    have hnone := h c List.mem_cons_self
    refine ⟨fun hone => absurd (hnone.symm.trans hone) Nat.zero_ne_one, ?_⟩
    rw [hnone, Nat.add_zero, Nat.zero_sub]
    exact ih fun d hd => h d (List.mem_cons_of_mem _ hd)

theorem inp_waitFor {k : Nat} : ∀ c ∈ waitFor k, c.2.inp = readyInput := by
  intro c hc
  rcases List.mem_append.mp hc with hc | hc
  · obtain ⟨j, _, rfl⟩ := List.mem_map.mp hc
    rfl
  · simp only [pollAt, List.mem_cons, List.not_mem_nil, or_false] at hc
    rcases hc with rfl | rfl <;> rfl

theorem environment_waitFor (k : Nat) : Environment (waitFor k) where
  one := by
    refine oneOutstanding_append (fun c hc => ?_)
      ⟨fun _ => Nat.zero_le _, fun h => absurd h Nat.zero_ne_one, trivial⟩
    obtain ⟨j, _, rfl⟩ := List.mem_map.mp hc
    rfl
  ready := by
    intro c hc
    rw [inp_waitFor c hc]
    exact ⟨rfl, rfl, rfl⟩
  compliant := by
    refine compliant_of_low fun c hc => ?_
    obtain ⟨d, hd, rfl⟩ := List.mem_map.mp hc
    show d.2.inp.iMBvalid = false
    rw [inp_waitFor d hd]
    rfl

/-- The first edge on which a request is not lost is edge 99. -/
theorem noLoss_lateRequest : (∃ c ∈ waitFor 99, c.2.request = some readFrame) ∧
    NoLoss defaultConf (waitFor 99) := by
  refine ⟨⟨_, List.mem_append_right _ List.mem_cons_self, rfl⟩, ?_⟩
  have hrun := (run_beforeEdge (k := 99) (by decide)).append
    (Path.cons (i := pollEdge (.qemuReq readFrame)) rfl
      (Path.cons (i := pollEdge .none) rfl (Path.nil _)))
  refine (noLoss_iff hrun (environment_waitFor 99)).mpr fun c hc f hf => ?_
  rcases List.mem_append.mp hc with hc | hc
  · obtain ⟨j, _, rfl⟩ := List.mem_map.mp hc
    exact absurd hf (by simp [Cycle.request, pollEdge])
  · simp only [List.mem_cons, List.not_mem_nil, or_false] at hc
    rcases hc with rfl | rfl <;> decide

/-- A request comes during reset: it is polled, and two edges later no module has it. -/
theorem noLoss_earlyRequest :
    ∃ s, Run defaultConf init (waitFor 0) s ∧ Environment (waitFor 0) ∧
      pending s = 0 ∧ ¬NoLoss defaultConf (waitFor 0) := by
  refine ⟨_, Path.cons rfl (Path.cons rfl (Path.nil _)), environment_waitFor 0, rfl, ?_⟩
  intro h
  obtain ⟨_, _, hr, _⟩ := ((h _ List.mem_cons_self).2 readFrame rfl _ rfl).read rfl
  exact absurd hr (by decide)

end QemuHdlSim.Axi4Ip
