import QemuHdlSim.Properties.NicAnswers

/-!
# Every packet is answered

`Answered` says that no answer is out of place. In a run without end in which nobody stops they all
come: the bridge polls every frame of `nic_req`, its beats go out on the stream, the design answers
what it has seen whole, and QEMU takes every frame of `nic_resp`.

* `polls_or_works` — an edge polls, or leaves less to do before the next poll
* `reqTaken`, `streamed`, `respTaken` — each part of the way
* `nicLive` — the whole of it
-/

namespace QemuHdlSim.Nic

open Infra Infra.Stream

variable {w : Nat} {answer : List Byte → List Byte}

/-! ## An edge -/

/-- How many edges may come before the bridge polls. -/
def work (s : State w) : Nat :=
  match s.axis.r.state with
  | .idle => (owed s).length + 1
  | .data => (owed s).length

/-- **An edge polls, or leaves less to do** before the next poll. -/
theorem polls_or_works (h : Lanes w) {s : State w} (hw : Wf s) :
    AxisM.busy s.axis (s.input true) = false ∨ work (s.edge true) < work s := by
  obtain ⟨_, hlaw⟩ := edge_law h hw (show (Event.edge true).BetweenPackets s from trivial)
  cases hst : s.axis.r.state with
  | idle =>
    cases hq : s.vars.mIReq with
    | false => exact Or.inl (AxisM.step_idle (i := s.input true) hst hq).1
    | true =>
      obtain ⟨hb, _, hdata, _⟩ := AxisM.step_accept (i := s.input true) hst hq rfl (hw.vars hq)
      obtain ⟨hedge, hpoll⟩ := edge_of_busy hb
      have hlen := congrArg List.length hlaw
      rw [hpoll, List.flatMap_nil, List.append_nil, List.length_append] at hlen
      have hnext : (s.edge true).axis.r.state = .data := by rw [hedge]; exact hdata
      refine Or.inr ?_
      simp only [work, hst, hnext]
      omega
  | data =>
    obtain ⟨_, htv, _⟩ := hw.axis.data hst
    by_cases hc : s.axis.r.count.toNat ≤ s.axis.r.len.toNat
    · obtain ⟨hb, _, hdata, _⟩ := AxisM.step_next (i := s.input true) hw.axis hst rfl hc
      obtain ⟨hedge, hpoll⟩ := edge_of_busy hb
      have hlen := congrArg List.length hlaw
      rw [hpoll, List.flatMap_nil, List.append_nil, List.length_append, AxisM.transfer, if_pos htv,
        List.length_singleton] at hlen
      have hnext : (s.edge true).axis.r.state = .data := by rw [hedge]; exact hdata
      refine Or.inr ?_
      simp only [work, hst, hnext]
      omega
    · exact Or.inl (AxisM.step_last (i := s.input true) hw.axis hst rfl (by omega)).1

/-- A poll takes a frame that has arrived. -/
theorem taken_of_polls {s : State w} {aresetn : Bool} (hq : s.nicReq.Queued)
    (hb : AxisM.busy s.axis (s.input aresetn) = false) :
    (s.edge aresetn).nicReq.taken = s.nicReq.taken + 1 := by
  rcases edge_of_free hb with ⟨f, q, hrecv, _, hedge⟩ | ⟨hnone, _, _⟩
  · rw [hedge]
    exact (Fifo.recv?_eq_some hrecv).2.2.2.1
  · exact absurd hq (Nat.not_lt.mpr (Fifo.recv?_eq_none.mp hnone))

namespace Link

/-! ## Runs without end -/

/-- A run without end. -/
abbrev Always (w : Nat) := Forever fun (a : Link w) e b => a.step e = some b

/-- The event is a clock edge. -/
def IsEdge (e : LinkEvent w) : Prop := ∃ i last, e = .edge i last

/-- What `Answered` asks for, at any time. -/
structure Runs (answer : List Byte → List Byte) (r : Always w) : Prop where
  lanes : Lanes w
  start : ∃ d, r.state 0 = init d
  orderly : ∀ n, Orderly answer (r.input n)
  answers : ∀ n, Answers answer (r.upTo n)

/-- Nobody stops for good. -/
structure Fair (answer : List Byte → List Byte) (r : Always w) : Prop where
  clock : Recurs fun n => IsEdge (r.input n)
  deliversReq : WeaklyFair (fun n => (r.state n).rx.nicReq.InFlight)
    fun n => r.input n = .deliverReq
  deliversResp : WeaklyFair (fun n => (r.state n).tx.nicResp.InFlight)
    fun n => r.input n = .deliverResp
  /-- The handler of `nic_resp` is called when it has something to take. -/
  handler : WeaklyFair (fun n => (r.state n).tx.nicResp.Queued) fun n => r.input n = .tx
  /-- The design answers. -/
  design : ∀ n, ∃ k, n ≤ k ∧ (Tx.packets (events transfers (r.upTo n))).map answer
    <+: Tx.packets (events beats (r.upTo k))

variable {r : Always w}

namespace Runs

theorem exists_run (hr : Runs answer r) (n : Nat) : ∃ d, Run (init d) (r.upTo n) (r.state n) ∧
    ∀ c ∈ r.upTo n, Orderly answer c.2 := by
  obtain ⟨d, hd⟩ := hr.start
  refine ⟨d, hd ▸ r.path n, ?_⟩
  rintro c hc
  obtain ⟨k, _, rfl⟩ := r.mem_upTo hc
  exact hr.orderly k

theorem law (hr : Runs answer r) (n : Nat) : Wf (r.state n).rx ∧
    (r.state n).rx.nicReq.sent.map ACCNICData.payload = events received (r.upTo n) ∧
      events transfers (r.upTo n) ++ owed (r.state n).rx
        = ((r.state n).rx.nicReq.sent.take (r.state n).rx.nicReq.taken).flatMap
          (packetBeats w) := by
  obtain ⟨d, hrun, hok⟩ := hr.exists_run n
  exact rx_law hr.lanes hrun hok

theorem wf (hr : Runs answer r) (n : Nat) : Wf (r.state n).rx := (hr.law n).1

/-- An edge out of reset. -/
theorem edge (hr : Runs answer r) {n : Nat} (h : IsEdge (r.input n)) :
    (r.state (n + 1)).rx = (r.state n).rx.edge true := by
  obtain ⟨i, last, hi⟩ := h
  have hstep := r.next n
  have horderly := hr.orderly n
  rw [hi] at hstep horderly
  have hreset : i.aresetn = true := horderly
  rw [(step_edge hstep).1, hreset]

end Runs

theorem rest {n : Nat} (h : ¬IsEdge (r.input n)) :
    (r.state (n + 1)).rx.axis = (r.state n).rx.axis ∧
      (r.state (n + 1)).rx.vars = (r.state n).rx.vars :=
  step_other (r.next n) fun i last hi => h ⟨i, last, hi⟩

/-- Up to the next edge nothing changes for `axis_m`. -/
theorem exists_edge (hclock : Recurs fun n => IsEdge (r.input n)) (n : Nat) :
    ∃ k, n ≤ k ∧ IsEdge (r.input k) ∧ (r.state k).rx.axis = (r.state n).rx.axis ∧
      (r.state k).rx.vars = (r.state n).rx.vars := by
  obtain ⟨k, hk, hedge, hsame⟩ := hclock.exists_unchanged
    (f := fun n => ((r.state n).rx.axis, (r.state n).rx.vars))
    (fun n hn => Prod.ext (rest hn).1 (rest hn).2) n
  exact ⟨k, hk, hedge, congrArg Prod.fst hsame, congrArg Prod.snd hsame⟩

/-! ## To the design -/

/-- **Every frame of `nic_req` is polled.** -/
theorem reqTaken (hr : Runs answer r) (hf : Fair answer r) (n : Nat) :
    ∃ k, n ≤ k ∧ (r.state n).rx.nicReq.sent.length ≤ (r.state k).rx.nicReq.taken := by
  have hmoves : ∀ n, (r.state n).rx.nicReq.Moves (r.state (n + 1)).rx.nicReq :=
    fun n => moves_nicReq (r.next n)
  refine Fifo.allTaken (q := fun n => (r.state n).rx.nicReq) hmoves
    (Fifo.leadsTo_queued hmoves hf.deliversReq ?_) ?_ n
  · intro n hn
    have hrx := (step_eq_some (r.next n)).1
    rw [hn] at hrx
    obtain ⟨q, hq, heq⟩ := Option.map_eq_some_iff.mp hrx
    rw [← heq]
    exact hq
  · intro n hn
    -- the frame waits, and every edge that does not poll leaves less to do
    have hwait : LeadsTo
        (fun k => (r.state k).rx.nicReq.Queued ∧
          (r.state k).rx.nicReq.taken = (r.state n).rx.nicReq.taken)
        fun k => (r.state n).rx.nicReq.taken < (r.state k).rx.nicReq.taken := by
      refine LeadsTo.of_measure (μ := fun k => work (r.state k).rx) ?_ hf.clock
      rintro k ⟨hq, htaken⟩
      rcases Fifo.waits_or_taken hmoves ⟨hq, htaken⟩ with hwaits | hlt
      · refine Or.inr ⟨hwaits, ?_⟩
        by_cases hedge : IsEdge (r.input k)
        · have hless : work (r.state (k + 1)).rx < work (r.state k).rx := by
            have hsame := hwaits.2.trans htaken.symm
            rw [hr.edge hedge] at hsame ⊢
            rcases polls_or_works hr.lanes (hr.wf k) with hb | hless
            · rw [taken_of_polls hq hb] at hsame
              exact absurd hsame (Nat.succ_ne_self _)
            · exact hless
          exact ⟨Nat.le_of_lt hless, fun _ => hless⟩
        · obtain ⟨haxis, hvars⟩ := rest hedge
          refine ⟨Nat.le_of_eq ?_, fun h => absurd h hedge⟩
          simp only [work, owed, haxis, hvars]
      · exact Or.inl hlt
    exact hwait n ⟨hn, rfl⟩

/-- Where beats are owed, one is transferred. -/
theorem exists_transfer (hr : Runs answer r) (hf : Fair answer r) {n : Nat}
    (h : owed (r.state n).rx ≠ []) : ∃ k, n ≤ k ∧ transfers (r.state k) (r.input k) ≠ [] := by
  have hshown : ∀ m, (r.state m).rx.axis.r.state = .data →
      ∃ k, m ≤ k ∧ transfers (r.state k) (r.input k) ≠ [] := by
    intro m hm
    obtain ⟨k, hk, ⟨i, last, hi⟩, haxis, _⟩ := exists_edge hf.clock m
    refine ⟨k, hk, ?_⟩
    rw [hi, transfers, haxis, AxisM.transfer, if_pos ((hr.wf m).axis.data hm).2.1]
    exact List.cons_ne_nil _ _
  cases hst : (r.state n).rx.axis.r.state with
  | data => exact hshown n hst
  | idle =>
    -- the request is taken first
    have hq : (r.state n).rx.vars.mIReq = true := by
      cases hq : (r.state n).rx.vars.mIReq with
      | true => rfl
      | false => exact absurd (by simp [owed, hst, hq]) h
    obtain ⟨k, hk, hedge, haxis, hvars⟩ := exists_edge hf.clock n
    have hst' : (r.state k).rx.axis.r.state = .idle := by rw [haxis]; exact hst
    have hq' : (r.state k).rx.vars.mIReq = true := by rw [hvars]; exact hq
    obtain ⟨hb, _, hdata, _⟩ :=
      AxisM.step_accept (i := (r.state k).rx.input true) hst' hq' rfl ((hr.wf k).vars hq')
    have hnext : (r.state (k + 1)).rx.axis.r.state = .data := by
      rw [hr.edge hedge, (edge_of_busy hb).1]
      exact hdata
    obtain ⟨l, hl, htransfer⟩ := hshown (k + 1) hnext
    exact ⟨l, by omega, htransfer⟩

/-- What was polled and is not through. -/
def owedBeats (s : Link w) : List (Beat w) := owed s.rx

/-- The beats of the frame an event takes off the socket. -/
def polledBeats (s : Link w) (e : LinkEvent w) : List (Beat w) :=
  (e.nic.elim [] (taken s.rx)).flatMap (packetBeats w)

theorem beats_law (hr : Runs answer r) (n : Nat) :
    owedBeats (r.state n) ++ polledBeats (r.state n) (r.input n)
      = transfers (r.state n) (r.input n) ++ owedBeats (r.state (n + 1)) := by
  have hrx := (step_eq_some (r.next n)).1
  rw [transfers_eq, owedBeats, owedBeats, polledBeats]
  cases hk : (r.input n).nic with
  | none =>
    rw [hk] at hrx
    rw [← Option.some.inj hrx]
    simp
  | some k =>
    rw [hk] at hrx
    exact (step_law hr.lanes (hr.wf n) (fair_of_orderly (hr.orderly n) hk _) hrx).2

/-- **Every beat of a frame that was polled is transferred.** -/
theorem streamed (hr : Runs answer r) (hf : Fair answer r) (n : Nat) :
    ∃ k, n ≤ k ∧ (events transfers (r.upTo n)).length + (owedBeats (r.state n)).length
      ≤ (events transfers (r.upTo k)).length :=
  r.handedOver (beats_law hr) (fun _ hn => exists_transfer hr hf hn) n

/-- The design sees every packet. -/
theorem allSeen (hr : Runs answer r) (hf : Fair answer r) (n : Nat) :
    ∃ k, n ≤ k ∧ events received (r.upTo n) <+: Tx.packets (events transfers (r.upTo k)) := by
  obtain ⟨k, hk, htaken⟩ := reqTaken hr hf n
  obtain ⟨l, hl, hlen⟩ := streamed hr hf k
  have hmoves : ∀ n, (r.state n).rx.nicReq.Moves (r.state (n + 1)).rx.nicReq :=
    fun n => moves_nicReq (r.next n)
  have hsent : (r.state n).rx.nicReq.sent
      <+: (r.state k).rx.nicReq.sent.take (r.state k).rx.nicReq.taken :=
    List.prefix_take_iff.mpr ⟨Fifo.log_le_of_moves hmoves hk, htaken⟩
  obtain ⟨hw, hreceived, _⟩ := hr.law n
  obtain ⟨_, _, hpolled⟩ := hr.law k
  obtain ⟨_, _, hlater⟩ := hr.law l
  -- both are beats of the log, and what was polled is no longer than what is transferred
  have hbeats : ((r.state k).rx.nicReq.sent.take (r.state k).rx.nicReq.taken).flatMap
      (packetBeats w) <+: events transfers (r.upTo l) := by
    have hlog : ((r.state k).rx.nicReq.sent.take (r.state k).rx.nicReq.taken).flatMap
        (packetBeats w) <+: (r.state l).rx.nicReq.sent.flatMap (packetBeats w) :=
      ((List.take_prefix _ _).trans (Fifo.log_le_of_moves hmoves hl)).flatMap _
    have hseen : events transfers (r.upTo l)
        <+: (r.state l).rx.nicReq.sent.flatMap (packetBeats w) :=
      (List.prefix_append _ _).trans (hlater ▸ (List.take_prefix _ _).flatMap _)
    refine List.prefix_of_prefix_length_le hlog hseen ?_
    rw [← hpolled, List.length_append]
    exact hlen
  refine ⟨l, Nat.le_trans hk hl, ?_⟩
  rw [← hreceived]
  exact prefix_packets hr.lanes hw.frames ((hsent.flatMap _).trans hbeats)

/-! ## And back -/

/-- **Every frame of `nic_resp` is taken.** -/
theorem respTaken (hf : Fair answer r) (n : Nat) :
    ∃ k, n ≤ k ∧ (r.state n).tx.nicResp.sent.length ≤ (r.state k).tx.nicResp.taken := by
  have hmoves : ∀ n, (r.state n).tx.nicResp.Moves (r.state (n + 1)).tx.nicResp :=
    fun n => moves_nicResp (r.next n)
  refine Fifo.allTaken (q := fun n => (r.state n).tx.nicResp) hmoves
    (Fifo.leadsTo_queued hmoves hf.deliversResp ?_) ?_ n
  · intro n hn
    have htx := (step_eq_some (r.next n)).2
    rw [hn] at htx
    obtain ⟨q, hq, heq⟩ := Option.map_eq_some_iff.mp htx
    rw [← heq]
    exact hq
  · refine fun m hq => Fifo.exists_taken hmoves ?_ hf.handler hq
    intro k hq hk
    have htx := (step_eq_some (r.next k)).2
    rw [hk] at htx
    obtain ⟨⟨ps, q⟩, hpacket, heq⟩ := Option.map_eq_some_iff.mp htx
    rw [← heq, (netTxPacket_taken hpacket).2.2]
    exact hq

/--
**Every packet is answered.** In a run without end after a reset, with a design that answers, and in
which nobody stops, the answers to the packets handed over so far are handed back, then or later.
-/
theorem nicLive (hr : Runs answer r) (hf : Fair answer r) (n : Nat) :
    ∃ k, n ≤ k ∧ (events received (r.upTo n)).map answer <+: (r.state k).tx.os := by
  obtain ⟨k, hk, hseen⟩ := allSeen hr hf n
  obtain ⟨l, hl, hanswers⟩ := hf.design k
  obtain ⟨m, hm, htaken⟩ := respTaken hf l
  obtain ⟨_, hrun, hok⟩ := hr.exists_run l
  obtain ⟨_, hrun', _⟩ := hr.exists_run m
  have hsent := sent_eq_packets hr.lanes hrun hok (hr.answers l)
  have hback : (r.state l).tx.nicResp.sent
      <+: (r.state m).tx.nicResp.sent.take (r.state m).tx.nicResp.taken :=
    List.prefix_take_iff.mpr
      ⟨Fifo.log_le_of_moves (q := fun n => (r.state n).tx.nicResp)
        (fun n => moves_nicResp (r.next n)) hm, htaken⟩
  refine ⟨m, by omega, ?_⟩
  rw [Tx.os_run (run_tx hrun')]
  refine (hseen.map answer).trans (hanswers.trans ?_)
  rw [← hsent]
  exact hback.map _

/-! ## After the nine bytes the clock goes on -/

/-- Nothing is left to do. -/
structure Idle (s : Link 8) : Prop where
  state : s.rx.axis.r.state = .idle
  quiet : s.rx.axis.r.tvalid = false
  vars : s.rx.vars.mIReq = false
  req : s.rx.nicReq.sent.length = s.rx.nicReq.taken
  resp : s.tx.nicResp.sent.length = s.tx.nicResp.taken

theorem Idle.step {s : Link 8} (h : Idle s) : ∃ s', s.step noBeat = some s' ∧ Idle s' := by
  obtain ⟨hb, hidle, hquiet⟩ := AxisM.step_idle (i := s.rx.input true) h.state h.vars
  have hedge : s.rx.edge true
      = ⟨AxisM.step s.rx.axis (s.rx.input true), cNicPoll 8 s.rx.vars none, s.rx.nicReq⟩ := by
    rcases edge_of_free hb with ⟨f, q, hrecv, _⟩ | ⟨_, _, hedge⟩
    · rw [Fifo.recv?_of_drained h.req] at hrecv
      exact absurd hrecv (by simp)
    · exact hedge
  refine ⟨_, rfl, ?_, ?_, ?_, ?_, h.resp⟩
  · show (s.rx.edge true).axis.r.state = .idle
    rw [hedge]
    exact hidle
  · show (s.rx.edge true).axis.r.tvalid = false
    rw [hedge]
    exact hquiet h.quiet
  · show (s.rx.edge true).vars.mIReq = false
    rw [hedge]
    rfl
  · show (s.rx.edge true).nicReq.sent.length = (s.rx.edge true).nicReq.taken
    rw [hedge]
    exact h.req

/-- The run goes on with the clock. -/
structure GoesOn (r : Always 8) : Prop where
  start : r.state 0 = init fun _ => 0
  trace : r.upTo answered.length = traceM step (init fun _ => 0) answered
  rest : ∀ n, answered.length ≤ n → r.input n = noBeat ∧ Idle (r.state n)

theorem exists_goesOn : ∃ r, GoesOn r := by
  have hrun : ∃ s, runM step (init fun _ => 0) answered = some s ∧ Idle s :=
    ⟨_, rfl, rfl, rfl, rfl, rfl, rfl⟩
  obtain ⟨s, hrun, hidle⟩ := hrun
  obtain ⟨r, hstart, htrace, hrest⟩ := Forever.of_stay hrun hidle fun _ h => h.step
  exact ⟨r, hstart, htrace, hrest⟩

namespace GoesOn

variable {r : Always 8}

/-- From then on there is nothing on the streams. -/
theorem streams (h : GoesOn r) {n : Nat} (hn : answered.length ≤ n) :
    events beats (r.upTo n) = [fourBytes] ∧
      Tx.packets (events transfers (r.upTo n)) = [nineBytes] := by
  induction n, hn using Nat.le_induction with
  | base =>
    rw [h.trace]
    exact ⟨rfl, packets_answered⟩
  | succ n hn ih =>
    obtain ⟨hinput, hidle⟩ := h.rest n hn
    have hnone : transfers (r.state n) noBeat = [] := by
      rw [noBeat, transfers, AxisM.transfer, if_neg (by simp [hidle.quiet])]
    have hsilent : beats (r.state n) noBeat = [] := rfl
    rw [r.upTo_succ, events_append, events_append, events_cons, events_cons, events_nil, events_nil,
      hinput, hnone, hsilent, List.append_nil, List.append_nil, List.append_nil]
    exact ih

/-- Before the answer there is the packet. -/
theorem asked (h : GoesOn r) : events beats (r.upTo 6) = [] ∧
    Tx.packets (events transfers (r.upTo 6)) = [nineBytes] := by
  have htake : r.upTo 6 = (r.upTo answered.length).take 6 := rfl
  rw [htake, h.trace]
  exact ⟨rfl, by decide +kernel⟩

theorem orderly (h : GoesOn r) (n : Nat) : Orderly (List.take 4) (r.input n) := by
  by_cases hn : n < answered.length
  · have hmem := r.step_mem_upTo hn
    rw [h.trace] at hmem
    exact orderly_answered _ (snd_mem_of_traceM hmem)
  · rw [(h.rest n (Nat.le_of_not_lt hn)).1]
    rfl

/-- Either there is no answer yet, or there is the packet. -/
theorem beats_cases (h : GoesOn r) (n : Nat) : events beats (r.upTo n) = [] ∨
    events beats (r.upTo n) = [fourBytes] ∧
      [nineBytes] <+: Tx.packets (events transfers (r.upTo n)) := by
  rcases Nat.lt_or_ge 6 n with hn | hn
  · obtain ⟨es, hes⟩ := r.events_upTo_of_le beats (Nat.le_max_left n answered.length)
    rw [(h.streams (Nat.le_max_right n answered.length)).1] at hes
    rcases List.prefix_cons_iff.mp ⟨es, hes.symm⟩ with hnil | ⟨t, ht, hrest⟩
    · exact Or.inl hnil
    · obtain ⟨es', hes'⟩ := r.events_upTo_of_le transfers (Nat.le_of_lt hn)
      refine Or.inr ⟨by rw [ht, List.prefix_nil.mp hrest], ?_⟩
      rw [hes', ← h.asked.2]
      exact packets_append _ _
  · obtain ⟨es, hes⟩ := r.events_upTo_of_le beats hn
    rw [h.asked.1] at hes
    exact Or.inl (List.append_eq_nil_iff.mp hes.symm).1

theorem answers (h : GoesOn r) (n : Nat) : Answers (List.take 4) (r.upTo n) := by
  rcases h.beats_cases n with hnone | ⟨hone, hseen⟩
  · exact ⟨by rw [hnone]; exact List.nil_prefix, by rw [hnone]; exact Tx.clean_nil⟩
  · refine ⟨?_, by rw [hone]; exact clean_fourBytes⟩
    have hpacket : Tx.packets [fourBytes] = [nineBytes].map (List.take 4) := by decide
    rw [hone, hpacket]
    exact hseen.map _

theorem runs (h : GoesOn r) : Runs (List.take 4) r :=
  ⟨lanes_eight, ⟨_, h.start⟩, h.orderly, h.answers⟩

theorem fair (h : GoesOn r) : Fair (List.take 4) r where
  clock := fun n => ⟨max n answered.length, Nat.le_max_left _ _, _, _,
    (h.rest _ (Nat.le_max_right _ _)).1⟩
  deliversReq := WeaklyFair.of_never answered.length fun n hn =>
    Fifo.not_inFlight_of_drained (h.rest n hn).2.req
  deliversResp := WeaklyFair.of_never answered.length fun n hn =>
    Fifo.not_inFlight_of_drained (h.rest n hn).2.resp
  handler := WeaklyFair.of_never answered.length fun n hn =>
    Fifo.not_queued_of_drained (h.rest n hn).2.resp
  design := by
    intro n
    have hle := Nat.le_max_right n answered.length
    obtain ⟨es, hes⟩ := r.events_upTo_of_le transfers (Nat.le_max_left n answered.length)
    have hseen : Tx.packets (events transfers (r.upTo n)) <+: [nineBytes] := by
      rw [← (h.streams hle).2, hes]
      exact packets_append _ _
    refine ⟨_, Nat.le_max_left n answered.length, ?_⟩
    rw [(h.streams hle).1]
    exact (hseen.map _).trans (by decide)

end GoesOn

theorem nicLive_nineBytes : ∃ (r : Always 8) (n : Nat), r.state 0 = init (fun _ => 0) ∧
    events received (r.upTo n) = [nineBytes] ∧
    ∃ k, n ≤ k ∧ [nineBytes.take 4] <+: (r.state k).tx.os := by
  obtain ⟨r, h⟩ := exists_goesOn
  obtain ⟨k, hk, hos⟩ := nicLive h.runs h.fair answered.length
  have hreceived : events received (r.upTo answered.length) = [nineBytes] := by
    rw [h.trace]
    rfl
  rw [hreceived] at hos
  exact ⟨r, answered.length, h.start, hreceived, k, hk, hos⟩

end Link

end QemuHdlSim.Nic
