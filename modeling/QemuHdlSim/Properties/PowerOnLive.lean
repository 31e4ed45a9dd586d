import QemuHdlSim.Properties.DmaLive
import QemuHdlSim.Properties.PollOrder

/-!
# From power on, everything is served

The two processes find each other, whichever is started first: the INIT is polled, its answer comes
back, and the device is plugged. From then on every access returns and every request of the HDL
side is served. That `C_poll` comes to every socket is not assumed here, as it is in `Fair`: it
follows from the order in which `zpoller_wait` looks at them.

* `plugged` — the INIT exchange comes to its end
* `polls_qemuReq`, `polls_hdlResp` — no socket is starved
* `powerOnLive` — and then
-/

namespace QemuHdlSim.Cosim

open Infra Axi4Ip Loop

variable {p : BusParams} {conf : ACCConf} {warnMs : Int} {mem m : Mem}

/-- A run from power on without end. -/
abbrev BootAlways (p : BusParams) (conf : ACCConf) (warnMs : Int) :=
  Forever fun (a : Boot p) e b => a.step conf warnMs e = some b

/-- The event is one of the system, and has the property. -/
def BootEvent.Is (P : SysEvent p → Prop) (e : BootEvent p) : Prop := ∃ ev, e = .sys ev ∧ P ev

/-- What a run starts from, and what the world may do in it. -/
structure Boots (q : IpParams) (mem m : Mem) (r : BootAlways p conf warnMs) : Prop where
  conf : q.setup = some conf
  bus : 3 ≤ p.log2Stbw
  offsets : ∀ k, (q.barOffset k).toNat % p.stbw = 0
  start : r.state 0 = Boot.init mem m
  receives : ∀ n, (r.input n).Receives warnMs

/-- Nobody stops for good. -/
structure BootFair (r : BootAlways p conf warnMs) : Prop where
  /-- QEMU is started. -/
  starts : WeaklyFair (fun n => (r.state n).qemu = .off) fun n => r.input n = .classInit
  clock : Recurs fun n => ∃ x, r.input n = .sys ⟨.edge x, true⟩
  deliversInit : WeaklyFair (fun n => (r.state n).initsock.InFlight)
    fun n => r.input n = .deliverInit
  deliversConf : WeaklyFair (fun n => (r.state n).initsock2.InFlight)
    fun n => r.input n = .deliverConf
  configures : WeaklyFair
    (fun n => (r.state n).qemu = .waiting ∧ (r.state n).initsock2.Queued)
    fun n => ∃ env, r.input n = .confRecv env
  realizes : WeaklyFair (fun n => (r.state n).qemu = .ready conf) fun n => r.input n = .realize
  delivers : ∀ pipe, WeaklyFair (fun n => ((r.state n).sys.cosim.fifo pipe).InFlight)
    fun n => (r.input n).Is fun e => e.event = .deliver pipe
  receives : WeaklyFair (fun n => (r.state n).sys.cosim.dev.waiting.isSome = true ∧
      (r.state n).sys.cosim.dev.qemuResp.Queued)
    fun n => (r.input n).Is fun e => ∃ env, e.event = .recv env
  activates : StronglyFair (fun n => (r.state n).qemu.isRealized = true ∧
      (r.state n).sys.cosim.handling = false ∧ (r.state n).sys.cosim.dev.waiting = none ∧
      (r.state n).sys.cosim.hdlReq.Queued)
    fun n => (r.input n).Is fun e => e.event = .activate
  iterates : WeaklyFair
    (fun n => (step conf warnMs (r.state n).sys.cosim .iterate).isSome = true)
    fun n => (r.input n).Is fun e => e.event = .iterate

variable {r : BootAlways p conf warnMs} {q : IpParams}

theorem Boots.run (h : Boots q mem m r) (n : Nat) :
    Boot.Run conf warnMs (Boot.init mem m) (r.upTo n) (r.state n) := h.start ▸ r.path n

theorem Boots.agrees (h : Boots q mem m r) (n : Nat) : Agrees conf mem (r.state n) :=
  agrees_run (h.run n)

theorem Boots.upTo_receives (h : Boots q mem m r) (n : Nat) :
    ∀ c ∈ r.upTo n, c.2.Receives warnMs := by
  intro c hc
  obtain ⟨k, _, rfl⟩ := r.mem_upTo hc
  exact h.receives k

theorem Boots.servingRun (h : Boots q mem m r) (n : Nat) :
    ServingRun conf warnMs m (Boot.sysTrace (r.upTo n)) (r.state n).sys :=
  servingRun_boot h.bus (setup_offsets h.conf h.offsets) (h.run n) (h.upTo_receives n)

/-! ## INIT -/

/-- **How far QEMU gets in a step**; it does not exit. -/
theorem Boots.qemu_step (h : Boots q mem m r) (n : Nat) :
    (r.state (n + 1)).qemu = (r.state n).qemu ∧ r.input n ≠ .classInit ∧
        (∀ env, r.input n ≠ .confRecv env) ∧ r.input n ≠ .realize ∨
      (r.state n).qemu = .off ∧ (r.state (n + 1)).qemu = .waiting ∨
      (r.state n).qemu = .waiting ∧ (r.state (n + 1)).qemu = .ready conf ∨
      (r.state n).qemu = .ready conf ∧ (r.state (n + 1)).qemu = .realized conf := by
  have hagrees := h.agrees n
  have hstep := r.next n
  rcases Boot.step_cases hstep with ⟨_, he, _, _, hqemu, _⟩ | ⟨_, hoff, hnext⟩ |
    ⟨env, f, _, he, hwaiting, hrecv, hnext⟩ | ⟨c, _, hready, hnext⟩ | ⟨_, he, _, hnext⟩ |
    ⟨_, he, _, hnext⟩
  · exact Or.inl ⟨hqemu, by simp [he], by simp [he], by simp [he]⟩
  · exact Or.inr (Or.inl ⟨hoff, by rw [hnext]⟩)
  · obtain ⟨g, rfl, hg⟩ := recvLogged_eq_some ((h.receives n).1 env he) hrecv
    obtain ⟨rfl, _⟩ := hagrees.received hg
    refine Or.inr (Or.inr (Or.inl ⟨hwaiting, ?_⟩))
    rw [hnext]
    rfl
  · have hc := hagrees.hdlconf c (by rw [hready]; rfl)
    subst hc
    exact Or.inr (Or.inr (Or.inr ⟨hready, by rw [hnext]⟩))
  · exact Or.inl ⟨by rw [hnext], by simp [he], by simp [he], by simp [he]⟩
  · exact Or.inl ⟨by rw [hnext], by simp [he], by simp [he], by simp [he]⟩

/-- QEMU is started. -/
theorem Boots.started (h : Boots q mem m r) (hfair : BootFair r) :
    ∃ n, (r.state n).qemu = .waiting := by
  by_contra hno
  have hoff : ∀ n, (r.state n).qemu = .off := by
    intro n
    induction n with
    | zero => rw [h.start]; rfl
    | succ n ih =>
      rcases h.qemu_step n with ⟨hsame, _⟩ | ⟨_, hwaiting⟩ | ⟨hwaiting, _⟩ | ⟨hready, _⟩
      · exact hsame.trans ih
      · exact absurd ⟨n + 1, hwaiting⟩ hno
      · exact absurd (ih.symm.trans hwaiting) (by simp)
      · exact absurd (ih.symm.trans hready) (by simp)
  obtain ⟨k, _, hk⟩ := hfair.starts 0 fun n _ => hoff n
  rcases h.qemu_step k with ⟨_, hne, _⟩ | ⟨_, hwaiting⟩ | ⟨hwaiting, _⟩ | ⟨hready, _⟩
  · exact hne hk
  · exact hno ⟨k + 1, hwaiting⟩
  · exact hno ⟨k, hwaiting⟩
  · exact absurd ((hoff k).symm.trans hready) (by simp)

/-- The two pipes of INIT. -/
theorem moves_init {b b' : Boot p} {e : BootEvent p} (h : b.step conf warnMs e = some b') :
    b.initsock.Moves b'.initsock ∧ b.initsock2.Moves b'.initsock2 := by
  rcases Boot.step_cases h with ⟨ev, _, _, _, _, hpoll⟩ | ⟨_, _, rfl⟩ |
    ⟨env, f, q, _, _, hrecv, rfl⟩ | ⟨_, _, _, rfl⟩ | ⟨q, _, hdel, rfl⟩ | ⟨q, _, hdel, rfl⟩
  · rcases Boot.pollInit_eq_some hpoll with ⟨x, f, _, _, hinit, hanswer⟩ | ⟨_, hsame, hsame'⟩
    · rw [hanswer]
      exact ⟨Fifo.Moves.takes hinit, Fifo.Moves.sends [_]⟩
    · rw [hsame, hsame']
      exact ⟨Fifo.Moves.refl _, Fifo.Moves.refl _⟩
  · exact ⟨Fifo.Moves.sends [_], Fifo.Moves.refl _⟩
  · rcases recvLogged_cases hrecv with ⟨_, rfl⟩ | ⟨g, _, hg⟩
    · exact ⟨Fifo.Moves.refl _, Fifo.Moves.refl _⟩
    · exact ⟨Fifo.Moves.refl _, Fifo.Moves.takes hg⟩
  · exact ⟨Fifo.Moves.refl _, Fifo.Moves.refl _⟩
  · exact ⟨Fifo.Moves.arrives hdel, Fifo.Moves.refl _⟩
  · exact ⟨Fifo.Moves.refl _, Fifo.Moves.arrives hdel⟩

/-- INIT comes first on an edge. -/
theorem init_taken_of_edge {b b' : Boot p} {x : Edge p} {respond : Bool} (hq : b.initsock.Queued)
    (h : b.step conf warnMs (.sys ⟨.edge x, respond⟩) = some b') :
    b'.initsock.taken = b.initsock.taken + 1 := by
  rcases Boot.step_cases h with ⟨ev, heq, hallows, _, _, hpoll⟩ | ⟨heq, _⟩ | ⟨_, _, _, heq, _⟩ |
    ⟨_, heq, _⟩ | ⟨_, heq, _⟩ | ⟨_, heq, _⟩
  · cases heq
    have hwait : x.poll = b.zpollerWait := of_decide_eq_true hallows
    have hinit : b.hasFrame .initsock = true := decide_eq_true hq
    have hsel : b.zpollerWait = .initsock := by simp [Boot.zpollerWait, pollList, hinit]
    rcases Boot.pollInit_eq_some hpoll with ⟨y, f, _, _, hrecv, _⟩ | ⟨hother, _⟩
    · exact (Fifo.recv?_eq_some hrecv).2.2.2.1
    · exact absurd (hwait.trans hsel) (hother x rfl)
  · exact absurd heq (by simp)
  · exact absurd heq (by simp)
  · exact absurd heq (by simp)
  · exact absurd heq (by simp)
  · exact absurd heq (by simp)

/-- INIT is polled. -/
theorem BootFair.init_polled (hfair : BootFair r) (n : Nat) :
    ∃ k, n ≤ k ∧ (r.state n).initsock.sent.length ≤ (r.state k).initsock.taken := by
  have hm : ∀ n, (r.state n).initsock.Moves (r.state (n + 1)).initsock :=
    fun n => (moves_init (r.next n)).1
  refine Fifo.allTaken (q := fun n => (r.state n).initsock) hm
    (Fifo.leadsTo_queued hm hfair.deliversInit fun n hn => ?_) (fun m hq => ?_) n
  · have hstep := r.next n
    rw [hn] at hstep
    obtain ⟨q, hq, hnext⟩ := Option.map_eq_some_iff.mp hstep
    rw [← hnext]
    exact hq
  · refine Fifo.exists_taken hm ?_ (WeaklyFair.of_recurs hfair.clock) hq
    rintro k hqk ⟨x, hx⟩
    have hstep := r.next k
    rw [hx] at hstep
    have htaken := init_taken_of_edge hqk hstep
    omega

/-- QEMU gets its answer. -/
theorem Boots.configured (h : Boots q mem m r) (hfair : BootFair r) :
    ∃ n, (r.state n).qemu = .ready conf := by
  by_contra hno
  obtain ⟨n, hn⟩ := h.started hfair
  have hwaiting : ∀ k, n ≤ k → (r.state k).qemu = .waiting := by
    intro k hk
    induction hk with
    | refl => exact hn
    | @step k _ ih =>
      rcases h.qemu_step k with ⟨hsame, _⟩ | ⟨hoff, _⟩ | ⟨_, hready⟩ | ⟨hready, _⟩
      · exact hsame.trans ih
      · exact absurd (ih.symm.trans hoff) (by simp)
      · exact absurd ⟨k + 1, hready⟩ hno
      · exact absurd ⟨k, hready⟩ hno
  have hm : ∀ n, (r.state n).initsock2.Moves (r.state (n + 1)).initsock2 :=
    fun n => (moves_init (r.next n)).2
  -- the INIT is answered
  obtain ⟨a, ha, hpolled⟩ := hfair.init_polled n
  have hsent : (r.state a).initsock2.taken < (r.state a).initsock2.sent.length := by
    rw [(h.agrees a).unread (Or.inr (hwaiting a ha)), (h.agrees a).answers, List.length_replicate]
    rw [(h.agrees n).asked, hn] at hpolled
    exact hpolled
  -- the answer arrives
  obtain ⟨c, hc, hqueued⟩ := Fifo.leadsTo_queued (q := fun n => (r.state n).initsock2) hm
    hfair.deliversConf (fun k hk => by
      have hstep := r.next k
      rw [hk] at hstep
      obtain ⟨q', hq', hnext⟩ := Option.map_eq_some_iff.mp hstep
      rw [← hnext]
      exact hq') a hsent
  -- and is received
  obtain ⟨d, hd, env, henv⟩ := hfair.configures c fun k hk => by
    refine ⟨hwaiting k (by omega), ?_⟩
    rcases Fifo.taken_or_queued_of_moves hm hk hqueued with hlt | ⟨_, hqk⟩
    · rw [(h.agrees k).unread (Or.inr (hwaiting k (by omega)))] at hlt
      exact absurd hlt (Nat.not_lt_zero _)
    · exact hqk
  rcases h.qemu_step d with ⟨_, _, hne, _⟩ | ⟨hoff, _⟩ | ⟨_, hready⟩ | ⟨hready, _⟩
  · exact hne env henv
  · exact absurd ((hwaiting d (by omega)).symm.trans hoff) (by simp)
  · exact hno ⟨d + 1, hready⟩
  · exact hno ⟨d, hready⟩

/-- **The device is plugged**, with the configuration of the HDL side. -/
theorem Boots.plugged (h : Boots q mem m r) (hfair : BootFair r) :
    ∃ n, (r.state n).qemu = .realized conf := by
  by_contra hno
  obtain ⟨n, hn⟩ := h.configured hfair
  have hready : ∀ k, n ≤ k → (r.state k).qemu = .ready conf := by
    intro k hk
    induction hk with
    | refl => exact hn
    | @step k _ ih =>
      rcases h.qemu_step k with ⟨hsame, _⟩ | ⟨hoff, _⟩ | ⟨hwaiting, _⟩ | ⟨_, hrealized⟩
      · exact hsame.trans ih
      · exact absurd (ih.symm.trans hoff) (by simp)
      · exact absurd (ih.symm.trans hwaiting) (by simp)
      · exact absurd ⟨k + 1, hrealized⟩ hno
  obtain ⟨k, hk, hrealize⟩ := hfair.realizes n hready
  rcases h.qemu_step k with ⟨_, _, _, hne⟩ | ⟨hoff, _⟩ | ⟨hwaiting, _⟩ | ⟨_, hrealized⟩
  · exact hne hrealize
  · exact absurd ((hready k hk).symm.trans hoff) (by simp)
  · exact absurd ((hready k hk).symm.trans hwaiting) (by simp)
  · exact hno ⟨k + 1, hrealized⟩

/-! ## The poller -/

/-- The device stays plugged. -/
theorem realized_stays {k n : Nat} (hk : (r.state k).qemu = .realized conf) (hn : k ≤ n) :
    (r.state n).qemu = .realized conf := by
  induction hn with
  | refl => exact hk
  | @step n _ ih => exact realized_step (r.next n) ih

/-- An edge polls what the poller finds. -/
theorem poll_eq {n : Nat} {x : Edge p} {respond : Bool}
    (hx : r.input n = .sys ⟨.edge x, respond⟩) : x.poll = (r.state n).zpollerWait := by
  rcases Boot.sys_step (r.next n) with ⟨ev, heq, hallows, _⟩ | ⟨hother, _⟩
  · rw [hx] at heq
    cases heq
    exact of_decide_eq_true hallows
  · exact absurd hx (hother _)

/-- **No request is left in the queue.** -/
theorem Boots.polls_qemuReq (h : Boots q mem m r) (hfair : BootFair r) : WeaklyFair
    (fun n => (r.state n).qemu.isRealized = true ∧ (r.state n).sys.cosim.dev.qemuReq.Queued)
    fun n => (r.input n).Is fun e => e.event.Polls .qemuReq := by
  intro n hn
  obtain ⟨k, hk, x, hx⟩ := hfair.clock n
  obtain ⟨hr, hq⟩ := hn k hk
  exact ⟨k, hk, _, hx, x, rfl, (poll_eq hx).trans ((h.agrees k).zpollerWait_qemuReq hr hq)⟩

/-- **Nor is an answer.** -/
theorem Boots.polls_hdlResp (h : Boots q mem m r) (hfair : BootFair r) : WeaklyFair
    (fun n => (r.state n).sys.cosim.hdlResp.Queued)
    fun n => (r.input n).Is fun e => e.event.Polls .hdlResp := by
  intro n hq
  by_contra hno
  have hnever : ∀ k, n ≤ k → ¬(r.input k).Is fun e => e.event.Polls .hdlResp :=
    fun k hk hpolls => hno ⟨k, hk, hpolls⟩
  have hoffset := setup_offsets h.conf h.offsets
  obtain ⟨k, hk, x, hx⟩ := hfair.clock n
  have hstep := r.next k
  rw [hx] at hstep
  have hpassed := passedOver_edge h.bus hoffset (h.run k) (h.upTo_receives k) hstep (hq k hk)
    fun hsel => hnever k hk ⟨_, hx, x, rfl, hsel⟩
  -- an edge would take it
  have hstill : ∀ j, k + 1 ≤ j → PassedOver conf (r.state j) := by
    intro j hj
    induction hj with
    | refl => exact hpassed
    | @step j hj ih =>
      refine ih.step h.bus hoffset ?_ (h.receives j) (r.next j)
      rintro ⟨y, ry, hy⟩
      have hstep' := r.next j
      rw [hy] at hstep'
      exact hnever j (Nat.le_trans (Nat.le_succ_of_le hk) hj)
        ⟨_, hy, y, rfl, ih.polls (h.run j) hstep'⟩
  obtain ⟨j, hj, y, hy⟩ := hfair.clock (k + 1)
  have hstep' := r.next j
  rw [hy] at hstep'
  exact hnever j (by omega) ⟨_, hy, y, rfl, (hstill j hj).polls (h.run j) hstep'⟩

/-! ## The run of the system -/

/-- From then on there are no other events. -/
theorem Boots.sysEvent (h : Boots q mem m r) {n : Nat} (hn : (r.state n).qemu = .realized conf) :
    ∃ e, r.input n = .sys e := by
  have hagrees := h.agrees n
  obtain ⟨hpolled, hreceived⟩ := hagrees.polled (by simp [hn, Qemu.hdlconf])
  rcases Boot.step_cases (r.next n) with ⟨ev, he, _⟩ | ⟨_, hoff, _⟩ | ⟨_, _, _, _, hwaiting, _⟩ |
    ⟨_, _, hready, _⟩ | ⟨_, _, hdel, _⟩ | ⟨_, _, hdel, _⟩
  · exact ⟨ev, he⟩
  · exact absurd (hn.symm.trans hoff) (by simp)
  · exact absurd (hn.symm.trans hwaiting) (by simp)
  · exact absurd (hn.symm.trans hready) (by simp)
  · have hle := hagrees.sent_le
    have htaken := (r.state n).initsock.taken_le_sent
    exact absurd (Fifo.inFlight_of_deliver hdel) (Fifo.not_inFlight_of_drained (by omega))
  · have hlen := congrArg List.length hagrees.answers
    rw [List.length_replicate] at hlen
    exact absurd (Fifo.inFlight_of_deliver hdel) (Fifo.not_inFlight_of_drained (by omega))

/-- What the system does in the run: `s` is at `L` where `r` is at `N`, and has done the same. -/
structure SysPart (r : BootAlways p conf warnMs) (N L : Nat) (s : SysAlways p conf warnMs) :
    Prop where
  start : s.state 0 = (r.state 0).sys
  upTo : ∀ i, s.upTo (L + i) = Boot.sysTrace (r.upTo (N + i))
  state : ∀ i, s.state (L + i) = (r.state (N + i)).sys
  input : ∀ i, r.input (N + i) = .sys (s.input (L + i))

theorem Boots.exists_sysPart (h : Boots q mem m r) {N : Nat}
    (hN : (r.state N).qemu = .realized conf) : ∃ L s, SysPart r N L s := by
  have hevent : ∀ i, ∃ e, r.input (N + i) = .sys e := fun i =>
    h.sysEvent (realized_stays hN (Nat.le_add_right N i))
  choose e he using hevent
  -- the rest of the run
  let rest : SysAlways p conf warnMs :=
    { state := fun i => (r.state (N + i)).sys
      input := e
      next := fun i => by
        rcases Boot.sys_step (r.next (N + i)) with ⟨ev, heq, _, hs⟩ | ⟨hother, _⟩
        · rw [he i] at heq
          cases heq
          exact hs
        · exact absurd (he i) (hother _) }
  have htrace : ∀ i, Boot.sysTrace (r.upTo (N + i)) = Boot.sysTrace (r.upTo N) ++ rest.upTo i := by
    intro i
    rw [Forever.upTo_add, Boot.sysTrace_append]
    congr 1
    unfold Forever.upTo Boot.sysTrace
    rw [List.filterMap_map, ← List.filterMap_eq_map]
    refine List.filterMap_congr fun k _ => ?_
    simp [he k, rest]
  obtain ⟨s, hstart, hs⟩ := rest.exists_prepend (Boot.run_sys (r.path N))
  exact ⟨_, s, hstart, fun i => (hs i).1.trans (htrace i).symm, fun i => (hs i).2.1, fun i => by
    rw [(hs i).2.2]
    exact he i⟩

namespace SysPart

variable {N L : Nat} {s : SysAlways p conf warnMs}

/-- Every step of the system is one of the run. -/
theorem exists_step (h : SysPart r N L s) (n : Nat) :
    ∃ k, r.input k = .sys (s.input n) ∧ (r.state k).sys = s.state n := by
  have hmem : (s.state n, s.input n) ∈ s.upTo (L + (n + 1)) := s.step_mem_upTo (by omega)
  rw [h.upTo] at hmem
  obtain ⟨a, ha, hsys⟩ := Boot.mem_sysTrace hmem
  obtain ⟨k, _, heq⟩ := r.mem_upTo ha
  obtain ⟨rfl, he⟩ := Prod.ext_iff.mp heq
  exact ⟨k, he.symm, hsys⟩

theorem serves (h : SysPart r N L s) (hr : Boots q mem m r) : s.Serves mem m := by
  refine ⟨hr.bus, setup_offsets hr.conf hr.offsets, ?_, fun n renv hev => ?_, fun n a hev => ?_⟩
  · rw [h.start, hr.start]
    rfl
  · obtain ⟨k, he, _⟩ := h.exists_step n
    exact (hr.receives k).2 _ renv he hev
  · obtain ⟨k, he, _⟩ := h.exists_step n
    rcases Boot.sys_step (r.next k) with ⟨ev, heq, hallows, _⟩ | ⟨hother, _⟩
    · rw [he] at heq
      cases heq
      exact (hr.agrees k).call_valid hallows hev
    · exact absurd he (hother _)

/-- The event of the run is that of the system. -/
theorem is_input (h : SysPart r N L s) {P : SysEvent p → Prop} {i : Nat}
    (hi : (r.input (N + i)).Is P) : P (s.input (L + i)) := by
  obtain ⟨e, he, hP⟩ := hi
  rw [h.input i] at he
  cases he
  exact hP

theorem clocked (h : SysPart r N L s) (hfair : BootFair r) : s.Clocked := by
  refine hfair.clock.shift (N := N) (L := L) fun i hi => ?_
  obtain ⟨x, hx⟩ := hi
  rw [h.input i] at hx
  exact ⟨x, BootEvent.sys.inj hx⟩

/-- An event of the co-simulation that the RAM does not drive. -/
theorem cosim_input (h : SysPart r N L s) {e : Event p} (hno : ∀ x, e ≠ .edge x) {i : Nat}
    (hi : (r.input (N + i)).Is fun ev => ev.event = e) : s.cosim.input (L + i) = e := by
  have hev : (s.input (L + i)).event = e := h.is_input hi
  show (s.input (L + i)).driven (s.state (L + i)).ram = e
  cases e with
  | edge x => exact absurd rfl (hno x)
  | _ => rw [SysEvent.driven, hev]

theorem fair (h : SysPart r N L s) (hr : Boots q mem m r) (hfair : BootFair r)
    (hN : (r.state N).qemu = .realized conf) : Fair s.cosim := by
  have hcosim : ∀ i, s.cosim.state (L + i) = (r.state (N + i)).sys.cosim :=
    fun i => congrArg Sys.cosim (h.state i)
  have hrealized : ∀ i, (r.state (N + i)).qemu.isRealized = true := fun i => by
    rw [realized_stays hN (Nat.le_add_right N i)]
    rfl
  refine ⟨fun pipe => ?_, fun sel pipe hsel => ?_, ?_⟩
  · refine (hfair.delivers pipe).shift (N := N) (L := L) (fun i hen => ?_) fun i hi => ?_
    · rwa [hcosim i] at hen
    · exact h.cosim_input (by simp) hi
  · have hpolls : ∀ i, ((r.input (N + i)).Is fun e => e.event.Polls sel) →
        (s.cosim.input (L + i)).Polls sel := by
      intro i hi
      obtain ⟨x, hx, hpoll⟩ := h.is_input hi
      exact ⟨_, SysEvent.driven_edge hx, hpoll⟩
    cases sel with
    | none => exact absurd hsel (by simp [PollSel.pipe])
    | initsock => exact absurd hsel (by simp [PollSel.pipe])
    | qemuReq =>
      cases hsel
      refine (hr.polls_qemuReq hfair).shift (N := N) (L := L) (fun i hen => ?_) hpolls
      rw [hcosim i] at hen
      exact ⟨hrealized i, hen⟩
    | hdlResp =>
      cases hsel
      refine (hr.polls_hdlResp hfair).shift (N := N) (L := L) (fun i hen => ?_) hpolls
      rwa [hcosim i] at hen
  · refine hfair.receives.shift (N := N) (L := L) (fun i hen => ?_) fun i hi => ?_
    · rwa [hcosim i] at hen
    · obtain ⟨e, he, env, henv⟩ := hi
      exact ⟨env, h.cosim_input (by simp) ⟨e, he, henv⟩⟩

theorem fairHandler (h : SysPart r N L s) (hfair : BootFair r)
    (hN : (r.state N).qemu = .realized conf) : FairHandler s.cosim := by
  have hcosim : ∀ i, s.cosim.state (L + i) = (r.state (N + i)).sys.cosim :=
    fun i => congrArg Sys.cosim (h.state i)
  refine ⟨hfair.activates.shift (N := N) (L := L) (fun i hen => ?_)
    fun i => h.cosim_input (by simp), hfair.iterates.shift (N := N) (L := L) (fun i hen => ?_)
    fun i => h.cosim_input (by simp)⟩
  · rw [hcosim i] at hen
    refine ⟨?_, hen⟩
    rw [realized_stays hN (Nat.le_add_right N i)]
    rfl
  · rwa [hcosim i] at hen

end SysPart

/-! ## Everything is served -/

/-- What the HDL master does with its DMA channels. -/
structure BootMaster (r : BootAlways p conf warnMs) : Prop where
  /-- No read address in reset. -/
  quiet : ∀ n e, r.input n = .sys e →
    NoReadInReset (r.state n).sys.cosim (e.driven (r.state n).sys.ram)
  /-- The last beat of a burst is taken when it is shown. -/
  last : ∀ n e, r.input n = .sys e →
    TakesLast (r.state n).sys.cosim (e.driven (r.state n).sys.ram)
  /-- A request moves no more than a frame holds. -/
  fits : ∀ n, ∀ f ∈ (r.state n).sys.cosim.hdlReq.sent, f.Fits
  rready : Recurs fun n => (r.input n).Is fun e => ∃ x, e.event = .edge x ∧ x.inp.iSRready = true
  bready : Recurs fun n => (r.input n).Is fun e => ∃ x, e.event = .edge x ∧ x.inp.iSBready = true

/-- No request is polled so early that its pulse meets the reset. -/
def LateAccess (r : BootAlways p conf warnMs) : Prop :=
  ∀ n e, r.input n = .sys e → e.event.Polls .qemuReq → 99 ≤ (r.state n).sys.cosim.ip.edges

theorem SysPart.noneLost {N L : Nat} {s : SysAlways p conf warnMs} (h : SysPart r N L s)
    (hlate : LateAccess r) : s.NoneLost := by
  intro n hpolls
  obtain ⟨k, he, hs⟩ := h.exists_step n
  rw [← hs]
  exact hlate k _ he hpolls

theorem SysPart.masterReady {N L : Nat} {s : SysAlways p conf warnMs} (h : SysPart r N L s)
    (hmaster : BootMaster r) : MasterReady s.cosim := by
  refine ⟨fun n => ?_, fun n => ?_, fun n => ?_, ?_, ?_⟩
  · obtain ⟨k, he, hs⟩ := h.exists_step n
    have hquiet := hmaster.quiet k _ he
    rwa [hs] at hquiet
  · obtain ⟨k, he, hs⟩ := h.exists_step n
    have hlast := hmaster.last k _ he
    rwa [hs] at hlast
  · obtain ⟨k, _, hs⟩ := h.exists_step n
    show ∀ f ∈ (s.state n).cosim.hdlReq.sent, f.Fits
    rw [← hs]
    exact hmaster.fits k
  · refine hmaster.rready.shift (N := N) (L := L) fun i hi => ?_
    obtain ⟨x, hx, hready⟩ := h.is_input hi
    exact ⟨_, SysEvent.driven_edge hx, hready⟩
  · refine hmaster.bready.shift (N := N) (L := L) fun i hi => ?_
    obtain ⟨x, hx, hready⟩ := h.is_input hi
    exact ⟨_, SysEvent.driven_edge hx, hready⟩

/-- What the co-simulation has done before `n`. -/
def dmaTrace (r : BootAlways p conf warnMs) (n : Nat) : List (State p × Event p) :=
  Sys.cosimTrace (Boot.sysTrace (r.upTo n))

/-- What the HDL side asked for before `n` is done before `k`. -/
structure BootDone (r : BootAlways p conf warnMs) (n k : Nat) : Prop where
  executed : (r.state n).sys.cosim.hdlReq.sent.length ≤ (r.state k).sys.cosim.hdlReq.taken
  handedOver : beatCount (events readCalls (dmaTrace r n))
    ≤ (events rHandshakes (dmaTrace r k)).length
  acked : (events issued (dmaTrace r n)).countP ACCData.isWrite
    ≤ (events bHandshakes (dmaTrace r k)).length

/-- **The device is plugged at `n₀`, and works from then on.** -/
structure InService (m : Mem) (r : BootAlways p conf warnMs) (n₀ : Nat) : Prop where
  plugged : (r.state n₀).qemu = .realized conf
  /-- The accesses so far return, with what a byte memory would return. -/
  accesses : ∀ n, n₀ ≤ n → ∃ k, n ≤ k ∧ events (Sys.results warnMs) (Boot.sysTrace (r.upTo k))
    = specResults conf m (events Sys.calls (Boot.sysTrace (r.upTo n)))
  /-- What the HDL side asks for, and has asked for, is done. -/
  requests : ∀ n, n₀ ≤ n → ∃ k, n ≤ k ∧ BootDone r n k

/-- What is true of the run of the system is true of the whole. -/
theorem SysPart.inService {N L : Nat} {s : SysAlways p conf warnMs} (h : SysPart r N L s)
    (hN : (r.state N).qemu = .realized conf)
    (hacc : ∀ n, ∃ k, n ≤ k ∧ events (Sys.results warnMs) (s.upTo k)
      = specResults conf m (events Sys.calls (s.upTo n)))
    (hdone : ∀ n, ∃ k, n ≤ k ∧ DmaDone s.cosim n k) : InService m r N := by
  have hcosim : ∀ i, s.cosim.upTo (L + i) = dmaTrace r (N + i) := fun i => by
    rw [s.cosim_upTo, h.upTo i]
    rfl
  refine ⟨hN, fun n hn => ?_, fun n hn => ?_⟩
  · obtain ⟨i, rfl⟩ := Nat.exists_eq_add_of_le hn
    obtain ⟨k, hk, heq⟩ := hacc (L + i)
    obtain ⟨j, rfl⟩ := Nat.exists_eq_add_of_le (Nat.le_trans (Nat.le_add_right L i) hk)
    rw [h.upTo, h.upTo] at heq
    exact ⟨N + j, by omega, heq⟩
  · obtain ⟨i, rfl⟩ := Nat.exists_eq_add_of_le hn
    obtain ⟨k, hk, hexecuted, hhanded, hacked⟩ := hdone (L + i)
    obtain ⟨j, rfl⟩ := Nat.exists_eq_add_of_le (Nat.le_trans (Nat.le_add_right L i) hk)
    rw [hcosim, hcosim] at hhanded hacked
    refine ⟨N + j, by omega, ?_, hhanded, hacked⟩
    have hi : s.cosim.state (L + i) = _ := congrArg Sys.cosim (h.state i)
    have hj : s.cosim.state (L + j) = _ := congrArg Sys.cosim (h.state j)
    rwa [hi, hj] at hexecuted

/-- **From power on, everything is served**: in any fair run, whichever of the two processes is
started first, and with `zpoller_wait` as it is. -/
theorem powerOnLive (h : Boots q mem m r) (hfair : BootFair r) (hmaster : BootMaster r)
    (hlate : LateAccess r) : ∃ n₀, InService m r n₀ := by
  obtain ⟨N, hN⟩ := h.plugged hfair
  obtain ⟨L, s, hs⟩ := h.exists_sysPart hN
  have hserves := hs.serves h
  have hclk := hs.clocked hfair
  have hsockets := hs.fair h hfair hN
  have hnone := hs.noneLost hlate
  have h0 : s.cosim.state 0 = init mem := congrArg Sys.cosim hserves.start
  exact ⟨N, hs.inService hN (hserves.accessesReturn hclk hsockets hnone)
    (done_always hsockets (hs.fairHandler hfair hN) (hs.masterReady hmaster) h0
      (hserves.returns hclk hsockets hnone))⟩

/-! ## After a start, two accesses and DMA the clock goes on -/

/-- Nothing is left to do, and INIT is over. -/
structure BootIdle (b : Boot bus64) : Prop where
  sys : Idle b.sys
  qemu : b.qemu = .realized defaultConf
  initsock : b.initsock.sent.length = b.initsock.taken
  initsock2 : b.initsock2.sent.length = b.initsock2.taken

/-- The poller finds nothing. -/
theorem BootIdle.zpollerWait {b : Boot bus64} (h : BootIdle b) : b.zpollerWait = .none := by
  have hinit : b.hasFrame .initsock = false :=
    decide_eq_false (Fifo.not_queued_of_drained h.initsock)
  have hreq : b.hasFrame .qemuReq = false :=
    decide_eq_false (Fifo.not_queued_of_drained (h.sys.drained .qemuReq))
  have hresp : b.hasFrame .hdlResp = false :=
    decide_eq_false (Fifo.not_queued_of_drained (h.sys.drained .hdlResp))
  simp [Boot.zpollerWait, pollList, hinit, hreq, hresp]

theorem BootIdle.step {b : Boot bus64} (h : BootIdle b) :
    ∃ b', b.step defaultConf 0 (.sys (sysEdge .none readyInput)) = some b' ∧ BootIdle b' := by
  obtain ⟨s, hs, hidle⟩ := h.sys.step
  have hallows : b.allows (sysEdge .none readyInput).event = true :=
    decide_eq_true h.zpollerWait.symm
  refine ⟨{ b with sys := s }, ?_, hidle, h.qemu, h.initsock, h.initsock2⟩
  simp only [Boot.step]
  rw [if_pos hallows, hs]
  rfl

/-- From power on. -/
def wholeBoot : List (BootEvent bus64) := resetEvents ++ accessesAndHandler.map .sys

theorem run_wholeBoot : ∃ b, runM (Boot.step defaultConf 0) (Boot.init (fun _ => 0) fun _ => 0)
    wholeBoot = some b ∧ BootIdle b := by
  have hrun : ∃ b, runM (Boot.step defaultConf 0) (plugged 100) (accessesAndHandler.map .sys)
      = some b ∧ b.qemu = .realized defaultConf ∧ b.initsock.sent.length = b.initsock.taken ∧
      b.initsock2.sent.length = b.initsock2.taken := ⟨_, rfl, rfl, rfl, rfl⟩
  obtain ⟨b, hrun, hqemu, hinit, hinit2⟩ := hrun
  obtain ⟨t, ht, hidle⟩ := run_wholeRun
  rw [wholeRun, runM_append, run_sysInReset, Option.bind_some] at ht
  have hsys : b.sys = t := Option.some.inj ((Boot.runM_sys hrun).1.symm.trans ht)
  refine ⟨b, ?_, hsys ▸ hidle, hqemu, hinit, hinit2⟩
  rw [wholeBoot, runM_append, run_resetEvents, Option.bind_some, hrun]

/-- The first edge polls INIT, and what follows is `wholeRun`. -/
theorem sysTrace_wholeBoot : ∃ tr, Boot.sysTrace (traceM (Boot.step defaultConf 0)
      (Boot.init (fun _ => 0) fun _ => 0) wholeBoot)
      = (Sys.init (fun _ => 0) fun _ => 0, sysEdge .initsock readyInput) :: tr ∧
    traceM (Sys.step defaultConf 0) (Sys.init (fun _ => 0) fun _ => 0) wholeRun
      = (Sys.init (fun _ => 0) fun _ => 0, sysEdge .none readyInput) :: tr := by
  obtain ⟨b, hrun, _⟩ := run_wholeBoot
  rw [wholeBoot, runM_append, run_resetEvents, Option.bind_some] at hrun
  have hfirst : (Sys.init (fun _ => 0) fun _ => 0).step defaultConf 0 (sysEdge .none readyInput)
      = some (sysInReset 1) := sys_step_reset _ _ (Nat.zero_lt_succ 99)
  have hrest := run_plugged 1 99 (Nat.le_refl _)
  rw [← List.map_replicate] at hrest
  have hedges := (Boot.runM_sys hrest).2
  rw [List.map_replicate] at hedges
  refine ⟨traceM (Sys.step defaultConf 0) (sysInReset 1)
      (List.replicate 99 (sysEdge .none readyInput)) ++
    traceM (Sys.step defaultConf 0) (sysInReset 100) accessesAndHandler, ?_, ?_⟩
  · rw [wholeBoot, traceM_append _ run_resetEvents, resetEvents, traceM_append _ run_startUp,
      Boot.sysTrace_append, Boot.sysTrace_append, hedges, (Boot.runM_sys hrun).2]
    rfl
  · rw [wholeRun, traceM_append _ run_sysInReset, List.replicate_succ, traceM, hfirst]
    rfl

/-- The run goes on with the clock. -/
structure BootGoesOn (r : BootAlways bus64 defaultConf 0) : Prop where
  start : r.state 0 = Boot.init (fun _ => 0) fun _ => 0
  trace : r.upTo wholeBoot.length
    = traceM (Boot.step defaultConf 0) (Boot.init (fun _ => 0) fun _ => 0) wholeBoot
  rest : ∀ n, wholeBoot.length ≤ n →
    r.input n = .sys (sysEdge .none readyInput) ∧ BootIdle (r.state n)

theorem exists_bootGoesOn : ∃ r, BootGoesOn r := by
  obtain ⟨t, hrun, hidle⟩ := run_wholeBoot
  obtain ⟨r, hstart, htrace, hrest⟩ := Forever.of_stay hrun hidle fun _ h => h.step
  exact ⟨r, hstart, htrace, hrest⟩

namespace BootGoesOn

variable {r : BootAlways bus64 defaultConf 0}

/-- What holds of the edges of the reset, of what follows and of the edges in idle holds of every
event of the system in the run. -/
theorem all (h : BootGoesOn r) {P : Sys bus64 × SysEvent bus64 → Prop}
    (hfirst : P (Sys.init (fun _ => 0) fun _ => 0, sysEdge .initsock readyInput))
    (hreset : ∀ k, P (sysInReset k, sysEdge .none readyInput))
    (hrest : ∀ c ∈ traceM (Sys.step defaultConf 0) (sysInReset 100) accessesAndHandler, P c)
    (hidle : ∀ s, Idle s → P (s, sysEdge .none readyInput)) (n : Nat) (e : SysEvent bus64)
    (he : r.input n = .sys e) : P ((r.state n).sys, e) := by
  by_cases hn : n < wholeBoot.length
  · have hmem := r.step_mem_upTo hn
    rw [h.trace, he] at hmem
    have hsys := Boot.mem_sysTrace_of_mem hmem
    obtain ⟨tr, hboot, hwhole⟩ := sysTrace_wholeBoot
    rw [hboot] at hsys
    rcases List.mem_cons.mp hsys with heq | hsys
    · rw [heq]
      exact hfirst
    · refine forall_wholeRun hreset hrest _ ?_
      rw [hwhole]
      exact List.mem_cons_of_mem _ hsys
  · obtain ⟨hedge, hs⟩ := h.rest n (Nat.le_of_not_lt hn)
    rw [hedge] at he
    cases he
    exact hidle _ hs.sys

theorem boots (h : BootGoesOn r) : Boots IpParams.default (fun _ => 0) (fun _ => 0) r := by
  refine ⟨setup_default, by decide, by decide, h.start, fun n => ?_⟩
  have hreceives : accessesAndHandler.all receives = true := rfl
  by_cases hn : n < wholeBoot.length
  · have hmem := r.step_mem_upTo hn
    rw [h.trace] at hmem
    rcases List.mem_append.mp (snd_mem_of_traceM hmem) with he | he
    · exact receives_resetEvents _ he
    · obtain ⟨e, hmem, heq⟩ := List.mem_map.mp he
      rw [show r.input n = .sys e from heq.symm]
      exact receives_of_bootReceives (List.all_eq_true.mp hreceives e hmem)
  · rw [(h.rest n (Nat.le_of_not_lt hn)).1]
    exact receives_edge _ true

theorem fair (h : BootGoesOn r) : BootFair r := by
  have hidle : ∀ n, wholeBoot.length ≤ n → BootIdle (r.state n) := fun n hn => (h.rest n hn).2
  refine ⟨?_, fun n => ?_, ?_, ?_, ?_, ?_, fun pipe => ?_, ?_, ?_, ?_⟩
  · exact WeaklyFair.of_never wholeBoot.length fun n hn hoff =>
      absurd ((hidle n hn).qemu.symm.trans hoff) (by simp)
  · exact ⟨max n wholeBoot.length, Nat.le_max_left _ _, _, (h.rest _ (Nat.le_max_right _ _)).1⟩
  · exact WeaklyFair.of_never wholeBoot.length fun n hn =>
      Fifo.not_inFlight_of_drained (hidle n hn).initsock
  · exact WeaklyFair.of_never wholeBoot.length fun n hn =>
      Fifo.not_inFlight_of_drained (hidle n hn).initsock2
  · exact WeaklyFair.of_never wholeBoot.length fun n hn hwaiting =>
      absurd ((hidle n hn).qemu.symm.trans hwaiting.1) (by simp)
  · exact WeaklyFair.of_never wholeBoot.length fun n hn hready =>
      absurd ((hidle n hn).qemu.symm.trans hready) (by simp)
  · exact WeaklyFair.of_never wholeBoot.length fun n hn =>
      Fifo.not_inFlight_of_drained ((hidle n hn).sys.drained pipe)
  · exact WeaklyFair.of_never wholeBoot.length fun n hn hw =>
      Fifo.not_queued_of_drained ((hidle n hn).sys.drained .qemuResp) hw.2
  · exact StronglyFair.of_never wholeBoot.length fun n hn hen =>
      Fifo.not_queued_of_drained ((hidle n hn).sys.drained .hdlReq) hen.2.2.2
  · refine WeaklyFair.of_never wholeBoot.length fun n hn hen => ?_
    obtain ⟨s', hs'⟩ := Option.isSome_iff_exists.mp hen
    exact absurd ((hidle n hn).sys.handling.symm.trans (step_iterate hs').1) (by simp)

theorem ready (h : BootGoesOn r) (n : Nat) : ∃ k, n ≤ k ∧ (r.input k).Is fun e =>
    ∃ x, e.event = .edge x ∧ x.inp.iSRready = true ∧ x.inp.iSBready = true :=
  ⟨max n wholeBoot.length, Nat.le_max_left _ _, _, (h.rest _ (Nat.le_max_right _ _)).1, _, rfl, rfl,
    rfl⟩

theorem master (h : BootGoesOn r) : BootMaster r := by
  have hrest : (traceM (Sys.step defaultConf 0) (sysInReset 100) accessesAndHandler).all
      masterReady = true := rfl
  have hall : ∀ n e, r.input n = .sys e → masterReady ((r.state n).sys, e) = true :=
    h.all (P := fun c => masterReady c = true) rfl (fun k => masterReady_edge _ rfl)
      (List.all_eq_true.mp hrest) fun s hs => masterReady_edge s hs.sw
  refine ⟨fun n e he => (spec_of_masterReady (hall n e he)).2.1,
    fun n e he => (spec_of_masterReady (hall n e he)).2.2, fun n f hf _ => ?_, fun n => ?_,
    fun n => ?_⟩
  · rw [sent_run (Sys.run_cosim (Boot.run_sys (h.boots.run n)))] at hf
    obtain ⟨_, hc, hfc⟩ := List.mem_flatMap.mp hf
    obtain ⟨_, hd, rfl⟩ := List.mem_map.mp hc
    obtain ⟨a, ha, hsys⟩ := Boot.mem_sysTrace hd
    obtain ⟨k, _, heq⟩ := r.mem_upTo ha
    obtain ⟨rfl, he⟩ := Prod.ext_iff.mp heq
    rw [← hsys] at hfc
    exact (spec_of_masterReady (hall k _ he.symm)).1 f hfc
  · obtain ⟨k, hk, e, he, x, hx, hready, _⟩ := h.ready n
    exact ⟨k, hk, e, he, x, hx, hready⟩
  · obtain ⟨k, hk, e, he, x, hx, _, hready⟩ := h.ready n
    exact ⟨k, hk, e, he, x, hx, hready⟩

theorem lateAccess (h : BootGoesOn r) : LateAccess r := by
  have hrest : (traceM (Sys.step defaultConf 0) (sysInReset 100) accessesAndHandler).all pollsLate
      = true := rfl
  have hlate : ∀ n e, r.input n = .sys e → pollsLate ((r.state n).sys, e) = true :=
    h.all (P := fun c => pollsLate c = true) rfl (fun _ => rfl) (List.all_eq_true.mp hrest)
      fun _ _ => rfl
  rintro n e he ⟨x, hx, hsel⟩
  exact late_of_pollsLate (hlate n e he) hx hsel

/-- What the guest does in it. -/
theorem calls (h : BootGoesOn r) {n : Nat} (hn : wholeBoot.length ≤ n) :
    events Sys.calls (Boot.sysTrace (r.upTo n)) = overlapping.map Prod.fst := by
  induction hn with
  | refl =>
    obtain ⟨tr, hboot, hwhole⟩ := sysTrace_wholeBoot
    have hcalls := calls_wholeRun
    rw [hwhole, events_cons] at hcalls
    rw [h.trace, hboot, events_cons]
    exact hcalls
  | @step n hn ih =>
    rw [Forever.upTo_succ, Boot.sysTrace_append, events_append, ih, (h.rest n hn).1]
    rfl

end BootGoesOn

/-- QEMU finds the HDL side, both accesses return, and the read sees the two bytes. -/
theorem powerOnLive_wholeBoot : ∃ r : BootAlways bus64 defaultConf 0,
    Boots IpParams.default (fun _ => 0) (fun _ => 0) r ∧ BootFair r ∧ BootMaster r ∧
      LateAccess r ∧ ∃ n₀ k, (r.state n₀).qemu = .realized defaultConf ∧
        events (Sys.results 0) (Boot.sysTrace (r.upTo k)) = [none, some 0xBBAA0000] := by
  obtain ⟨r, hr⟩ := exists_bootGoesOn
  refine ⟨r, hr.boots, hr.fair, hr.master, hr.lateAccess, ?_⟩
  obtain ⟨n₀, hserved⟩ := powerOnLive hr.boots hr.fair hr.master hr.lateAccess
  obtain ⟨k, _, hk⟩ := hserved.accesses (max n₀ wholeBoot.length) (Nat.le_max_left _ _)
  refine ⟨n₀, k, hserved.plugged, hk.trans ?_⟩
  rw [hr.calls (Nat.le_max_right _ _)]
  decide

end QemuHdlSim.Cosim
