import QemuHdlSim.System.Fair
import QemuHdlSim.Properties.MmioSystem

/-!
# Every access returns

The comment of the reads says that they "can hang indefinitely". When do they? In a run without end
whose sockets, clock and RAM are fair, an access hangs if and only if its request is polled before
the reset is over: then the pulse of `C_poll` meets a master that does not look. All the others
return, with the value that `MmioSystem` says.

* `At.step` — where a step takes the access that waits
* `returns` — it returns, unless it was lost
* `mmioLive` — when all accesses return
-/

namespace QemuHdlSim.Cosim

open Infra Axi4Ip Loop

variable {p : BusParams} {conf : ACCConf} {warnMs : Int}

/-- A run of the system without end. -/
abbrev SysAlways (p : BusParams) (conf : ACCConf) (warnMs : Int) :=
  Forever fun (a : Sys p) e b => a.step conf warnMs e = some b

namespace SysAlways

/-- The co-simulation in it. -/
def cosim (r : SysAlways p conf warnMs) : Always p conf warnMs where
  state n := (r.state n).cosim
  input n := (r.input n).driven (r.state n).ram
  next n := by
    obtain ⟨c, hc, h⟩ := Option.map_eq_some_iff.mp (r.next n)
    rw [← h]
    exact hc

theorem cosim_upTo (r : SysAlways p conf warnMs) (n : Nat) :
    r.cosim.upTo n = Sys.cosimTrace (r.upTo n) := by
  unfold Forever.upTo Sys.cosimTrace
  rw [List.map_map]
  rfl

/-- The clock does not stop, nor does the RAM. -/
def Clocked (r : SysAlways p conf warnMs) : Prop := Recurs fun n => ∃ x, r.input n = ⟨.edge x, true⟩

/-- No request is polled so early that its pulse meets the reset. -/
def NoneLost (r : SysAlways p conf warnMs) : Prop :=
  ∀ n, (r.input n).event.Polls .qemuReq → 99 ≤ (r.state n).cosim.ip.edges

/-- What a run starts from, and what the guest and the world may do in it. -/
structure Serves (mem m : Mem) (r : SysAlways p conf warnMs) : Prop where
  bus : 3 ≤ p.log2Stbw
  offsets : ∀ k, (conf.bar k).offset.toNat % p.stbw = 0
  start : r.state 0 = Sys.init mem m
  receives : ∀ n renv, (r.input n).event = .recv renv → renv.fails warnMs = false
  accesses : ∀ n a, (r.input n).event = .call a → a.Valid conf

end SysAlways

/-! ## Where the access is -/

variable {s s' : Sys p} {e : SysEvent p} {pt : Point}

/-- The access that waits is at the point. -/
def At (conf : ACCConf) (pt : Point) (s : Sys p) : Prop :=
  ∃ m a, s.waiting = some a ∧ a.Valid conf ∧ Stage conf m a s.loop pt

theorem At.waits (h : At conf pt s) : s.waiting ≠ none := by
  obtain ⟨m, a, hwait, _⟩ := h
  rw [hwait]
  simp

/-- A point from which an access gets on. -/
def Point.Alive (pt : Point) : Prop := pt ≠ .losing ∧ pt ≠ .lost

/-- Only a poll in reset loses an access. -/
theorem Point.Alive.next (h : pt.Alive) {rd polls early responds : Bool}
    (hearly : polls = true → early = false) : (pt.next rd polls early responds).Alive := by
  cases pt with
  | losing => exact absurd rfl h.1
  | lost => exact absurd rfl h.2
  | asked =>
    cases polls with
    | false => exact h
    | true => cases rd <;> simp [Point.next, hearly rfl, Point.Alive]
  | arTaken => cases responds <;> simp [Point.next, Point.Alive]
  | wTaken => cases responds <;> simp [Point.next, Point.Alive]
  | _ => simp [Point.next, Point.Alive]

/-- **Where a step takes it.** -/
theorem At.step (hbus : 3 ≤ p.log2Stbw) (hoff : ∀ k, (conf.bar k).offset.toNat % p.stbw = 0)
    (hw : s.Whole) (hok : ∀ renv, e.event = .recv renv → renv.fails warnMs = false)
    (h : At conf pt s) (hstep : s.step conf warnMs e = some s') :
    (∃ x rd, e.event = .edge x ∧ At conf (pt.next rd (s.env x e.respond).pollsRequest
        (decide (s.cosim.ip.edges < 99)) e.respond) s') ∨
      (pt = .answered ∧ (∃ renv, e.event = .recv renv) ∧ s'.waiting = none) ∨
      (e.IsSilent ∧ At conf pt s') := by
  obtain ⟨m, a, hwait, hvalid, hstage⟩ := h
  rcases Sys.step_cases hw hok hstep with ⟨x, hev, hfits, hedge, hwait', _⟩ |
    ⟨_, _, _, hnone, _⟩ | ⟨renv, _, f, q, hev, _, hwait', hq, _⟩ | ⟨hsilent, hloop, hwait', _⟩
  · exact Or.inl ⟨x, a.isRead, hev, m, a, hwait'.trans hwait, hvalid,
      hstage.edge hbus hoff hvalid hfits hedge⟩
  · exact absurd (hwait.symm.trans hnone) (by simp)
  · rcases hstage.resp with hnil | ⟨hpt, _⟩
    · exact absurd (hnil.symm.trans hq) (by simp)
    · exact Or.inr (Or.inl ⟨hpt, ⟨renv, hev⟩, hwait'⟩)
  · exact Or.inr (Or.inr ⟨hsilent, m, a, hwait'.trans hwait, hvalid, by rw [hloop]; exact hstage⟩)

/-! ## The two pipes of the accesses -/

/-- Before a request is polled it is on `qemu_req`, and after that there is none. -/
theorem Stage.req {m : Mem} {a : Access} {l : Loop p} (h : Stage conf m a l pt) :
    l.qemuReq = [] ∨ pt = .asked ∧ ∃ f, l.qemuReq = [f] := by
  cases pt with
  | asked =>
    obtain ⟨txid, h⟩ := h
    exact Or.inr ⟨rfl, _, h.req⟩
  | losing =>
    obtain ⟨_, _, _, h⟩ := h
    exact Or.inl h.req
  | lost => exact Or.inl (Phase.req h)
  | readPolled => exact Or.inl h.2.1.req
  | arShown => exact Or.inl h.2.req
  | arTaken =>
    obtain ⟨_, _, h⟩ := h
    exact Or.inl h.req
  | writePolled =>
    obtain ⟨_, _, _, _, h⟩ := h
    exact Or.inl h.1.req
  | awShown =>
    obtain ⟨_, _, _, _, h⟩ := h
    exact Or.inl h.req
  | wShown =>
    obtain ⟨_, _, _, _, _, h⟩ := h
    exact Or.inl h.req
  | wTaken => exact Or.inl h.2.req
  | answered =>
    obtain ⟨f, h, _⟩ := h
    exact Or.inl h.req

theorem At.asked_pending (h : At conf .asked s) : s.cosim.dev.qemuReq.pending.length = 1 := by
  obtain ⟨m, a, _, _, txid, hstage⟩ := h
  exact congrArg List.length hstage.req

theorem At.answered_pending (h : At conf .answered s) :
    s.cosim.dev.qemuResp.pending.length = 1 := by
  obtain ⟨m, a, _, _, f, hstage, _⟩ := h
  have hlen := congrArg List.length hstage.resp
  rwa [Sys.loop, List.length_map] at hlen

/-- What is polled on an edge was queued. -/
theorem queued_of_polls {x : Edge p} {c : State p} {conf : ACCConf} {s : State p}
    (h : s.edge conf x = some c) (hx : x.poll = .qemuReq) : s.dev.qemuReq.Queued := by
  obtain ⟨⟨sock, t⟩, hpoll, _⟩ := Option.bind_eq_some_iff.mp h
  have hpoll' : s.poll x.poll = some (sock, t) := hpoll
  rw [hx] at hpoll'
  obtain ⟨⟨f, q⟩, hrecv, _⟩ := Option.map_eq_some_iff.mp hpoll'
  exact (Fifo.recv?_eq_some hrecv).1

/-- A request in the queue is that of an access that waits for its poll. -/
theorem asked_of_queued {past : List (Sys p × SysEvent p)} {m : Mem}
    (h : ServingRun conf warnMs m past s) (hq : s.cosim.dev.qemuReq.Queued) :
    At conf .asked s := by
  obtain ⟨_, hserving⟩ := h
  have hpending := Fifo.pending_of_queued hq
  cases hwait : s.waiting with
  | none =>
    rw [hwait] at hserving
    exact absurd hserving.2.req hpending
  | some a =>
    rw [hwait] at hserving
    obtain ⟨done, _, _, hvalid, pt, hstage⟩ := hserving
    rcases hstage.req with hnil | ⟨rfl, _⟩
    · exact absurd hnil hpending
    · exact ⟨_, a, hwait, hvalid, hstage⟩

/-- What is received was queued. -/
theorem queued_of_recv {renv : RecvEnv} (hok : renv.fails warnMs = false)
    (h : s.step conf warnMs e = some s') (hev : e.event = .recv renv) :
    s.cosim.dev.qemuResp.Queued := by
  obtain ⟨c, hc, _⟩ := Option.map_eq_some_iff.mp h
  unfold SysEvent.driven at hc
  rw [hev] at hc
  obtain ⟨⟨a, f, d⟩, hrecv, _⟩ := Option.map_eq_some_iff.mp hc
  obtain ⟨_, q, hq, _⟩ := MmioState.recv_eq_some hrecv
  rcases accZframeRecvLogged_cases hq with ⟨hfails, _⟩ | ⟨_, g, _, hg⟩
  · exact absurd (hok.symm.trans hfails) (by simp)
  · exact (Fifo.recv?_eq_some hg).1

/-- While an access waits there is no call. -/
theorem calls_of_waits (h : s.step conf warnMs e = some s') (hwait : s.waiting ≠ none) :
    s.calls e = [] := by
  obtain ⟨c, hc, _⟩ := Option.map_eq_some_iff.mp h
  obtain ⟨ev, responds⟩ := e
  cases ev with
  | call a => exact absurd (Sys.call_eq hc).1 hwait
  | _ => rfl

theorem Sys.env_pollsRequest {x : Edge p} {responds : Bool} :
    (s.env x responds).pollsRequest = true ↔ x.poll = .qemuReq := by
  unfold Sys.env
  cases x.poll <;> simp

/-! ## Getting on -/

namespace SysAlways

variable {r : SysAlways p conf warnMs} {mem m : Mem}

theorem Serves.servingRun (h : r.Serves mem m) (n : Nat) :
    ServingRun conf warnMs m (r.upTo n) (r.state n) := by
  have hrun : Sys.Run conf warnMs (Sys.init mem m) (r.upTo n) (r.state n) := h.start ▸ r.path n
  refine servingRun_run h.bus h.offsets hrun ?_ ?_
  · intro c hc
    obtain ⟨k, _, rfl⟩ := r.mem_upTo hc
    exact h.receives k
  · intro c hc
    obtain ⟨k, _, rfl⟩ := r.mem_upTo hc
    exact h.accesses k

/-- A step of the run. -/
theorem Serves.step (h : r.Serves mem m) {n : Nat} (hat : At conf pt (r.state n)) :
    (∃ x rd, (r.input n).event = .edge x ∧ At conf (pt.next rd
        ((r.state n).env x (r.input n).respond).pollsRequest
        (decide ((r.state n).cosim.ip.edges < 99)) (r.input n).respond) (r.state (n + 1))) ∨
      (pt = .answered ∧ (∃ renv, (r.input n).event = .recv renv) ∧
        (r.state (n + 1)).waiting = none) ∨
      ((r.input n).IsSilent ∧ At conf pt (r.state (n + 1))) :=
  hat.step h.bus h.offsets (h.servingRun n).1 (h.receives n) (r.next n)

/-- An access that waits is at the point. -/
def stands (r : SysAlways p conf warnMs) (pt : Point) (n : Nat) : Prop := At conf pt (r.state n)

/-- An edge on which the RAM responds takes an access from one point to the next. -/
theorem Serves.edge_leadsTo (h : r.Serves mem m) (hclk : r.Clocked) {pt pt' : Point}
    (hpt : pt ≠ .answered) (hgo : ∀ rd polls early, pt.next rd polls early true = pt')
    (hstay : ∀ rd polls early, pt.next rd polls early false = pt ∨
      pt.next rd polls early false = pt') :
    LeadsTo (r.stands pt) (r.stands pt') := by
  refine LeadsTo.ensures (fun n hn => ?_) (fun _ _ => trivial) (fun n hn htk => ?_)
    (WeaklyFair.of_recurs hclk)
  · rcases h.step hn with ⟨x, rd, _, hat⟩ | ⟨ha, _⟩ | ⟨_, hat⟩
    · cases hresp : (r.input n).respond with
      | true =>
        rw [hresp, hgo] at hat
        exact Or.inr hat
      | false =>
        rw [hresp] at hat
        rcases hstay rd ((r.state n).env x false).pollsRequest
          (decide ((r.state n).cosim.ip.edges < 99)) with heq | heq
        · rw [heq] at hat
          exact Or.inl hat
        · rw [heq] at hat
          exact Or.inr hat
    · exact absurd ha hpt
    · exact Or.inl hat
  · obtain ⟨x, hx⟩ := htk
    rcases h.step hn with ⟨y, rd, _, hat⟩ | ⟨ha, _⟩ | ⟨hsilent, _⟩
    · rw [hx, hgo] at hat
      exact hat
    · exact absurd ha hpt
    · rw [hx] at hsilent
      exact hsilent.elim

/-- **A request that was polled is answered**, unless it was lost. -/
theorem Serves.polled_leadsTo (h : r.Serves mem m) (hclk : r.Clocked) (halive : pt.Alive)
    (hpt : pt ≠ .asked) : LeadsTo (r.stands pt) (r.stands .answered) := by
  have harTaken : LeadsTo (r.stands .arTaken) (r.stands .answered) :=
    h.edge_leadsTo hclk (by simp) (by simp [Point.next]) (by simp [Point.next])
  have harShown : LeadsTo (r.stands .arShown) (r.stands .answered) :=
    (h.edge_leadsTo hclk (by simp) (by simp [Point.next]) (by simp [Point.next])).trans harTaken
  have hreadPolled : LeadsTo (r.stands .readPolled) (r.stands .answered) :=
    (h.edge_leadsTo hclk (by simp) (by simp [Point.next]) (by simp [Point.next])).trans harShown
  have hwTaken : LeadsTo (r.stands .wTaken) (r.stands .answered) :=
    h.edge_leadsTo hclk (by simp) (by simp [Point.next]) (by simp [Point.next])
  have hwShown : LeadsTo (r.stands .wShown) (r.stands .answered) :=
    (h.edge_leadsTo hclk (by simp) (by simp [Point.next]) (by simp [Point.next])).trans hwTaken
  have hawShown : LeadsTo (r.stands .awShown) (r.stands .answered) :=
    (h.edge_leadsTo hclk (by simp) (by simp [Point.next]) (by simp [Point.next])).trans hwShown
  have hwritePolled : LeadsTo (r.stands .writePolled) (r.stands .answered) :=
    (h.edge_leadsTo hclk (by simp) (by simp [Point.next]) (by simp [Point.next])).trans hawShown
  cases pt with
  | losing => exact absurd rfl halive.1
  | lost => exact absurd rfl halive.2
  | asked => exact absurd rfl hpt
  | readPolled => exact hreadPolled
  | arShown => exact harShown
  | arTaken => exact harTaken
  | writePolled => exact hwritePolled
  | awShown => exact hawShown
  | wShown => exact hwShown
  | wTaken => exact hwTaken
  | answered => exact LeadsTo.of_imp fun _ hn => hn

/-- **A request that is sent is polled.** -/
theorem Serves.asked_leadsTo (h : r.Serves mem m) (hfair : Fair r.cosim) (hnone : r.NoneLost) :
    LeadsTo (r.stands .asked) fun n => r.stands .readPolled n ∨ r.stands .writePolled n := by
  refine Fifo.leadsTo_of_single (fun n => moves_step (r.cosim.next n) .qemuReq)
    (hfair.arrives .qemuReq) (fun n hn => At.asked_pending hn) (fun n hn => ?_)
    ((hfair.polls .qemuReq .qemuReq rfl).mono fun n hn => hn.1)
  rcases h.step hn with ⟨x, rd, hev, hat⟩ | ⟨ha, _⟩ | ⟨hsilent, hat⟩
  · have hedge : r.cosim.input n = .edge { x with inp := _ } := SysEvent.driven_edge hev
    have hnext := r.cosim.next n
    rw [hedge] at hnext
    by_cases hpoll : x.poll = .qemuReq
    · refine Or.inl ⟨queued_of_polls hnext hpoll, ?_⟩
      have hlate : ¬(r.state n).cosim.ip.edges < 99 := Nat.not_lt.mpr (hnone n ⟨x, hev, hpoll⟩)
      rw [Sys.env_pollsRequest.mpr hpoll, decide_eq_false hlate] at hat
      cases rd with
      | true => exact Or.inl hat
      | false => exact Or.inr hat
    · refine Or.inr ⟨?_, ?_⟩
      · rintro ⟨y, hy, hsel⟩
        rw [hedge] at hy
        cases hy
        exact hpoll hsel
      · rw [Bool.eq_false_iff.mpr (mt Sys.env_pollsRequest.mp hpoll)] at hat
        exact hat
  · exact absurd ha (by simp)
  · refine Or.inr ⟨?_, hat⟩
    rintro ⟨y, hy, _⟩
    exact hsilent.ne_edge _ y hy

/-- **An answer that was sent is received.** -/
theorem Serves.answered_leadsTo (h : r.Serves mem m) (hfair : Fair r.cosim) :
    LeadsTo (r.stands .answered) fun n => (r.state n).waiting = none := by
  refine Fifo.leadsTo_of_single (fun n => moves_step (r.cosim.next n) .qemuResp)
    (hfair.arrives .qemuResp) (fun n hn => At.answered_pending hn) (fun n hn => ?_)
    (hfair.receives.mono fun n hn => ⟨Option.isSome_iff_ne_none.mpr hn.2.waits, hn.1⟩)
  rcases h.step hn with ⟨x, rd, hev, hat⟩ | ⟨_, ⟨renv, hev⟩, hwait⟩ | ⟨hsilent, hat⟩
  · refine Or.inr ⟨?_, hat⟩
    rintro ⟨renv, hrecv⟩
    exact absurd ((SysEvent.driven_edge hev).symm.trans hrecv) (by simp)
  · exact Or.inl ⟨queued_of_recv (h.receives n renv hev) (r.next n) hev, hwait⟩
  · refine Or.inr ⟨?_, hat⟩
    rintro ⟨renv, hrecv⟩
    exact hsilent.ne_recv _ renv hrecv

/-- An access that waits is at some point, and alive. -/
theorem Serves.alive (h : r.Serves mem m) (hnone : r.NoneLost) (n : Nat) :
    (r.state n).waiting = none ∨ ∃ pt : Point, pt.Alive ∧ r.stands pt n := by
  induction n with
  | zero =>
    refine Or.inl ?_
    rw [h.start]
    rfl
  | succ n ih =>
    rcases ih with hwait | ⟨pt, halive, hn⟩
    · obtain ⟨hw, hserving⟩ := h.servingRun n
      rw [hwait] at hserving
      rcases Sys.step_cases hw (h.receives n) (r.next n) with ⟨_, _, _, _, hwait', _⟩ |
        ⟨a, txid, hev, _, hwait', hloop, _⟩ | ⟨_, a, _, _, _, hsome, _⟩ | ⟨_, _, hwait', _⟩
      · exact Or.inl (hwait'.trans hwait)
      · have hstage := asked_of_call hserving.2 conf a txid
        rw [← hloop] at hstage
        exact Or.inr ⟨.asked, ⟨by simp, by simp⟩, _, a, hwait', h.accesses n a hev, hstage⟩
      · exact absurd (hwait.symm.trans hsome) (by simp)
      · exact Or.inl (hwait'.trans hwait)
    · rcases h.step hn with ⟨x, rd, hev, hat⟩ | ⟨_, _, hwait⟩ | ⟨_, hat⟩
      · refine Or.inr ⟨_, halive.next fun hpoll => ?_, hat⟩
        have hlate := hnone n ⟨x, hev, Sys.env_pollsRequest.mp hpoll⟩
        exact decide_eq_false (Nat.not_lt.mpr hlate)
      · exact Or.inl hwait
      · exact Or.inr ⟨pt, halive, hat⟩

/-- **An access that waits returns**, if none is lost. -/
theorem Serves.returns (h : r.Serves mem m) (hclk : r.Clocked) (hfair : Fair r.cosim)
    (hnone : r.NoneLost) : Recurs fun n => (r.state n).waiting = none := by
  intro n
  have hreturn : ∀ {pt : Point}, pt.Alive → pt ≠ .asked →
      LeadsTo (r.stands pt) fun n => (r.state n).waiting = none :=
    fun halive hpt => (h.polled_leadsTo hclk halive hpt).trans (h.answered_leadsTo hfair)
  rcases h.alive hnone n with hwait | ⟨pt, halive, hn⟩
  · exact ⟨n, Nat.le_refl n, hwait⟩
  · by_cases hpt : pt = .asked
    · rw [hpt] at hn
      have hread : LeadsTo (r.stands .readPolled) fun n => (r.state n).waiting = none :=
        hreturn ⟨by simp, by simp⟩ (by simp)
      have hwrite : LeadsTo (r.stands .writePolled) fun n => (r.state n).waiting = none :=
        hreturn ⟨by simp, by simp⟩ (by simp)
      exact ((h.asked_leadsTo hfair hnone).trans (hread.or hwrite)) n hn
    · exact hreturn halive hpt n hn

/-- As long as an access waits there is no other call. -/
theorem calls_upTo (r : SysAlways p conf warnMs) {n k : Nat} (hk : n ≤ k)
    (hwait : ∀ j, n ≤ j → j < k → (r.state j).waiting ≠ none) :
    events Sys.calls (r.upTo k) = events Sys.calls (r.upTo n) := by
  induction hk with
  | refl => rfl
  | @step k hk ih =>
    have hnone : (r.state k).calls (r.input k) = [] :=
      calls_of_waits (r.next k) (hwait k hk (Nat.lt_succ_self k))
    rw [Forever.upTo_succ, events_append, events_cons, hnone,
      ih fun j hj hlt => hwait j hj (Nat.lt_succ_of_lt hlt)]
    exact List.append_nil _

/-- **The accesses so far return**, with what a byte memory would return, if none is lost. -/
theorem Serves.accessesReturn (h : r.Serves mem m) (hclk : r.Clocked) (hfair : Fair r.cosim)
    (hnone : r.NoneLost) (n : Nat) : ∃ k, n ≤ k ∧ events (Sys.results warnMs) (r.upTo k)
      = specResults conf m (events Sys.calls (r.upTo n)) := by
  have hfirst : LeadsTo (fun k => True ∧ events Sys.calls (r.upTo k) = events Sys.calls (r.upTo n))
      fun k => (r.state k).waiting = none ∧
        events Sys.calls (r.upTo k) = events Sys.calls (r.upTo n) := by
    refine LeadsTo.psp (fun k _ => h.returns hclk hfair hnone k) fun k hk hwait => ?_
    refine (r.calls_upTo (Nat.le_succ k) fun j hj hlt => ?_).trans hk
    rwa [Nat.le_antisymm (Nat.le_of_lt_succ hlt) hj]
  obtain ⟨k, hk, hwait, hcalls⟩ := hfirst n ⟨trivial, rfl⟩
  obtain ⟨_, hserving⟩ := h.servingRun k
  rw [hwait] at hserving
  exact ⟨k, hk, by rw [hserving.1, hcalls]⟩

/-! ## A lost request -/

/-- A request that is polled in reset is lost. -/
theorem Serves.lost_of_early (h : r.Serves mem m) {n : Nat}
    (hpoll : (r.input n).event.Polls .qemuReq) (hearly : (r.state n).cosim.ip.edges < 99) :
    r.stands .losing (n + 1) := by
  obtain ⟨x, hev, hsel⟩ := hpoll
  have hnext := r.cosim.next n
  rw [show r.cosim.input n = _ from SysEvent.driven_edge hev] at hnext
  have hasked : r.stands .asked n := asked_of_queued (h.servingRun n) (queued_of_polls hnext hsel)
  rcases h.step hasked with ⟨y, rd, hy, hat⟩ | ⟨hpt, _⟩ | ⟨hsilent, _⟩
  · rw [hev] at hy
    cases hy
    rw [Sys.env_pollsRequest.mpr hsel, decide_eq_true hearly] at hat
    exact hat
  · exact absurd hpt (by simp)
  · exact absurd (SysEvent.driven_edge hev) (hsilent.ne_edge (r.state n).ram _)

/-- And stays so. -/
theorem Serves.lost_stays (h : r.Serves mem m) {n : Nat} (hn : r.stands .losing n) {k : Nat}
    (hk : n ≤ k) : r.stands .losing k ∨ r.stands .lost k := by
  induction hk with
  | refl => exact Or.inl hn
  | @step k _ ih =>
    rcases ih with hk | hk
    · rcases h.step hk with ⟨_, _, _, hat⟩ | ⟨hpt, _⟩ | ⟨_, hat⟩
      · exact Or.inr hat
      · exact absurd hpt (by simp)
      · exact Or.inl hat
    · rcases h.step hk with ⟨_, _, _, hat⟩ | ⟨hpt, _⟩ | ⟨_, hat⟩
      · exact Or.inr hat
      · exact absurd hpt (by simp)
      · exact Or.inr hat

end SysAlways

/-! ## Any fair run -/

open SysAlways

/-- **Every access returns**, with what a byte memory would return, if and only if no request is
polled in reset. In any fair run without end. -/
theorem mmioLive {r : SysAlways p conf warnMs} {mem m : Mem} (h : r.Serves mem m)
    (hclk : r.Clocked) (hfair : Fair r.cosim) :
    (∀ n, ∃ k, n ≤ k ∧ events (Sys.results warnMs) (r.upTo k)
      = specResults conf m (events Sys.calls (r.upTo n))) ↔ r.NoneLost := by
  constructor
  · intro hall n hpoll
    by_contra hlt
    have hlosing := h.lost_of_early hpoll (Nat.lt_of_not_le hlt)
    have hwaits : ∀ j, n + 1 ≤ j → (r.state j).waiting ≠ none := by
      intro j hj
      rcases h.lost_stays hlosing hj with hat | hat
      · exact hat.waits
      · exact hat.waits
    -- the access that was lost is the last call, for ever
    obtain ⟨k, hk, hres⟩ := hall (n + 1)
    obtain ⟨_, hserving⟩ := h.servingRun k
    obtain ⟨a, ha⟩ := Option.ne_none_iff_exists'.mp (hwaits k hk)
    rw [ha] at hserving
    obtain ⟨done, hdone, hret, _⟩ := hserving
    rw [← r.calls_upTo hk fun j hj _ => hwaits j hj, hdone, hret] at hres
    have hlen := congrArg List.length hres
    simp [length_specResults] at hlen
  · exact fun hnone => h.accessesReturn hclk hfair hnone

/-! ## Two accesses and DMA, and then the clock alone -/

/-- Nothing is left to do. -/
structure Idle (s : Sys bus64) : Prop where
  edges : 100 ≤ s.cosim.ip.edges
  waiting : s.waiting = none
  handling : s.cosim.handling = false
  loop : ∃ m, Quiet 0 m [] [] s.loop
  sr : s.cosim.ip.sr.rReadState = .idle
  sw : s.cosim.ip.sw.rWriteState = .idle
  drained : ∀ pipe, (s.cosim.fifo pipe).sent.length = (s.cosim.fifo pipe).taken

/-- No request is issued. -/
theorem requests_of_idle {s : Sys bus64} (h : s.cosim.ip.sw.rWriteState = .idle) (responds : Bool) :
    Edge.requests ⟨.none, s.ram.drive responds readyInput,
      ⟨ACCData.zero, ACCData.zero, ACCData.zero⟩, true⟩ s.cosim.ip = some [] := by
  have har : (s.ram.drive responds readyInput).iSArvalid = false := rfl
  have hreads : reqReadFrames ACCData.zero s.cosim.ip (s.ram.drive responds readyInput) = [] := by
    simp [reqReadFrames, reqReadCalls, Axi4SR.cReq, srInput, har]
  have hwrites : reqWriteFrames ACCData.zero s.cosim.ip (s.ram.drive responds readyInput)
      = some [] := by
    unfold reqWriteFrames reqWriteCalls
    rw [Axi4SW.cReq_of_idle h, ite_self]
    rfl
  simp [Edge.requests, hreads, hwrites]

/-- The clock goes on, and nothing happens. -/
theorem Idle.step {s : Sys bus64} (h : Idle s) :
    ∃ s', s.step defaultConf 0 (sysEdge .none readyInput) = some s' ∧ Idle s' := by
  obtain ⟨m, hquiet⟩ := h.loop
  let x : Edge bus64 := ⟨.none, readyInput, ⟨ACCData.zero, ACCData.zero, ACCData.zero⟩, true⟩
  let inp := s.ram.drive true readyInput
  have har : inp.iSArvalid = false := rfl
  have haw : inp.iSAwvalid = false := rfl
  have hreset : s.cosim.ip.aresetn = true := aresetn_eq_true.mpr h.edges
  have hresp : respFrames ACCData.zero s.cosim.ip inp = some [] :=
    (hquiet.memory (s.env x true)).1
  have hreq : ({ x with inp := inp } : Edge bus64).requests s.cosim.ip = some [] :=
    requests_of_idle h.sw true
  have hstep : s.cosim.edge defaultConf { x with inp := inp } = some { s.cosim with
      ip := next s.cosim.ip inp { s.cosim.ip.vars with reqType := .noop } } := by
    have hpoll : s.cosim.poll PollSel.none = some (.none, s.cosim) := rfl
    simp only [State.edge, x, hpoll, Axi4Ip.edge, cPoll, hresp, Option.map_some, Option.bind_some]
    rw [hreq]
    rfl
  obtain ⟨hfits, hedge, _⟩ := Sys.edge_loop hstep
  refine ⟨⟨_, s.ram.step true s.cosim.ip.mr s.cosim.ip.mw⟩, congrArg (Option.map _) hstep, ?_⟩
  refine ⟨Nat.le_succ_of_le h.edges, h.waiting, h.handling,
    ⟨m, (quiet_edge (Nat.zero_le _) hfits (Or.inl rfl)).of_step hquiet hedge⟩, ?_, ?_, h.drained⟩
  · show (Axi4SR.step s.cosim.ip.sr (srInput s.cosim.ip inp)).rReadState = .idle
    simp [Axi4SR.step, Axi4SR.comboRead, srInput, hreset, h.sr, har]
  · show (Axi4SW.step s.cosim.ip.sw (swInput s.cosim.ip inp)).rWriteState = .idle
    simp [Axi4SW.step, Axi4SW.comboWrite, swInput, hreset, h.sw, haw]

/-- A write of two bytes and a read of the word they are in, with a DMA read and an interrupt in
between, and the handler run at the end. -/
def accessesAndHandler : List (SysEvent bus64) :=
  accessesAndDma ++ [sysEvent (.deliver .hdlReq), sysEvent .activate, sysEvent .iterate,
    sysEvent .finish]

/-- From time zero. -/
def wholeRun : List (SysEvent bus64) :=
  List.replicate 100 (sysEdge .none readyInput) ++ accessesAndHandler

/-- The state in the reset. -/
def sysInReset (k : Nat) : Sys bus64 := ⟨inReset (fun _ => 0) k, Ram.idle fun _ => 0⟩

theorem run_sysInReset : runM (Sys.step defaultConf 0) (Sys.init (fun _ => 0) fun _ => 0)
    (List.replicate 100 (sysEdge .none readyInput)) = some (sysInReset 100) :=
  sys_run_reset _ _ 100 (Nat.le_refl _)

/-- What holds of the edges in reset and of what follows holds of the whole run. -/
theorem forall_wholeRun {P : Sys bus64 × SysEvent bus64 → Prop}
    (hreset : ∀ k, P (sysInReset k, sysEdge .none readyInput))
    (hrest : ∀ c ∈ traceM (Sys.step defaultConf 0) (sysInReset 100) accessesAndHandler, P c) :
    ∀ c ∈ traceM (Sys.step defaultConf 0) (Sys.init (fun _ => 0) fun _ => 0) wholeRun, P c := by
  have hedges : ∀ n ≤ 100, ∀ c ∈ traceM (Sys.step defaultConf 0)
      (Sys.init (fun _ => 0) fun _ => 0) (List.replicate n (sysEdge .none readyInput)), P c := by
    intro n hn
    induction n with
    | zero => simp [traceM]
    | succ n ih =>
      rw [List.replicate_succ', traceM_append _ (sys_run_reset _ _ n (Nat.le_of_succ_le hn))]
      intro c hc
      rcases List.mem_append.mp hc with hc | hc
      · exact ih (Nat.le_of_succ_le hn) c hc
      · rw [traceM, sys_step_reset _ _ hn] at hc
        rw [List.mem_singleton.mp hc]
        exact hreset n
  intro c hc
  rw [wholeRun, traceM_append _ run_sysInReset] at hc
  rcases List.mem_append.mp hc with hc | hc
  · exact hedges 100 (Nat.le_refl _) c hc
  · exact hrest c hc

/-- The event is a valid access, or a receive that does not fail, or anything else. -/
def Fine (e : SysEvent bus64) : Prop :=
  (∀ renv, e.event = .recv renv → renv.fails 0 = false) ∧
    ∀ a, e.event = .call a → a.Valid defaultConf

theorem fine_edge : Fine (sysEdge .none readyInput) :=
  ⟨by simp [sysEdge, edgeOf], by simp [sysEdge, edgeOf]⟩

theorem fine_rest : ∀ c ∈ traceM (Sys.step defaultConf 0) (sysInReset 100) accessesAndHandler,
    Fine c.2 := by
  intro c hc
  have hreceives : accessesAndHandler.all receives = true := rfl
  have hcalls : accessesAndHandler.flatMap (Sys.calls (Sys.init (fun _ => 0) fun _ => 0))
      = overlapping.map Prod.fst := rfl
  have he := snd_mem_of_traceM hc
  refine ⟨fails_of_receives (List.all_eq_true.mp hreceives c.2 he), fun a ha => ?_⟩
  have hmem : a ∈ accessesAndHandler.flatMap (Sys.calls (Sys.init (fun _ => 0) fun _ => 0)) :=
    List.mem_flatMap.mpr ⟨c.2, he, by simp [Sys.calls, ha]⟩
  rw [hcalls] at hmem
  obtain ⟨o, ho, rfl⟩ := List.mem_map.mp hmem
  exact overlapping_valid o ho

theorem servingRun_wholeRun {t : Sys bus64}
    (hall : runM (Sys.step defaultConf 0) (Sys.init (fun _ => 0) fun _ => 0) wholeRun = some t) :
    ServingRun defaultConf 0 (fun _ => 0)
      (traceM (Sys.step defaultConf 0) (Sys.init (fun _ => 0) fun _ => 0) wholeRun) t := by
  have hfine := forall_wholeRun (P := fun c => Fine c.2) (fun _ => fine_edge) fine_rest
  exact servingRun_run (by decide) (by decide) (path_traceM hall) (fun c hc => (hfine c hc).1)
    fun c hc => (hfine c hc).2

theorem run_wholeRun : ∃ t, runM (Sys.step defaultConf 0) (Sys.init (fun _ => 0) fun _ => 0)
    wholeRun = some t ∧ Idle t := by
  have hrun : ∃ t, runM (Sys.step defaultConf 0) (sysInReset 100) accessesAndHandler = some t ∧
      t.cosim.ip.edges = 110 ∧ t.waiting = none ∧
      t.cosim.handling = false ∧ t.cosim.ip.sr.rReadState = .idle ∧
      t.cosim.ip.sw.rWriteState = .idle ∧
      t.cosim.dev.qemuReq.sent.length = t.cosim.dev.qemuReq.taken ∧
      t.cosim.dev.qemuResp.sent.length = t.cosim.dev.qemuResp.taken ∧
      t.cosim.hdlReq.sent.length = t.cosim.hdlReq.taken ∧
      t.cosim.hdlResp.sent.length = t.cosim.hdlResp.taken :=
    ⟨_, rfl, rfl, rfl, rfl, rfl, rfl, rfl, rfl, rfl, rfl⟩
  obtain ⟨t, hrun, hedges, hwait, hhandling, hsr, hsw, h1, h2, h3, h4⟩ := hrun
  have hall : runM (Sys.step defaultConf 0) (Sys.init (fun _ => 0) fun _ => 0) wholeRun
      = some t := by
    rw [wholeRun, runM_append, run_sysInReset, Option.bind_some, hrun]
  refine ⟨t, hall, by omega, hwait, hhandling, (servingRun_wholeRun hall).quiet hwait, hsr, hsw, ?_⟩
  intro pipe
  cases pipe with
  | qemuReq => exact h1
  | qemuResp => exact h2
  | hdlReq => exact h3
  | hdlResp => exact h4

/-- The clock goes on after it. -/
structure GoesOn (r : SysAlways bus64 defaultConf 0) : Prop where
  start : r.state 0 = Sys.init (fun _ => 0) fun _ => 0
  trace : r.upTo wholeRun.length
    = traceM (Sys.step defaultConf 0) (Sys.init (fun _ => 0) fun _ => 0) wholeRun
  rest : ∀ n, wholeRun.length ≤ n → r.input n = sysEdge .none readyInput ∧ Idle (r.state n)

theorem exists_goesOn : ∃ r, GoesOn r := by
  obtain ⟨t, hrun, hidle⟩ := run_wholeRun
  obtain ⟨r, hstart, htrace, hrest⟩ := Forever.of_stay hrun hidle fun _ h => h.step
  exact ⟨r, hstart, htrace, hrest⟩

/-- A request that is polled is polled late. -/
def pollsLate (c : Sys bus64 × SysEvent bus64) : Bool :=
  match c.2.event with
  | .edge ⟨.qemuReq, _, _, _⟩ => decide (99 ≤ c.1.cosim.ip.edges)
  | _ => true

theorem late_of_pollsLate {s : Sys bus64} {e : SysEvent bus64} {x : Edge bus64}
    (h : pollsLate (s, e) = true) (hx : e.event = .edge x) (hsel : x.poll = .qemuReq) :
    99 ≤ s.cosim.ip.edges := by
  obtain ⟨sel, inp, stack, first⟩ := x
  cases hsel
  simp only [pollsLate, hx] at h
  exact of_decide_eq_true h

/-- What is called in the run. -/
theorem calls_wholeRun : events Sys.calls (traceM (Sys.step defaultConf 0)
    (Sys.init (fun _ => 0) fun _ => 0) wholeRun) = overlapping.map Prod.fst := by
  have hnone : events Sys.calls (traceM (Sys.step defaultConf 0) (Sys.init (fun _ => 0) fun _ => 0)
      (List.replicate 100 (sysEdge .none readyInput))) = [] := by
    refine List.flatMap_eq_nil_iff.mpr fun c hc => ?_
    rw [Sys.calls, List.eq_of_mem_replicate (snd_mem_of_traceM hc)]
    rfl
  rw [wholeRun, traceM_append _ run_sysInReset, events_append, hnone]
  rfl

namespace GoesOn

variable {r : SysAlways bus64 defaultConf 0}

/-- What holds of the steps of the run, and of the edges in idle, holds always. -/
theorem all (h : GoesOn r) {P : Sys bus64 × SysEvent bus64 → Prop}
    (hreset : ∀ k, P (sysInReset k, sysEdge .none readyInput))
    (hrest : ∀ c ∈ traceM (Sys.step defaultConf 0) (sysInReset 100) accessesAndHandler, P c)
    (hidle : ∀ s, Idle s → P (s, sysEdge .none readyInput)) (n : Nat) :
    P (r.state n, r.input n) := by
  by_cases hn : n < wholeRun.length
  · refine forall_wholeRun hreset hrest _ ?_
    rw [← h.trace]
    exact r.step_mem_upTo hn
  · obtain ⟨hedge, hs⟩ := h.rest n (Nat.le_of_not_lt hn)
    rw [hedge]
    exact hidle _ hs

theorem serves (h : GoesOn r) : r.Serves (fun _ => 0) fun _ => 0 := by
  have hfine : ∀ n, Fine (r.input n) :=
    h.all (P := fun c => Fine c.2) (fun _ => fine_edge) fine_rest fun _ _ => fine_edge
  exact ⟨by decide, by decide, h.start, fun n => (hfine n).1, fun n => (hfine n).2⟩

theorem clocked (h : GoesOn r) : r.Clocked := fun n =>
  ⟨max n wholeRun.length, Nat.le_max_left _ _, _, (h.rest _ (Nat.le_max_right _ _)).1⟩

theorem fair (h : GoesOn r) : Fair r.cosim := by
  have hdrained : ∀ pipe n, wholeRun.length ≤ n →
      ((r.cosim.state n).fifo pipe).sent.length = ((r.cosim.state n).fifo pipe).taken :=
    fun pipe n hn => (h.rest n hn).2.drained pipe
  refine ⟨fun pipe => ?_, fun sel pipe _ => ?_, ?_⟩
  · exact WeaklyFair.of_never wholeRun.length fun n hn =>
      Fifo.not_inFlight_of_drained (hdrained pipe n hn)
  · exact WeaklyFair.of_never wholeRun.length fun n hn =>
      Fifo.not_queued_of_drained (hdrained pipe n hn)
  · exact WeaklyFair.of_never wholeRun.length fun n hn hw =>
      Fifo.not_queued_of_drained (hdrained .qemuResp n hn) hw.2

theorem noneLost (h : GoesOn r) : r.NoneLost := by
  have hrest : (traceM (Sys.step defaultConf 0) (sysInReset 100) accessesAndHandler).all pollsLate
      = true := rfl
  have hlate : ∀ n, pollsLate (r.state n, r.input n) = true :=
    h.all (P := fun c => pollsLate c = true) (fun _ => rfl) (List.all_eq_true.mp hrest)
      fun _ _ => rfl
  rintro n ⟨x, hx, hsel⟩
  exact late_of_pollsLate (hlate n) hx hsel

end GoesOn

/-- Both accesses return, and the read sees the two bytes. -/
theorem mmioLive_wholeRun : ∃ r : SysAlways bus64 defaultConf 0,
    r.Serves (fun _ => 0) (fun _ => 0) ∧ r.Clocked ∧ Fair r.cosim ∧ r.NoneLost ∧
      ∃ k, events (Sys.results 0) (r.upTo k) = [none, some 0xBBAA0000] := by
  obtain ⟨r, hr⟩ := exists_goesOn
  refine ⟨r, hr.serves, hr.clocked, hr.fair, hr.noneLost, ?_⟩
  obtain ⟨k, _, hk⟩ := (mmioLive hr.serves hr.clocked hr.fair).mpr hr.noneLost wholeRun.length
  refine ⟨k, hk.trans ?_⟩
  rw [hr.trace, calls_wholeRun]
  decide

end QemuHdlSim.Cosim
