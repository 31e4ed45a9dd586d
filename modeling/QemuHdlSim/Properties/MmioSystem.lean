import QemuHdlSim.System.MmioSystem
import QemuHdlSim.Properties.MmioMemory
import QemuHdlSim.Properties.IssueOrder

/-!
# The guest's accesses in the whole system

`mmio_refines` is about the MMIO path alone, one access after another, each given the edges it
needs. Here the path is part of the whole co-simulation, and nothing is given: any interleaving of
clock edges, deliveries, DMA bursts and their answers, interrupts, activations of the handler and
accesses. `MmioSystem` says that what the guest reads is still what a byte memory has.

A request that is polled in reset is lost, and its access never returns; it does no harm to the
others, since there are none after it.

* `Stage` — how far an access has come
* `Stage.edge` — one edge, at every stage
* `mmioSystem` — any run
-/

namespace QemuHdlSim

/-- The access is a read. -/
def Access.isRead : Access → Bool
  | .read _ _ _ => true
  | .write _ _ _ _ => false

namespace Cosim

open Infra Axi4Ip Loop

variable {p : BusParams} {conf : ACCConf} {warnMs : Int}

/-- The memory after the accesses `as`. -/
def memAfter (conf : ACCConf) (m : Mem) (as : List Access) : Mem := as.foldl (Access.specMem conf) m

/-- What the run `tr` has to do with a byte memory that is `m` at first. -/
structure MmioSystem (conf : ACCConf) (warnMs : Int) (m : Mem) (tr : List (Sys p × SysEvent p))
    (s : Sys p) : Prop where
  /-- The accesses return what the memory has, in the order of their calls. -/
  results : events (Sys.results warnMs) tr
    = specResults conf m ((events Sys.calls tr).take (events (Sys.results warnMs) tr).length)
  /-- At most one access has not returned. -/
  waiting : (events Sys.calls tr).length
    = (events (Sys.results warnMs) tr).length + (if s.waiting.isSome then 1 else 0)
  /-- The RAM has what they wrote, that of the last one perhaps not yet. -/
  ram : ∃ n, (events (Sys.results warnMs) tr).length ≤ n ∧ n ≤ (events Sys.calls tr).length ∧
    s.ram.mem = memAfter conf m ((events Sys.calls tr).take n)

/-! ## How far an access has come -/

/-- Where an access can be. -/
inductive Point where
  /-- The request is on `qemu_req`. -/
  | asked
  /-- It was polled, and its pulse is about to meet a module in reset. -/
  | losing
  /-- Nothing is left of it. -/
  | lost
  | readPolled
  | arShown
  | arTaken
  | writePolled
  | awShown
  | wShown
  | wTaken
  /-- The answer is on `qemu_resp`. -/
  | answered
  deriving DecidableEq, Repr

/-- The word that a write of `a` puts into the memory `m`. -/
def Stores (conf : ACCConf) (m : Mem) (a : Access) (data : Buf buffSize) (strb : BitVec p.stbw) :
    Prop :=
  storeWord m (a.axiAddr conf) data strb = a.specMem conf m

/-- The access `a`, which found the memory `m`, is at the point. -/
def Stage (conf : ACCConf) (m : Mem) (a : Access) (l : Loop p) : Point → Prop
  | .asked => ∃ txid, Quiet 0 m [a.request txid] [] l
  | .losing => l.ip.edges < 100 ∧ ∃ rd wr, Phase 0 rd wr MrQuiet MwQuiet (Ram.idle m) [] [] l
  | .lost => Quiet 0 m [] [] l
  | .readPolled => a.isRead = true ∧ ReadPolled m (a.axiAddr conf) l
  | .arShown => a.isRead = true ∧ ArShown m (a.axiAddr conf) l
  | .arTaken => a.isRead = true ∧ ArTaken m (a.axiAddr conf) l
  | .writePolled => a.isRead = false ∧ ∃ data strb, Stores (p := p) conf m a data strb ∧
      WritePolled m (a.axiAddr conf) data strb l
  | .awShown => a.isRead = false ∧ ∃ data strb, Stores (p := p) conf m a data strb ∧
      AwShown m (a.axiAddr conf) data strb l
  | .wShown => a.isRead = false ∧ ∃ data strb, Stores (p := p) conf m a data strb ∧
      WShown m (a.axiAddr conf) data strb l
  | .wTaken => a.isRead = false ∧ WTaken (a.specMem conf m) l
  | .answered => a.Done conf m l

/-- Where an edge takes an access: `polls`, the edge polls it; `early`, its pulse meets the reset;
`responds`, the RAM sends a response. -/
def Point.next (isRead polls early responds : Bool) : Point → Point
  | .asked =>
    if polls then if early then .losing else if isRead then .readPolled else .writePolled
    else .asked
  | .losing => .lost
  | .lost => .lost
  | .readPolled => .arShown
  | .arShown => .arTaken
  | .arTaken => if responds then .answered else .arTaken
  | .writePolled => .awShown
  | .awShown => .wShown
  | .wShown => .wTaken
  | .wTaken => if responds then .answered else .wTaken
  | .answered => .answered

variable {m : Mem} {a : Access} {l l' : Loop p} {e : Env p}

/-- Before the answer comes there is none. -/
theorem Stage.resp {pt : Point} (h : Stage conf m a l pt) :
    l.qemuResp = [] ∨ pt = .answered ∧ a.Done conf m l := by
  cases pt with
  | asked => exact Or.inl h.choose_spec.resp
  | losing =>
    obtain ⟨_, _, _, h⟩ := h
    exact Or.inl h.resp
  | lost => exact Or.inl (Phase.resp h)
  | readPolled => exact Or.inl h.2.1.resp
  | arShown => exact Or.inl h.2.resp
  | arTaken => exact Or.inl h.2.choose_spec.resp
  | writePolled =>
    obtain ⟨_, _, _, _, h⟩ := h
    exact Or.inl h.1.resp
  | awShown =>
    obtain ⟨_, _, _, _, h⟩ := h
    exact Or.inl h.resp
  | wShown =>
    obtain ⟨_, _, _, _, h⟩ := h
    exact Or.inl h.choose_spec.resp
  | wTaken => exact Or.inl h.2.resp
  | answered => exact Or.inr ⟨rfl, h⟩

/-- The memory before the access, or after it. -/
theorem Stage.mem {pt : Point} (h : Stage conf m a l pt) :
    l.ram.mem = m ∨ l.ram.mem = a.specMem conf m := by
  cases pt with
  | asked => exact Or.inl (by rw [h.choose_spec.ram]; rfl)
  | losing =>
    obtain ⟨_, _, _, h⟩ := h
    exact Or.inl (by rw [h.ram]; rfl)
  | lost => exact Or.inl (by rw [Phase.ram h]; rfl)
  | readPolled => exact Or.inl (by rw [h.2.1.ram]; rfl)
  | arShown => exact Or.inl (by rw [h.2.ram]; rfl)
  | arTaken => exact Or.inl (by rw [h.2.choose_spec.ram]; rfl)
  | writePolled =>
    obtain ⟨_, _, _, _, h⟩ := h
    exact Or.inl (by rw [h.1.ram]; rfl)
  | awShown =>
    obtain ⟨_, _, _, _, h⟩ := h
    exact Or.inl (by rw [h.ram]; rfl)
  | wShown =>
    obtain ⟨_, _, _, _, h⟩ := h
    exact Or.inl (by rw [h.choose_spec.ram]; rfl)
  | wTaken => exact Or.inr (by rw [h.2.ram]; rfl)
  | answered => exact Or.inr (by rw [h.choose_spec.1.ram]; rfl)

/-! ## One edge -/

/-- What is known of the number of edges can be weakened. -/
theorem phase_of_edges {n n' : Nat} {rd wr : Bool} {A : Axi4MR.State → Prop}
    {B : Axi4MW.State p → Prop} {ram : Ram} {req resp : List ACCData}
    (h : Phase n rd wr A B ram req resp l) (hn : n' ≤ l.ip.edges) :
    Phase n' rd wr A B ram req resp l :=
  { h with edges := hn }

/-- The edge that polls the request, in reset or after. -/
theorem quiet_poll {f : ACCData} {v : PollVars} (h : Quiet 0 m [f] [] l)
    (hpoll : e.pollsRequest = true) (hv : cPollQemuReq p.stbw conf f l.ip.vars = some v) :
    ∃ l', l.edge conf e = some l' ∧ l'.ip.vars = v ∧
      Phase (l.ip.edges + 1) (decide (v.reqType = .mRd)) (decide (v.reqType = .mWr)) MrQuiet
        MwQuiet (Ram.idle m) [] [] l' ∧ l'.ip.edges = l.ip.edges + 1 := by
  obtain ⟨hfs, hram⟩ := h.memory e
  refine ⟨_, edge_of_polled h.req hpoll hv hfs, rfl, ⟨Nat.le_refl _, rfl, rfl, h.mr.step h.reqMR,
    h.mw.step h.reqMW, hram, rfl, ?_⟩, rfl⟩
  rw [h.resp]
  rfl

/-- A pulse in reset is gone. -/
theorem losing_edge {rd wr : Bool} (hfits : e.other.Fits p.stbw)
    (h : Phase 0 rd wr MrQuiet MwQuiet (Ram.idle m) [] [] l) (hr : l.ip.edges < 100) :
    ∃ l', l.edge conf e = some l' ∧ Quiet 0 m [] [] l' := by
  have hfs : l.frames e = some [] := frames_nil (by rw [h.ram]; rfl) (by rw [h.ram]; rfl)
  have hram : l.ram.step e.respond l.ip.mr l.ip.mw = Ram.idle m := by
    simp [h.ram, Ram.idle, Ram.step, Ram.sendB, Ram.sendR, Ram.takeAr, Ram.takeAw, Ram.takeW,
      h.mr.ar, h.mw.aw]
  obtain ⟨hmr, hmw, _, _⟩ := next_of_reset hr (l.input e) PollVars.zero
  have hmr' : MrQuiet (next l.ip (l.input e) PollVars.zero).mr := by
    rw [hmr]
    exact ⟨rfl, rfl⟩
  have hmw' : MwQuiet (next l.ip (l.input e) PollVars.zero).mw := by
    rw [hmw]
    exact ⟨rfl, rfl, rfl⟩
  exact h.edge (Nat.zero_le _) hfits (Or.inl rfl) hfs hmr' hmw' hram

/-- The call of an access. -/
theorem asked_of_call (h : Quiet 0 m [] [] l) (conf : ACCConf) (a : Access) (txid : BitVec 64) :
    Stage conf m a { l with qemuReq := l.qemuReq ++ [a.request txid] } .asked :=
  ⟨txid, { h with req := by rw [h.req]; rfl }⟩

/-- What a read that is done returns. -/
theorem done_of_readDone (hbus : 3 ≤ p.log2Stbw)
    (hoff : ∀ k, (conf.bar k).offset.toNat % p.stbw = 0) (hvalid : a.Valid conf)
    (ha : a.isRead = true) (h : ReadDone m (a.axiAddr conf) l) : a.Done conf m l := by
  obtain ⟨f, hquiet, hf⟩ := h
  have hin := hvalid.in_word hbus (hoff _)
  cases a with
  | write => exact absurd ha (by simp [Access.isRead])
  | read num addr size =>
    refine ⟨f, hquiet, ?_⟩
    show some (if sizeofACCData < sizeofACCData then 0 else mmioReadDecode size f) = _
    have hdecode : mmioReadDecode size f = BitVec.ofNat 64 (leVal f.data.get size.toNat) :=
      mmioReadDecode_eq hvalid.size
    rw [if_neg (Nat.lt_irrefl _), hdecode]
    exact congrArg (fun n => some (BitVec.ofNat 64 n))
      (leVal_congr fun k hk => hf k (Nat.lt_of_lt_of_le (Nat.add_lt_add_left hk _) hin))

/-- What `C_poll` makes of the request of a valid access. -/
theorem poll_request (hbus : 3 ≤ p.log2Stbw) (hoff : ∀ k, (conf.bar k).offset.toNat % p.stbw = 0)
    (hvalid : a.Valid conf) (txid : BitVec 64) (vars : PollVars) (m : Mem) :
    ∃ v, cPollQemuReq p.stbw conf (a.request txid) vars = some v ∧ v.addr = a.axiAddr conf ∧
      v.len = 0 ∧ ((a.isRead = true ∧ v.reqType = .mRd) ∨
        (a.isRead = false ∧ v.reqType = .mWr ∧
          storeWord m (a.axiAddr conf) v.data (v.strb.setWidth p.stbw) = a.specMem conf m)) := by
  have hin := hvalid.in_word hbus (hoff _)
  have hsize : a.size.toNat ≤ p.stbw := by omega
  cases a with
  | read num addr size =>
    obtain ⟨v, hv, htype, haddr, hlen⟩ := cPollQemuReq_read conf num addr hsize txid vars
    exact ⟨v, hv, haddr, hlen, Or.inl ⟨rfl, htype⟩⟩
  | write num addr val size =>
    have hsize8 : size.toNat ≤ 8 := by
      obtain ⟨j, hj, hs⟩ := hvalid.size
      have hle : size.toNat ≤ 2 ^ 3 := Nat.le_trans (Nat.le_of_eq hs)
        (Nat.pow_le_pow_right (by decide) hj)
      omega
    obtain ⟨v, hv, htype, haddr, hlen, hstrb, hdata⟩ := cPollQemuReq_write conf num addr val
      hsize hsize8 ⟨p.stbw_pos, p.stbw_le⟩ txid vars
    refine ⟨v, hv, haddr, hlen, Or.inr ⟨rfl, htype, ?_⟩⟩
    refine storeWord_eq hin ?_ (fun k hk => hdata k (Nat.lt_of_lt_of_le hk hsize8))
    intro j hj
    rw [hstrb]
    exact strb_getLsbD hj p.stbw_le

/-- While the request is on `qemu_req`, an edge polls it or does not. -/
theorem asked_edge (hbus : 3 ≤ p.log2Stbw) (hoff : ∀ k, (conf.bar k).offset.toNat % p.stbw = 0)
    (hvalid : a.Valid conf) (hfits : e.other.Fits p.stbw) (h : Stage conf m a l .asked)
    (hedge : l.edge conf e = some l') :
    Stage conf m a l' (Point.next a.isRead e.pollsRequest (decide (l.ip.edges < 99)) e.respond
      .asked) := by
  obtain ⟨txid, h⟩ := h
  cases hpoll : e.pollsRequest with
  | false => exact ⟨txid, (quiet_edge (Nat.zero_le _) hfits (Or.inr hpoll)).of_step h hedge⟩
  | true =>
    obtain ⟨v, hv, haddr, hlen, htype⟩ := poll_request hbus hoff hvalid txid l.ip.vars m
    obtain ⟨t, ht, rfl, hphase, hedges⟩ := quiet_poll h hpoll hv
    rw [hedge] at ht
    cases ht
    by_cases hlate : l.ip.edges < 99
    · rw [decide_eq_true hlate]
      exact ⟨by omega, _, _, phase_of_edges hphase (Nat.zero_le _)⟩
    · have hphase' := phase_of_edges hphase (show 100 ≤ l'.ip.edges by omega)
      rw [decide_eq_false hlate]
      rcases htype with ⟨ha, hrd⟩ | ⟨ha, hwr, hs⟩
      · rw [hrd] at hphase'
        simp only [Point.next, ha, if_true, Bool.false_eq_true, if_false]
        exact ⟨ha, hphase', haddr, hlen⟩
      · rw [hwr] at hphase'
        simp only [Point.next, ha, if_true, Bool.false_eq_true, if_false]
        exact ⟨ha, _, _, hs, hphase', haddr, hlen, rfl, rfl⟩

/-- **One edge**, at every point. -/
theorem Stage.edge {pt : Point} (hbus : 3 ≤ p.log2Stbw)
    (hoff : ∀ k, (conf.bar k).offset.toNat % p.stbw = 0) (hvalid : a.Valid conf)
    (hfits : e.other.Fits p.stbw) (h : Stage conf m a l pt) (hedge : l.edge conf e = some l') :
    Stage conf m a l'
      (pt.next a.isRead e.pollsRequest (decide (l.ip.edges < 99)) e.respond) := by
  cases pt with
  | asked => exact asked_edge hbus hoff hvalid hfits h hedge
  | losing =>
    obtain ⟨hr, rd, wr, h⟩ := h
    have hlose : ∃ t, l.edge conf e = some t ∧ Quiet 0 m [] [] t := losing_edge hfits h hr
    obtain ⟨t, ht, hquiet⟩ := hlose
    rw [hedge] at ht
    cases ht
    exact hquiet
  | lost => exact (quiet_edge (Nat.zero_le _) hfits (Or.inl rfl)).of_step h hedge
  | readPolled => exact ⟨h.1, (readPolled_edge hfits).of_step h.2 hedge⟩
  | arShown => exact ⟨h.1, (arShown_edge hfits).of_step h.2 hedge⟩
  | arTaken =>
    cases hresp : e.respond with
    | false => exact ⟨h.1, (arTaken_wait hfits hresp).of_step h.2 hedge⟩
    | true =>
      exact done_of_readDone hbus hoff hvalid h.1 ((arTaken_respond hfits hresp).of_step h.2 hedge)
  | writePolled =>
    obtain ⟨ha, data, strb, hs, h⟩ := h
    exact ⟨ha, data, strb, hs, (writePolled_edge hfits).of_step h hedge⟩
  | awShown =>
    obtain ⟨ha, data, strb, hs, h⟩ := h
    exact ⟨ha, data, strb, hs, (awShown_edge hfits).of_step h hedge⟩
  | wShown =>
    obtain ⟨ha, data, strb, hs, h⟩ := h
    have htaken := (wShown_edge hfits).of_step h hedge
    rw [hs] at htaken
    exact ⟨ha, htaken⟩
  | wTaken =>
    cases hresp : e.respond with
    | false => exact ⟨h.1, (wTaken_wait hfits hresp).of_step h.2 hedge⟩
    | true =>
      obtain ⟨f, hquiet⟩ := (wTaken_respond hfits hresp).of_step h.2 hedge
      cases a with
      | read => exact absurd h.1 (by simp [Access.isRead])
      | write => exact ⟨f, hquiet, rfl⟩
  | answered =>
    obtain ⟨f, hquiet, hf⟩ := h
    exact ⟨f, (quiet_edge (Nat.le_succ _) hfits (Or.inl rfl)).of_step hquiet hedge, hf⟩

/-! ## One step -/

/-- The accesses `called`, of which one may wait, and what those returned that do not. -/
def Serving (conf : ACCConf) (m : Mem) (called : List Access)
    (returned : List (Option (BitVec 64))) (waiting : Option Access) (l : Loop p) : Prop :=
  match waiting with
  | none => returned = specResults conf m called ∧ Quiet 0 (memAfter conf m called) [] [] l
  | some a => ∃ done, called = done ++ [a] ∧ returned = specResults conf m done ∧ a.Valid conf ∧
      ∃ pt, Stage conf (memAfter conf m done) a l pt

/-- The accesses of the run so far, and what is left to do for the one that waits. -/
def ServingRun (conf : ACCConf) (warnMs : Int) (m : Mem) (past : List (Sys p × SysEvent p))
    (s : Sys p) : Prop :=
  s.Whole ∧ Serving conf m (events Sys.calls past) (events (Sys.results warnMs) past) s.waiting
    s.loop

/-- When no access waits, nothing is on its way. -/
theorem ServingRun.quiet {past : List (Sys p × SysEvent p)} {s : Sys p}
    (h : ServingRun conf warnMs m past s) (hwait : s.waiting = none) :
    ∃ m', Quiet 0 m' [] [] s.loop := by
  obtain ⟨_, hserving⟩ := h
  rw [hwait] at hserving
  exact ⟨_, hserving.2⟩

theorem specResults_concat (conf : ACCConf) (m : Mem) (as : List Access) (a : Access) :
    specResults conf m (as ++ [a])
      = specResults conf m as ++ [a.specResult conf (memAfter conf m as)] := by
  induction as generalizing m with
  | nil => rfl
  | cons b as ih =>
    rw [List.cons_append, specResults, ih]
    rfl

theorem memAfter_concat (conf : ACCConf) (m : Mem) (as : List Access) (a : Access) :
    memAfter conf m (as ++ [a]) = a.specMem conf (memAfter conf m as) := List.foldl_concat ..

/-- **One step keeps it.** -/
theorem Serving.step {s s' : Sys p} {e : SysEvent p} {called : List Access}
    {returned : List (Option (BitVec 64))} (hbus : 3 ≤ p.log2Stbw)
    (hoff : ∀ k, (conf.bar k).offset.toNat % p.stbw = 0) (hw : s.Whole)
    (hok : ∀ renv, e.event = .recv renv → renv.fails warnMs = false)
    (hvalid : ∀ a, e.event = .call a → a.Valid conf)
    (h : Serving conf m called returned s.waiting s.loop) (hstep : s.step conf warnMs e = some s') :
    Serving conf m (called ++ s.calls e) (returned ++ s.results warnMs e) s'.waiting s'.loop := by
  rcases Sys.step_cases hw hok hstep with ⟨x, _, hfits, hedge, hwait, hcalls, hres⟩ |
    ⟨a, txid, hev, hwait, hwait', hloop, hcalls, hres⟩ |
    ⟨_, a, f, q, _, hwait, hwait', hq, hloop, hcalls, hres⟩ | ⟨_, hloop, hwait, hcalls, hres⟩
  · -- a clock edge
    rw [hwait, hcalls, hres, List.append_nil, List.append_nil]
    cases hw' : s.waiting with
    | none =>
      rw [hw'] at h
      exact ⟨h.1, (quiet_edge (Nat.zero_le _) hfits (Or.inl rfl)).of_step h.2 hedge⟩
    | some a =>
      rw [hw'] at h
      obtain ⟨done, hdone, hret, ha, pt, hstage⟩ := h
      exact ⟨done, hdone, hret, ha, _, hstage.edge hbus hoff ha hfits hedge⟩
  · -- a call
    rw [hwait] at h
    rw [hwait', hcalls, hres, List.append_nil]
    refine ⟨called, rfl, h.1, hvalid a hev, .asked, ?_⟩
    rw [hloop]
    exact asked_of_call h.2 conf a txid
  · -- a return
    rw [hwait] at h
    rw [hwait', hcalls, hres, List.append_nil]
    obtain ⟨done, rfl, hret, _, pt, hstage⟩ := h
    rcases hstage.resp with hnone | ⟨_, g, hquiet, hg⟩
    · exact absurd (hnone.symm.trans hq) (by simp)
    · have hqueue := hquiet.resp
      rw [hq, List.cons.injEq] at hqueue
      obtain ⟨rfl, rfl⟩ := hqueue
      refine ⟨by rw [specResults_concat, hret, hg], ?_⟩
      rw [hloop, memAfter_concat]
      exact { hquiet with edges := Nat.zero_le _, resp := rfl }
  · rw [hloop, hwait, hcalls, hres, List.append_nil, List.append_nil]
    exact h

/-! ## Any run -/

theorem length_specResults (conf : ACCConf) (m : Mem) (as : List Access) :
    (specResults conf m as).length = as.length := by
  induction as generalizing m with
  | nil => rfl
  | cons a as ih => rw [specResults, List.length_cons, ih, List.length_cons]

/-- Any run keeps it. -/
theorem servingRun_run {mem m : Mem} {tr : List (Sys p × SysEvent p)} {s : Sys p}
    (hbus : 3 ≤ p.log2Stbw) (hoff : ∀ k, (conf.bar k).offset.toNat % p.stbw = 0)
    (h : Sys.Run conf warnMs (Sys.init mem m) tr s)
    (hok : ∀ c ∈ tr, ∀ renv, c.2.event = .recv renv → renv.fails warnMs = false)
    (hvalid : ∀ c ∈ tr, ∀ a, c.2.event = .call a → a.Valid conf) :
    ServingRun conf warnMs m tr s := by
  have h0 : ServingRun conf warnMs m [] (Sys.init (p := p) mem m) :=
    ⟨fun f hf => absurd hf List.not_mem_nil, rfl, quiet_init m⟩
  refine h.history (P := fun _ e => (∀ renv, e.event = .recv renv → renv.fails warnMs = false) ∧
    ∀ a, e.event = .call a → a.Valid conf) h0 (fun c hc => ⟨hok c hc, hvalid c hc⟩) ?_
  rintro past a e b ⟨hw, hs⟩ ⟨hok', hvalid'⟩ hstep
  unfold ServingRun
  simp only [events_append, events_cons, events_nil, List.append_nil]
  exact ⟨hw.step hstep, hs.step hbus hoff hw hok' hvalid' hstep⟩

/-- What the guest sees of it. -/
theorem ServingRun.seesMemory {m : Mem} {tr : List (Sys p × SysEvent p)} {s : Sys p}
    (h : ServingRun conf warnMs m tr s) : MmioSystem conf warnMs m tr s := by
  obtain ⟨_, hserving⟩ := h
  cases hwait : s.waiting with
  | none =>
    rw [hwait] at hserving
    obtain ⟨hret, hquiet⟩ := hserving
    have hlen := congrArg List.length hret
    rw [length_specResults] at hlen
    refine ⟨by rw [hlen, List.take_length, hret], by rw [hwait, hlen]; rfl, _, Nat.le_of_eq rfl,
      Nat.le_of_eq hlen, ?_⟩
    rw [hlen, List.take_length]
    exact congrArg Ram.mem hquiet.ram
  | some a =>
    rw [hwait] at hserving
    obtain ⟨done, hcalled, hret, _, pt, hstage⟩ := hserving
    have hlen := congrArg List.length hret
    rw [length_specResults] at hlen
    refine ⟨by rw [hlen, hcalled, List.take_left, hret], by rw [hwait, hlen, hcalled]; simp, ?_⟩
    rw [hcalled, hlen]
    rcases hstage.mem with hmem | hmem
    · exact ⟨done.length, Nat.le_refl _, by simp, by rw [List.take_left]; exact hmem⟩
    · refine ⟨(done ++ [a]).length, by simp, Nat.le_refl _, ?_⟩
      rw [List.take_length, memAfter_concat]
      exact hmem

/-- **What the guest sees of the RAM** is a byte memory that does its accesses one by one. In any
run from time zero in which the accesses are valid and no receive fails, whatever the
interleaving. -/
theorem mmioSystem {mem m : Mem} {tr : List (Sys p × SysEvent p)} {s : Sys p}
    (hbus : 3 ≤ p.log2Stbw) (hoff : ∀ k, (conf.bar k).offset.toNat % p.stbw = 0)
    (h : Sys.Run conf warnMs (Sys.init mem m) tr s)
    (hok : ∀ c ∈ tr, ∀ renv, c.2.event = .recv renv → renv.fails warnMs = false)
    (hvalid : ∀ c ∈ tr, ∀ a, c.2.event = .call a → a.Valid conf) :
    MmioSystem conf warnMs m tr s :=
  (servingRun_run hbus hoff h hok hvalid).seesMemory

/-! ## Two accesses that overlap, and DMA in between -/

/-- An edge of the system on which the RAM responds when it can. -/
def sysEdge (poll : PollSel) (inp : Input bus64) : SysEvent bus64 := ⟨edgeOf poll inp, true⟩

/-- Any other event. -/
def sysEvent (e : Event bus64) : SysEvent bus64 := ⟨e, false⟩

/-- The receive succeeds. -/
def recvReady : RecvEnv where
  pollerNew := true
  polls := [.ready]
  interrupted := false

theorem sys_step_reset (mem m : Mem) {k : Nat} (hk : k < 100) :
    Sys.step defaultConf 0 ⟨inReset mem k, Ram.idle m⟩ (sysEdge .none readyInput)
      = some ⟨inReset mem (k + 1), Ram.idle m⟩ := by
  have hdriven : (sysEdge .none readyInput).driven (Ram.idle m) = edgeOf .none readyInput := rfl
  unfold Sys.step
  rw [hdriven, step_reset mem hk]
  rfl

theorem sys_run_reset (mem m : Mem) : ∀ n ≤ 100,
    runM (Sys.step defaultConf 0) (Sys.init mem m) (List.replicate n (sysEdge .none readyInput))
      = some ⟨inReset mem n, Ram.idle m⟩
  | 0, _ => rfl
  | n + 1, hn => by
    rw [List.replicate_succ', runM_append, sys_run_reset mem m n (by omega), Option.bind_some,
      runM, sys_step_reset mem m (by omega)]
    rfl

/-- A write of two bytes and a read of the word they are in, with a DMA read and an interrupt in
between. -/
def accessesAndDma : List (SysEvent bus64) :=
  [sysEvent (.call (.write bar2 0x102 0xBBAA 2)), sysEvent (.deliver .qemuReq),
    sysEdge .qemuReq arCycle, sysEdge .none readyInput, sysEvent (.deliver .hdlReq),
    sysEdge .none readyInput, sysEdge .none readyInput, sysEdge .none readyInput,
    sysEvent (.deliver .qemuResp), sysEvent (.recv recvReady), sysEvent .activate,
    sysEvent .iterate, sysEvent .finish, sysEvent (.call (.read bar2 0x100 8)),
    sysEvent (.deliver .hdlResp), sysEdge .hdlResp readyInput, sysEvent (.deliver .qemuReq),
    sysEdge .qemuReq readyInput, sysEvent (.interrupt 4 ACCData.zero), sysEdge .none readyInput,
    sysEdge .none readyInput, sysEdge .none readyInput, sysEvent (.deliver .qemuResp),
    sysEvent (.recv recvReady)]

/-- No receive of the event fails. -/
def receives (e : SysEvent p) : Bool :=
  match e.event with
  | .recv renv => !renv.fails 0
  | _ => true

theorem fails_of_receives {e : SysEvent p} (h : receives e = true) :
    ∀ renv, e.event = .recv renv → renv.fails 0 = false := by
  intro renv he
  simpa [receives, he] using h

theorem mem_calls {tr : List (Sys p × SysEvent p)} {c : Sys p × SysEvent p} {a : Access}
    (hc : c ∈ tr) (ha : c.2.event = .call a) : a ∈ events Sys.calls tr :=
  List.mem_flatMap.mpr ⟨c, hc, by simp [Sys.calls, ha]⟩

/-- The read sees the two bytes between the zeros that were there. -/
theorem mmioSystem_accessesAndDma :
    ∃ (tr : List (Sys bus64 × SysEvent bus64)) (s : Sys bus64),
      Sys.Run defaultConf 0 (Sys.init (fun _ => 0) fun _ => 0) tr s ∧
      MmioSystem defaultConf 0 (fun _ => 0) tr s ∧
      events (Sys.results 0) tr = [none, some 0xBBAA0000] := by
  obtain ⟨tr, hreset, htr⟩ :=
    path_of_runM (sys_run_reset (fun _ => 0) (fun _ => 0) 100 (Nat.le_refl _))
  have hrun : ∃ s, runM (Sys.step defaultConf 0) ⟨inReset (fun _ => 0) 100, Ram.idle fun _ => 0⟩
      accessesAndDma = some s ∧ s.waiting = none := ⟨_, rfl, rfl⟩
  obtain ⟨s, hrun, hwait⟩ := hrun
  have hall := hreset.append (path_traceM hrun)
  have hevents : ∀ c ∈ tr, c.2 = sysEdge .none readyInput := by
    intro c hc
    have hmem := List.mem_map_of_mem (f := Prod.snd) hc
    rw [htr] at hmem
    exact List.eq_of_mem_replicate hmem
  have hnone : events Sys.calls tr = [] := by
    refine List.flatMap_eq_nil_iff.mpr fun c hc => ?_
    rw [Sys.calls, hevents c hc]
    rfl
  have hcalls : events Sys.calls (tr ++ traceM (Sys.step defaultConf 0)
      ⟨inReset (fun _ => 0) 100, Ram.idle fun _ => 0⟩ accessesAndDma)
        = overlapping.map Prod.fst := by
    rw [events_append, hnone]
    rfl
  have hreceives : accessesAndDma.all receives = true := rfl
  have hsys := mmioSystem (by decide) (by decide) hall
    (by
      intro c hc
      refine fails_of_receives ?_
      rcases List.mem_append.mp hc with hc | hc
      · rw [hevents c hc]
        rfl
      · exact List.all_eq_true.mp hreceives _ (snd_mem_of_traceM hc))
    (by
      intro c hc a ha
      have hmem := mem_calls hc ha
      rw [hcalls] at hmem
      obtain ⟨o, ho, rfl⟩ := List.mem_map.mp hmem
      exact overlapping_valid o ho)
  refine ⟨_, s, hall, hsys, ?_⟩
  have hlen := hsys.waiting
  rw [hcalls, hwait, if_neg (by decide), Nat.add_zero] at hlen
  rw [hsys.results, hcalls, ← hlen]
  decide

end Cosim

end QemuHdlSim
