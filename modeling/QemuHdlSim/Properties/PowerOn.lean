import QemuHdlSim.System.Boot
import QemuHdlSim.Properties.MmioSystem

/-!
# From power on to the accesses of the guest

The two processes start in any order, and neither waits for the other except in the INIT exchange.
`PowerOn` says what holds in all their interleavings: QEMU never has another configuration than the
HDL side, it does nothing with the device before it has it, and every access that its memory core
lets through is one that the HDL side maps.

* `Agrees.step` — one step
* `powerOn` — any run
-/

namespace QemuHdlSim.Cosim

open Infra Axi4Ip

variable {p : BusParams} {conf : ACCConf} {warnMs : Int} {mem m : Mem}

/-! ## Before the device is plugged -/

/-- QEMU has done nothing for the HDL side yet. -/
structure Untouched (mem : Mem) (s : State p) : Prop where
  waiting : s.dev.waiting = none
  handling : s.handling = false
  host : s.host = ⟨mem, [], []⟩

/-- And what goes on without QEMU leaves it at that. -/
theorem Untouched.step {s s' : State p} {e : Event p} (h : Untouched mem s)
    (hcall : ∀ a, e ≠ .call a) (hactivate : e ≠ .activate)
    (hstep : Cosim.step conf warnMs s e = some s') : Untouched mem s' := by
  cases e with
  | edge x =>
    obtain ⟨_, _, _, _, _, hhost, hhandling, hwait, _⟩ := State.edge_eq_some hstep
    exact ⟨hwait.trans h.waiting, hhandling.trans h.handling, hhost.trans h.host⟩
  | interrupt d stack =>
    cases hstep
    exact ⟨h.waiting, h.handling, h.host⟩
  | deliver pipe =>
    obtain ⟨_, _, _, hhost, hhandling, hwait, _⟩ := State.deliver_eq_some hstep
    exact ⟨hwait.trans h.waiting, hhandling.trans h.handling, hhost.trans h.host⟩
  | call a => exact absurd rfl (hcall a)
  | recv env =>
    obtain ⟨⟨a, ha⟩, _⟩ := step_recv hstep
    exact absurd (h.waiting.symm.trans ha) (by simp)
  | activate => exact absurd rfl hactivate
  | iterate => exact absurd (h.handling.symm.trans (step_iterate hstep).1) (by simp)
  | finish =>
    obtain ⟨_, rfl⟩ := step_finish hstep
    exact ⟨h.waiting, rfl, h.host⟩

/-- The RAM drives no event of QEMU. -/
theorem SysEvent.driven_qemu {e : SysEvent p} {ram : Ram} :
    (∀ a, e.driven ram = .call a → e.event = .call a) ∧
      (e.driven ram = .activate → e.event = .activate) := by
  obtain ⟨ev, respond⟩ := e
  cases ev with
  | edge x => exact ⟨by simp [driven], by simp [driven]⟩
  | _ => exact ⟨fun _ h => h, fun h => h⟩

/-! ## The INIT exchange -/

/-- What QEMU has sent on `initsock`. -/
def Qemu.inits : Qemu → List ACCData
  | .off => []
  | _ => [Boot.initReq]

/-- What both sides know of each other. -/
structure Agrees (conf : ACCConf) (mem : Mem) (b : Boot p) : Prop where
  /-- QEMU has the configuration of the HDL side, if any. -/
  hdlconf : ∀ c, b.qemu.hdlconf = some c → c = conf
  /-- Every INIT that was polled was answered with it. -/
  answers : b.initsock2.sent = List.replicate b.initsock.taken ⟨sizeofACCConf, conf⟩
  asked : b.initsock.sent = b.qemu.inits
  /-- QEMU has it from an answer. -/
  polled : b.qemu.hdlconf ≠ none → b.initsock.taken = 1 ∧ b.initsock2.taken = 1
  unread : b.qemu = .off ∨ b.qemu = .waiting → b.initsock2.taken = 0
  early : b.qemu.isRealized = false → Untouched mem b.sys.cosim

theorem agrees_init : Agrees conf mem (Boot.init (p := p) mem m) :=
  ⟨by simp [Boot.init, Qemu.hdlconf], rfl, rfl,
    fun h => absurd rfl h, fun _ => rfl, fun _ => ⟨rfl, rfl, rfl⟩⟩

variable {b b' : Boot p}

/-- INIT is sent once. -/
theorem Agrees.sent_le (h : Agrees conf mem b) : b.initsock.sent.length ≤ 1 := by
  rw [h.asked]
  cases b.qemu <;> simp [Qemu.inits]

theorem Agrees.taken_le (h : Agrees conf mem b) : b.initsock.taken ≤ 1 :=
  Nat.le_trans b.initsock.taken_le_sent h.sent_le

/-- An answer that is received is `conf`, and it is the only one. -/
theorem Agrees.received (h : Agrees conf mem b) {f : ConfFrame} {q : Fifo ConfFrame}
    (hrecv : b.initsock2.recv? = some (f, q)) :
    f = ⟨sizeofACCConf, conf⟩ ∧ b.initsock.taken = 1 := by
  obtain ⟨hlt, hf, _⟩ := Fifo.recv?_eq_some hrecv
  have hmem := List.mem_of_getElem? hf
  rw [h.answers] at hmem
  have hlen := congrArg List.length h.answers
  rw [List.length_replicate] at hlen
  have hdel := b.initsock2.delivered_le
  have htaken := h.taken_le
  exact ⟨List.eq_of_mem_replicate hmem, by omega⟩

/-- **One step keeps it.** -/
theorem Agrees.step {e : BootEvent p} (h : Agrees conf mem b)
    (hstep : b.step conf warnMs e = some b') : Agrees conf mem b' := by
  rcases Boot.step_cases hstep with ⟨ev, rfl, hallows, hs, hqemu, hpoll⟩ | ⟨rfl, hoff, rfl⟩ |
    ⟨env, r, q, rfl, hwaiting, hrecv, rfl⟩ | ⟨c, rfl, hready, rfl⟩ | ⟨q, rfl, hdel, rfl⟩ |
    ⟨q, rfl, hdel, rfl⟩
  · -- an event of the system
    have hearly : b'.qemu.isRealized = false → Untouched mem b'.sys.cosim := by
      intro hnot
      rw [hqemu] at hnot
      obtain ⟨c, hc, hsys⟩ := Option.map_eq_some_iff.mp hs
      rw [← hsys]
      refine (h.early hnot).step (fun a ha => ?_) (fun ha => ?_) hc
      · rw [SysEvent.driven_qemu.1 a ha] at hallows
        simp only [Boot.allows] at hallows
        cases hq : b.qemu with
        | realized c => simp [hq, Qemu.isRealized] at hnot
        | _ => simp [hq] at hallows
      · rw [SysEvent.driven_qemu.2 ha] at hallows
        exact absurd (hnot.symm.trans hallows) (by simp)
    rcases Boot.pollInit_eq_some hpoll with ⟨x, f, _, _, hinit, hanswer⟩ | ⟨_, hsame, hsame'⟩
    · obtain ⟨_, _, hsent, htaken, _⟩ := Fifo.recv?_eq_some hinit
      have hle := b'.initsock.taken_le_sent
      refine ⟨hqemu ▸ h.hdlconf, ?_, ?_, ?_, ?_, hearly⟩
      · rw [hanswer, Fifo.send_sent, h.answers, htaken, List.replicate_succ']
      · rw [hqemu, hsent]
        exact h.asked
      · intro hsome
        have hpolled := (h.polled (hqemu ▸ hsome)).1
        have hsentLe := h.sent_le
        rw [← hsent] at hsentLe
        omega
      · rw [hqemu, hanswer]
        exact h.unread
    · refine ⟨hqemu ▸ h.hdlconf, ?_, ?_, ?_, ?_, hearly⟩
      · rw [hsame, hsame']
        exact h.answers
      · rw [hqemu, hsame]
        exact h.asked
      · rw [hqemu, hsame, hsame']
        exact h.polled
      · rw [hqemu, hsame']
        exact h.unread
  · -- INIT is sent
    refine ⟨by simp [Qemu.hdlconf], h.answers, ?_, fun hn => absurd rfl hn,
      fun _ => h.unread (Or.inl hoff), fun _ => h.early (by rw [hoff]; rfl)⟩
    rw [Fifo.send_sent, h.asked, hoff]
    rfl
  · -- the answer is received
    have hearly := h.early (by rw [hwaiting]; rfl)
    have hasked : b.initsock.sent = [Boot.initReq] := by rw [h.asked, hwaiting]; rfl
    rcases recvLogged_cases hrecv with ⟨rfl, rfl⟩ | ⟨f, rfl, hf⟩
    · exact ⟨by simp [Boot.afterInit, Qemu.hdlconf], h.answers, hasked,
        fun hn => absurd rfl hn, by simp [Boot.afterInit], fun _ => hearly⟩
    · obtain ⟨rfl, htaken⟩ := h.received hf
      obtain ⟨_, _, hsent, hnext, _⟩ := Fifo.recv?_eq_some hf
      rw [h.unread (Or.inr hwaiting)] at hnext
      refine ⟨fun c hc => (Option.some.inj hc).symm, ?_, hasked, fun _ => ⟨htaken, hnext⟩,
        by simp [Boot.afterInit], fun _ => hearly⟩
      show q.sent = _
      rw [hsent]
      exact h.answers
  · -- the device is plugged
    have hsome : b.qemu.hdlconf = some c := by rw [hready]; rfl
    have hasked : b.initsock.sent = [Boot.initReq] := by rw [h.asked, hready]; rfl
    exact ⟨fun c' hc' => h.hdlconf c' (hsome.trans hc'), h.answers, hasked,
      fun _ => h.polled (by rw [hsome]; simp), by simp, by simp [Qemu.isRealized]⟩
  · obtain ⟨hsent, htaken, _⟩ := Fifo.deliver_eq_some hdel
    refine ⟨h.hdlconf, ?_, ?_, ?_, h.unread, h.early⟩
    · show b.initsock2.sent = List.replicate q.taken _
      rw [htaken]
      exact h.answers
    · show q.sent = b.qemu.inits
      rw [hsent]
      exact h.asked
    · show b.qemu.hdlconf ≠ none → q.taken = 1 ∧ _
      rw [htaken]
      exact h.polled
  · obtain ⟨hsent, htaken, _⟩ := Fifo.deliver_eq_some hdel
    refine ⟨h.hdlconf, ?_, h.asked, ?_, ?_, h.early⟩
    · show q.sent = _
      rw [hsent]
      exact h.answers
    · show b.qemu.hdlconf ≠ none → _ ∧ q.taken = 1
      rw [htaken]
      exact h.polled
    · show _ → q.taken = 0
      rw [htaken]
      exact h.unread

theorem agrees_run {tr : List (Boot p × BootEvent p)}
    (h : Boot.Run conf warnMs (Boot.init mem m) tr b) : Agrees conf mem b :=
  h.invariant (P := fun _ _ => True) agrees_init (fun _ _ => trivial)
    (fun _ _ _ ha _ hstep => ha.step hstep)

/-! ## The accesses that are made -/

theorem mem_sizes {n : Nat} (h : n ∈ [1, 2, 4, 8]) : ∃ j ≤ 3, n = 2 ^ j := by
  simp only [List.mem_cons, List.not_mem_nil, or_false] at h
  rcases h with rfl | rfl | rfl | rfl
  · exact ⟨0, by decide, rfl⟩
  · exact ⟨1, by decide, rfl⟩
  · exact ⟨2, by decide, rfl⟩
  · exact ⟨3, by decide, rfl⟩

/-- What the memory core lets through is what the MMIO path was made for. -/
theorem valid_of_dispatched {a : Access} (h : dispatched conf a = true) : a.Valid conf := by
  have hadmits : admits conf a.bar a.addr a.size = true := by cases a <;> exact h
  unfold admits Lifecycle.registeredBars at hadmits
  by_cases hbar : (conf.bar a.bar).isValid = true
  · rw [if_pos hbar] at hadmits
    simp only [Bool.and_eq_true, decide_eq_true_eq] at hadmits
    exact ⟨hbar, hadmits.1.1, mem_sizes hadmits.1.2, hadmits.2⟩
  · rw [if_neg hbar] at hadmits
    exact absurd hadmits (by simp)

/-- A call is dispatched, with the configuration of the HDL side. -/
theorem Agrees.call_valid (h : Agrees conf mem b) {ev : SysEvent p} {a : Access}
    (hallows : b.allows ev.event = true) (ha : ev.event = .call a) : a.Valid conf := by
  rw [ha] at hallows
  simp only [Boot.allows] at hallows
  split at hallows
  · next c hrealized =>
    have hc := h.hdlconf c (by rw [hrealized]; rfl)
    rw [hc] at hallows
    exact valid_of_dispatched hallows
  · exact absurd hallows (by simp)

/-- No receive of the event fails. -/
def BootEvent.Receives (warnMs : Int) (e : BootEvent p) : Prop :=
  (∀ env, e = .confRecv env → env.fails warnMs = false) ∧
    ∀ ev env, e = .sys ev → ev.event = .recv env → env.fails warnMs = false

theorem receives_edge (x : Edge p) (respond : Bool) :
    BootEvent.Receives warnMs (.sys ⟨.edge x, respond⟩) := by
  refine ⟨by simp, ?_⟩
  rintro ev env heq hev
  cases heq
  exact absurd hev (by simp)

/-- The windows of the HDL side begin where those of the parameters do. -/
theorem setup_offsets {q : IpParams} (hconf : q.setup = some conf)
    (hoff : ∀ k, (q.barOffset k).toNat % p.stbw = 0) (k : Fin 6) :
    (conf.bar k).offset.toNat % p.stbw = 0 := by
  obtain ⟨_, _, _, _, hbar⟩ := setup_eq_some hconf
  rw [(hbar k).2.1]
  exact hoff k

/-- Every access that the guest makes is one that the HDL side maps. -/
theorem calls_valid {tr : List (Boot p × BootEvent p)}
    (h : Boot.Run conf warnMs (Boot.init mem m) tr b) :
    ∀ a ∈ events Sys.calls (Boot.sysTrace tr), a.Valid conf := by
  intro a ha
  obtain ⟨⟨s, ⟨ev, respond⟩⟩, hc, hcall⟩ := List.mem_flatMap.mp ha
  have hev : ev = .call a := by
    cases ev with
    | call a' => rw [List.mem_singleton.mp hcall]
    | _ => exact absurd hcall List.not_mem_nil
  obtain ⟨d, hd, _⟩ := Boot.mem_sysTrace hc
  have hagrees : Agrees conf mem d := h.invariant_mem (P := fun _ _ => True) agrees_init
    (fun _ _ => trivial) (fun _ _ _ ha _ hstep => ha.step hstep) _ hd
  obtain ⟨d', hstep⟩ := h.step_of_mem hd
  rcases Boot.sys_step hstep with ⟨ev', heq, hallows, _⟩ | ⟨hother, _⟩
  · cases heq
    exact hagrees.call_valid hallows hev
  · exact absurd rfl (hother _)

/-- The run of the system is one of those that serve the accesses. -/
theorem servingRun_boot {tr : List (Boot p × BootEvent p)} (hbus : 3 ≤ p.log2Stbw)
    (hoff : ∀ k, (conf.bar k).offset.toNat % p.stbw = 0)
    (h : Boot.Run conf warnMs (Boot.init mem m) tr b)
    (hok : ∀ c ∈ tr, c.2.Receives warnMs) : ServingRun conf warnMs m (Boot.sysTrace tr) b.sys := by
  refine servingRun_run hbus hoff (Boot.run_sys h) ?_ ?_
  · intro c hc renv hev
    obtain ⟨a, ha, _⟩ := Boot.mem_sysTrace hc
    exact (hok _ ha).2 c.2 renv rfl hev
  · exact fun c hc a hev => calls_valid h a (mem_calls hc hev)

/-- The device stays plugged. -/
theorem realized_step {e : BootEvent p} {c : ACCConf} (h : b.step conf warnMs e = some b')
    (hr : b.qemu = .realized c) : b'.qemu = .realized c := by
  rcases Boot.step_cases h with ⟨_, _, _, _, hqemu, _⟩ | ⟨_, hoff, _⟩ | ⟨_, _, _, _, hwait, _, _⟩ |
    ⟨_, _, hready, _⟩ | ⟨_, _, _, rfl⟩ | ⟨_, _, _, rfl⟩
  · exact hqemu.trans hr
  · exact absurd (hr.symm.trans hoff) (by simp)
  · exact absurd (hr.symm.trans hwait) (by simp)
  · exact absurd (hr.symm.trans hready) (by simp)
  · exact hr
  · exact hr

/-- No access is made before the device is plugged. -/
def NoneEarly (tr : List (Boot p × BootEvent p)) (b : Boot p) : Prop :=
  b.qemu.isRealized = false → events Sys.calls (Boot.sysTrace tr) = []

theorem noneEarly_run {tr : List (Boot p × BootEvent p)}
    (h : Boot.Run conf warnMs (Boot.init mem m) tr b) : NoneEarly tr b := by
  refine h.history (P := fun _ _ => True) (fun _ => rfl) (fun _ _ => trivial) ?_
  intro past a e c ih _ hstep hnot
  have hbefore : a.qemu.isRealized = false := by
    cases hq : a.qemu with
    | realized hdlconf =>
      rw [realized_step hstep hq] at hnot
      exact hnot
    | _ => rfl
  rw [Boot.sysTrace_append, events_append, ih hbefore, List.nil_append]
  rcases Boot.sys_step hstep with ⟨⟨ev, respond⟩, rfl, hallows, _⟩ | ⟨hother, _⟩
  · cases ev with
    | call x =>
      simp only [Boot.allows] at hallows
      cases hq : a.qemu with
      | realized hdlconf => simp [hq, Qemu.isRealized] at hbefore
      | _ => simp [hq] at hallows
    | _ => rfl
  · cases e with
    | sys ev => exact absurd rfl (hother ev)
    | _ => rfl

/-! ## Any run -/

/-- **What a run from power on has come to.** -/
structure PowerOn (conf : ACCConf) (warnMs : Int) (mem m : Mem)
    (tr : List (Boot p × BootEvent p)) (b : Boot p) : Prop where
  /-- QEMU has no other configuration than the HDL side. -/
  hdlconf : ∀ c, b.qemu.hdlconf = some c → c = conf
  /-- Its INIT is answered once. -/
  once : b.initsock2.sent = List.replicate b.initsock.taken ⟨sizeofACCConf, conf⟩ ∧
    b.initsock.taken ≤ 1
  /-- As long as the device is not plugged the guest has made no access, and nothing that the HDL
  side asks for was done. -/
  early : b.qemu.isRealized = false → events Sys.calls (Boot.sysTrace tr) = [] ∧
    b.sys.cosim.host = ⟨mem, [], []⟩
  /-- And then the accesses see a byte memory. -/
  memory : MmioSystem conf warnMs m (Boot.sysTrace tr) b.sys

/-- **From power on.** In any run, whichever of the two processes comes first, and whatever the HDL
side does before QEMU is there. -/
theorem powerOn {q : IpParams} (hconf : q.setup = some conf) {tr : List (Boot p × BootEvent p)}
    (hbus : 3 ≤ p.log2Stbw) (hoff : ∀ k, (q.barOffset k).toNat % p.stbw = 0)
    (h : Boot.Run conf warnMs (Boot.init mem m) tr b) (hok : ∀ c ∈ tr, c.2.Receives warnMs) :
    PowerOn conf warnMs mem m tr b := by
  have hagrees := agrees_run h
  have hserving := servingRun_boot hbus (setup_offsets hconf hoff) h hok
  exact ⟨hagrees.hdlconf, ⟨hagrees.answers, hagrees.taken_le⟩,
    fun hnot => ⟨noneEarly_run h hnot, (hagrees.early hnot).host⟩, hserving.seesMemory⟩

/-! ## INIT in the first edge, and then two accesses -/

/-- QEMU starts, and the first edge polls its INIT. -/
def startUp : List (BootEvent bus64) :=
  [.classInit, .deliverInit, .sys (sysEdge .initsock readyInput), .deliverConf, .confRecv recvReady,
    .realize]

/-- The device is plugged after `k` edges of the reset. -/
def plugged (k : Nat) : Boot bus64 where
  sys := ⟨inReset (fun _ => 0) k, Ram.idle fun _ => 0⟩
  initsock := ⟨[Boot.initReq], 1, 1, by decide, by decide⟩
  initsock2 := ⟨[⟨sizeofACCConf, defaultConf⟩], 1, 1, by decide, by decide⟩
  qemu := .realized defaultConf

theorem run_startUp : runM (Boot.step defaultConf 0) (Boot.init (fun _ => 0) fun _ => 0) startUp
    = some (plugged 1) := rfl

theorem step_plugged {k : Nat} (hk : k < 100) :
    Boot.step defaultConf 0 (plugged k) (.sys (sysEdge .none readyInput))
      = some (plugged (k + 1)) := by
  have hsys : (plugged k).sys.step defaultConf 0 (sysEdge .none readyInput)
      = some (plugged (k + 1)).sys := sys_step_reset _ _ hk
  have hallows : (plugged k).allows (sysEdge .none readyInput).event = true := rfl
  simp only [Boot.step]
  rw [if_pos hallows, hsys]
  rfl

theorem run_plugged (k : Nat) : ∀ n, k + n ≤ 100 →
    runM (Boot.step defaultConf 0) (plugged k) (List.replicate n (.sys (sysEdge .none readyInput)))
      = some (plugged (k + n))
  | 0, _ => rfl
  | n + 1, hn => by
    rw [List.replicate_succ', runM_append, run_plugged k n (by omega), Option.bind_some, runM,
      step_plugged (by omega)]
    rfl

/-- Up to the end of the reset. -/
def resetEvents : List (BootEvent bus64) :=
  startUp ++ List.replicate 99 (.sys (sysEdge .none readyInput))

theorem run_resetEvents : runM (Boot.step defaultConf 0) (Boot.init (fun _ => 0) fun _ => 0)
    resetEvents = some (plugged 100) := by
  rw [resetEvents, runM_append, run_startUp, Option.bind_some, run_plugged 1 99 (Nat.le_refl _)]

/-- No receive of the event fails. -/
def bootReceives : BootEvent bus64 → Bool
  | .sys e => receives e
  | .confRecv env => !env.fails 0
  | _ => true

theorem receives_of_bootReceives {e : BootEvent bus64} (h : bootReceives e = true) :
    e.Receives 0 := by
  cases e with
  | sys ev =>
    refine ⟨by simp, ?_⟩
    rintro ev' env heq hev
    cases heq
    exact fails_of_receives h env hev
  | confRecv env =>
    refine ⟨?_, by simp⟩
    rintro env' heq
    cases heq
    simpa [bootReceives] using h
  | _ => exact ⟨by simp, by simp⟩

theorem receives_resetEvents : ∀ e ∈ resetEvents, e.Receives 0 := by
  have hstart : startUp.all bootReceives = true := rfl
  intro e he
  refine receives_of_bootReceives ?_
  rcases List.mem_append.mp he with he | he
  · exact List.all_eq_true.mp hstart e he
  · rw [List.eq_of_mem_replicate he]
    rfl

/-- No access is made in them. -/
theorem events_resetEvents :
    events Sys.calls (Boot.sysTrace (traceM (Boot.step defaultConf 0)
        (Boot.init (fun _ => 0) fun _ => 0) resetEvents)) = [] ∧
      events (Sys.results 0) (Boot.sysTrace (traceM (Boot.step defaultConf 0)
        (Boot.init (fun _ => 0) fun _ => 0) resetEvents)) = [] := by
  have hedge : ∀ c ∈ Boot.sysTrace (traceM (Boot.step defaultConf 0)
      (Boot.init (fun _ => 0) fun _ => 0) resetEvents), ∃ sel, c.2 = sysEdge sel readyInput := by
    intro c hc
    obtain ⟨a, ha, _⟩ := Boot.mem_sysTrace hc
    rcases List.mem_append.mp (snd_mem_of_traceM ha) with he | he
    · simp only [startUp, List.mem_cons, List.not_mem_nil, or_false, reduceCtorEq, false_or,
        BootEvent.sys.injEq] at he
      exact ⟨_, he⟩
    · exact ⟨_, BootEvent.sys.inj (List.eq_of_mem_replicate he)⟩
  constructor
  · refine List.flatMap_eq_nil_iff.mpr fun c hc => ?_
    obtain ⟨sel, hsel⟩ := hedge c hc
    rw [Sys.calls, hsel]
    rfl
  · refine List.flatMap_eq_nil_iff.mpr fun c hc => ?_
    obtain ⟨sel, hsel⟩ := hedge c hc
    rw [Sys.results, hsel]
    rfl

/-- The two accesses of `accessesAndDma` return. -/
theorem powerOn_accessesAndDma :
    ∃ (tr : List (Boot bus64 × BootEvent bus64)) (b : Boot bus64),
      Boot.Run defaultConf 0 (Boot.init (fun _ => 0) fun _ => 0) tr b ∧
      PowerOn defaultConf 0 (fun _ => 0) (fun _ => 0) tr b ∧ b.qemu = .realized defaultConf ∧
      (events (Sys.results 0) (Boot.sysTrace tr)).length = 2 := by
  have hrun : ∃ b, runM (Boot.step defaultConf 0) (plugged 100) (accessesAndDma.map .sys) = some b ∧
      b.qemu = .realized defaultConf := ⟨_, rfl, rfl⟩
  obtain ⟨b, hrun, hqemu⟩ := hrun
  have hall := (path_traceM run_resetEvents).append (path_traceM hrun)
  have hreceives : accessesAndDma.all receives = true := rfl
  refine ⟨_, b, hall, powerOn setup_default (by decide) (by decide) hall ?_, hqemu, ?_⟩
  · intro c hc
    rcases List.mem_append.mp hc with hc | hc
    · exact receives_resetEvents _ (snd_mem_of_traceM hc)
    · obtain ⟨e, he, heq⟩ := List.mem_map.mp (snd_mem_of_traceM hc)
      rw [← heq]
      exact receives_of_bootReceives (List.all_eq_true.mp hreceives e he)
  · rw [Boot.sysTrace_append, events_append, events_resetEvents.2]
    rfl

end QemuHdlSim.Cosim
