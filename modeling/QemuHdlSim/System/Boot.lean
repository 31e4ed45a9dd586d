import QemuHdlSim.Bridge.Setup
import QemuHdlSim.Device.Lifecycle
import QemuHdlSim.Infra.Fair
import QemuHdlSim.System.MmioSystem

/-!
# The co-simulation from power on

Before the device is there QEMU has to know what to plug. `acc_pcie_class_init` sends an INIT frame
on `initsock` and waits for `conf` on `initsock2`; `acc_pcie_realize` then registers the BARs that
`conf` has, opens the sockets, and registers `handle_hdl_request`. Before that there is neither an
access of the guest nor a main loop that serves the HDL side, while the HDL side may be running for
a long time already.

The HDL side binds `hdl_req` and QEMU connects to it in `acc_pcie_realize`, so that a send before
that holds the simulator until QEMU is there. Here the frame waits in the pipe and the clock may go
on, which only adds runs.

`C_poll` is left no choice here: `zpoller_wait` reports the first socket of its list that has a
frame.

The ids of frames, which no one reads, are counted from the first access; `acc_next_txid` has given
its first number to the INIT frame.
-/

namespace QemuHdlSim.Cosim

open Infra Axi4Ip

variable {p : BusParams}

/-! ## The receive of `acc_zframe_recv_logged` -/

/-- Whether a receive comes back with a frame; `none` when it does not come back. -/
def recvOutcome (warnMs : Int) (env : RecvEnv) : Option Bool :=
  if warnMs ≤ 0 ∨ env.pollerNew = false then some !env.interrupted
  else (pollLoop env.polls).map fun ok => ok && !env.interrupted

/-- `acc_zframe_recv_logged`, for frames of any kind. -/
def recvLogged {α : Type} (warnMs : Int) (env : RecvEnv) (q : Fifo α) :
    Option (Option α × Fifo α) :=
  (recvOutcome warnMs env).bind fun ok =>
    if ok then q.recv?.map fun r => (some r.1, r.2) else some (none, q)

/-- It is the one of the accesses. -/
theorem accZframeRecvLogged_eq (warnMs : Int) (env : RecvEnv) (q : Fifo ZFrame) :
    accZframeRecvLogged warnMs env q = recvLogged warnMs env q := by
  have hrecv : zframeRecv env.interrupted q
      = if !env.interrupted then q.recv?.map fun r => (some r.1, r.2) else some (none, q) := by
    unfold zframeRecv
    cases env.interrupted <;> rfl
  unfold accZframeRecvLogged recvLogged recvOutcome
  by_cases hwarn : warnMs ≤ 0
  · rw [if_pos hwarn, if_pos (Or.inl hwarn), Option.bind_some, hrecv]
  · cases hnew : env.pollerNew with
    | false =>
      rw [if_neg hwarn, if_pos rfl, if_pos (Or.inr rfl), Option.bind_some, hrecv]
    | true =>
      rw [if_neg hwarn, if_neg (by simp), if_neg (by simp [hwarn])]
      cases pollLoop env.polls with
      | none => rfl
      | some ok => cases ok <;> simp [hrecv]

theorem fails_of_outcome {warnMs : Int} {env : RecvEnv}
    (h : recvOutcome warnMs env = some false) : env.fails warnMs = true := by
  unfold recvOutcome at h
  unfold RecvEnv.fails
  by_cases hplain : warnMs ≤ 0 ∨ env.pollerNew = false
  · rw [if_pos hplain] at h
    simp only [Option.some.injEq, Bool.not_eq_eq_eq_not, Bool.not_false] at h
    rw [h]
    rfl
  · rw [if_neg hplain] at h
    obtain ⟨hwarn, hnew⟩ := not_or.mp hplain
    obtain ⟨ok, hok, hand⟩ := Option.map_eq_some_iff.mp h
    have hpos : 0 < warnMs := Int.not_le.mp hwarn
    cases ok with
    | false => simp [hok, hpos, hnew]
    | true =>
      simp only [Bool.true_and, Bool.not_eq_eq_eq_not, Bool.not_false] at hand
      rw [hand]
      rfl

/-- **A receive that comes back** has taken the head of its queue, or nothing. -/
theorem recvLogged_cases {α : Type} {warnMs : Int} {env : RecvEnv} {q q' : Fifo α} {r : Option α}
    (h : recvLogged warnMs env q = some (r, q')) :
    (r = none ∧ q' = q) ∨ ∃ f, r = some f ∧ q.recv? = some (f, q') := by
  obtain ⟨ok, _, h⟩ := Option.bind_eq_some_iff.mp h
  cases ok with
  | false =>
    cases h
    exact Or.inl ⟨rfl, rfl⟩
  | true =>
    obtain ⟨⟨f, q''⟩, hrecv, heq⟩ := Option.map_eq_some_iff.mp h
    cases heq
    exact Or.inr ⟨f, rfl, hrecv⟩

/-- **A receive that comes back and does not fail** has taken the head of its queue. -/
theorem recvLogged_eq_some {α : Type} {warnMs : Int} {env : RecvEnv} {q q' : Fifo α} {r : Option α}
    (hok : env.fails warnMs = false) (h : recvLogged warnMs env q = some (r, q')) :
    ∃ f, r = some f ∧ q.recv? = some (f, q') := by
  obtain ⟨ok, houtcome, h⟩ := Option.bind_eq_some_iff.mp h
  cases ok with
  | false => exact absurd (hok.symm.trans (fails_of_outcome houtcome)) (by simp)
  | true =>
    obtain ⟨⟨f, q''⟩, hrecv, heq⟩ := Option.map_eq_some_iff.mp h
    cases heq
    exact ⟨f, rfl, hrecv⟩

/-! ## States and events -/

/-- The answer to INIT as `zframe_recv` hands it out: its size and its bytes read as an
`ACCConf`. -/
structure ConfFrame where
  size : Nat
  conf : ACCConf

/-- `sizeof(ACCConf)`, with its padding. -/
def sizeofACCConf : Nat := 184

/-- How far QEMU is. -/
inductive Qemu where
  /-- It is not started. -/
  | off
  /-- `acc_pcie_class_init` has sent INIT, and waits. -/
  | waiting
  /-- `acc_pcie_class_init` has filled `hdlconf`. -/
  | ready (hdlconf : ACCConf)
  /-- `acc_pcie_realize` has come to its end. -/
  | realized (hdlconf : ACCConf)
  /-- `exit(1)` -/
  | exited

/-- `hdlconf_storage`, once it is filled. -/
def Qemu.hdlconf : Qemu → Option ACCConf
  | .ready hdlconf => some hdlconf
  | .realized hdlconf => some hdlconf
  | _ => none

/-- The device is plugged. -/
def Qemu.isRealized : Qemu → Bool
  | .realized _ => true
  | _ => false

/-- The system with the two pipes of the INIT exchange. -/
structure Boot (p : BusParams) where
  sys : Sys p
  initsock : Fifo ACCData
  initsock2 : Fifo ConfFrame
  qemu : Qemu

/-- Power on. -/
def Boot.init (mem m : Mem) : Boot p := ⟨Sys.init mem m, Fifo.empty, Fifo.empty, .off⟩

inductive BootEvent (p : BusParams) where
  | sys (e : SysEvent p)
  /-- `acc_pcie_class_init`, up to its receive. -/
  | classInit
  /-- Its receive, and what follows. -/
  | confRecv (env : RecvEnv)
  /-- `acc_pcie_realize` comes to its end. -/
  | realize
  /-- The INIT frame arrives. -/
  | deliverInit
  /-- Its answer arrives. -/
  | deliverConf

/-! ## `zpoller_wait` -/

deriving instance DecidableEq for PollSel

/-- The list that `zpoller_new` was given. -/
def pollList : List PollSel := [.initsock, .qemuReq, .hdlResp]

namespace Boot

/-- The socket has a frame. -/
def hasFrame (b : Boot p) : PollSel → Bool
  | .none => false
  | .initsock => decide (b.initsock.taken < b.initsock.delivered)
  | .qemuReq => decide (b.sys.cosim.dev.qemuReq.taken < b.sys.cosim.dev.qemuReq.delivered)
  | .hdlResp => decide (b.sys.cosim.hdlResp.taken < b.sys.cosim.hdlResp.delivered)

/-- `zpoller_wait(poller, 0)`: the first socket in the order of the list that has a frame. -/
def zpollerWait (b : Boot p) : PollSel := (pollList.find? b.hasFrame).getD .none

end Boot

/-! ## What QEMU lets through -/

/-- What `memory_region_init_io` and the `valid` of `mmio_ops_bar` admit: a region that is
registered, an access in it, of one to eight bytes, and aligned. -/
def admits (hdlconf : ACCConf) (num : Fin 6) (addr : BitVec 64) (size : BitVec 32) : Bool :=
  match Lifecycle.registeredBars hdlconf num with
  | some (_, regionSize) => decide (addr.toNat + size.toNat ≤ regionSize.toNat) &&
      decide (size.toNat ∈ [1, 2, 4, 8]) && decide (addr.toNat % size.toNat = 0)
  | none => false

/-- The memory core calls `mmio_ops_bar` for the access. -/
def dispatched (hdlconf : ACCConf) : Access → Bool
  | .read num addr size => admits hdlconf num addr size
  | .write num addr _ size => admits hdlconf num addr size

namespace Boot

/-- The event can happen now, as far as QEMU and the poller go. -/
def allows (b : Boot p) : Event p → Bool
  | .edge x => decide (x.poll = b.zpollerWait)
  | .call a =>
    match b.qemu with
    | .realized hdlconf => dispatched hdlconf a
    | _ => false
  -- there is no handler before `qemu_set_fd_handler`
  | .activate => b.qemu.isRealized
  | _ => true

/-- `acc_init_req` -/
def initReq : ACCData :=
  { ACCData.zero with id := 1, dataSize := 32, address := 9999, op := .init, barNum := 16 }

/-- The `initsock` branch of `C_poll` on the two pipes, if the event is an edge that takes it. -/
def pollInit (conf : ACCConf) (b : Boot p) : Event p → Option (Fifo ACCData × Fifo ConfFrame)
  | .edge x =>
    if x.poll = .initsock then
      b.initsock.recv?.bind fun r => (cPoll p.stbw conf .initsock b.sys.cosim.ip.vars).map fun v =>
        (r.2, b.initsock2.sendAll (v.2.toList.map fun c => ⟨sizeofACCConf, c⟩))
    else some (b.initsock, b.initsock2)
  | _ => some (b.initsock, b.initsock2)

/-- What `acc_pcie_class_init` does with what it received. -/
def afterInit : Option ConfFrame → Qemu
  | none => .exited
  | some f => if f.size < sizeofACCConf then .exited else .ready f.conf

/-- One step; `none` when the event cannot happen. -/
def step (conf : ACCConf) (warnMs : Int) (b : Boot p) : BootEvent p → Option (Boot p)
  | .sys e =>
    if b.allows e.event then
      (b.sys.step conf warnMs e).bind fun s => (b.pollInit conf e.event).map fun r =>
        { b with sys := s, initsock := r.1, initsock2 := r.2 }
    else none
  | .classInit =>
    match b.qemu with
    | .off => some { b with qemu := .waiting, initsock := b.initsock.send initReq }
    | _ => none
  | .confRecv env =>
    match b.qemu with
    | .waiting => (recvLogged warnMs env b.initsock2).map fun r =>
        { b with qemu := afterInit r.1, initsock2 := r.2 }
    | _ => none
  | .realize =>
    match b.qemu with
    | .ready hdlconf => some { b with qemu := .realized hdlconf }
    | _ => none
  | .deliverInit => b.initsock.deliver.map fun q => { b with initsock := q }
  | .deliverConf => b.initsock2.deliver.map fun q => { b with initsock2 := q }

/-- A run from any state. -/
abbrev Run (conf : ACCConf) (warnMs : Int) (b : Boot p) (tr : List (Boot p × BootEvent p))
    (b' : Boot p) : Prop :=
  Path (fun a e b => step conf warnMs a e = some b) b tr b'

/-- What is left of a trace when QEMU's start is taken out of it. -/
def sysTrace (tr : List (Boot p × BootEvent p)) : List (Sys p × SysEvent p) :=
  tr.filterMap fun c =>
    match c.2 with
    | .sys e => some (c.1.sys, e)
    | _ => none

/-! ## What a step does -/

variable {conf : ACCConf} {warnMs : Int} {b b' : Boot p}

/-- The poll of INIT sends `conf`, and no other event touches the two pipes. -/
theorem pollInit_eq_some {e : Event p} {q : Fifo ACCData} {q' : Fifo ConfFrame}
    (h : b.pollInit conf e = some (q, q')) :
    (∃ x f, e = .edge x ∧ x.poll = .initsock ∧ b.initsock.recv? = some (f, q) ∧
        q' = b.initsock2.send ⟨sizeofACCConf, conf⟩) ∨
      ((∀ x, e = .edge x → x.poll ≠ .initsock) ∧ q = b.initsock ∧ q' = b.initsock2) := by
  cases e with
  | edge x =>
    simp only [pollInit] at h
    split at h
    · next hpoll =>
      obtain ⟨⟨f, q''⟩, hrecv, h⟩ := Option.bind_eq_some_iff.mp h
      cases h
      exact Or.inl ⟨x, f, rfl, hpoll, hrecv, rfl⟩
    · next hpoll =>
      cases h
      refine Or.inr ⟨?_, rfl, rfl⟩
      rintro y heq
      cases heq
      exact hpoll
  | _ =>
    cases h
    exact Or.inr ⟨by simp, rfl, rfl⟩

/-- **What a step does.** -/
theorem step_cases {e : BootEvent p} (h : b.step conf warnMs e = some b') :
    (∃ ev, e = .sys ev ∧ b.allows ev.event = true ∧ b.sys.step conf warnMs ev = some b'.sys ∧
        b'.qemu = b.qemu ∧ b.pollInit conf ev.event = some (b'.initsock, b'.initsock2)) ∨
      (e = .classInit ∧ b.qemu = .off ∧
        b' = { b with qemu := .waiting, initsock := b.initsock.send initReq }) ∨
      (∃ env r q, e = .confRecv env ∧ b.qemu = .waiting ∧
        recvLogged warnMs env b.initsock2 = some (r, q) ∧
        b' = { b with qemu := afterInit r, initsock2 := q }) ∨
      (∃ hdlconf, e = .realize ∧ b.qemu = .ready hdlconf ∧
        b' = { b with qemu := .realized hdlconf }) ∨
      (∃ q, e = .deliverInit ∧ b.initsock.deliver = some q ∧ b' = { b with initsock := q }) ∨
      (∃ q, e = .deliverConf ∧ b.initsock2.deliver = some q ∧ b' = { b with initsock2 := q }) := by
  cases e with
  | sys ev =>
    refine Or.inl ?_
    simp only [step] at h
    split at h
    · next hallows =>
      obtain ⟨s, hs, h⟩ := Option.bind_eq_some_iff.mp h
      obtain ⟨⟨q, q'⟩, hpoll, rfl⟩ := Option.map_eq_some_iff.mp h
      exact ⟨ev, rfl, hallows, hs, rfl, hpoll⟩
    · exact absurd h (by simp)
  | classInit =>
    refine Or.inr (Or.inl ?_)
    simp only [step] at h
    split at h
    · next hoff =>
      cases h
      exact ⟨rfl, hoff, rfl⟩
    · exact absurd h (by simp)
  | confRecv env =>
    refine Or.inr (Or.inr (Or.inl ?_))
    simp only [step] at h
    split at h
    · next hwaiting =>
      obtain ⟨⟨r, q⟩, hrecv, rfl⟩ := Option.map_eq_some_iff.mp h
      exact ⟨env, r, q, rfl, hwaiting, hrecv, rfl⟩
    · exact absurd h (by simp)
  | realize =>
    refine Or.inr (Or.inr (Or.inr (Or.inl ?_)))
    simp only [step] at h
    split at h
    · next hdlconf hready =>
      cases h
      exact ⟨hdlconf, rfl, hready, rfl⟩
    · exact absurd h (by simp)
  | deliverInit =>
    obtain ⟨q, hq, rfl⟩ := Option.map_eq_some_iff.mp h
    exact Or.inr (Or.inr (Or.inr (Or.inr (Or.inl ⟨q, rfl, hq, rfl⟩))))
  | deliverConf =>
    obtain ⟨q, hq, rfl⟩ := Option.map_eq_some_iff.mp h
    exact Or.inr (Or.inr (Or.inr (Or.inr (Or.inr ⟨q, rfl, hq, rfl⟩))))

/-- A step is one of the system, or leaves it alone. -/
theorem sys_step {e : BootEvent p} (h : b.step conf warnMs e = some b') :
    (∃ ev, e = .sys ev ∧ b.allows ev.event = true ∧ b.sys.step conf warnMs ev = some b'.sys) ∨
      ((∀ ev, e ≠ .sys ev) ∧ b'.sys = b.sys) := by
  rcases step_cases h with ⟨ev, rfl, hallows, hs, _⟩ | ⟨rfl, _, rfl⟩ | ⟨_, _, _, rfl, _, _, rfl⟩ |
    ⟨_, rfl, _, rfl⟩ | ⟨_, rfl, _, rfl⟩ | ⟨_, rfl, _, rfl⟩
  · exact Or.inl ⟨ev, rfl, hallows, hs⟩
  · exact Or.inr ⟨by simp, rfl⟩
  · exact Or.inr ⟨by simp, rfl⟩
  · exact Or.inr ⟨by simp, rfl⟩
  · exact Or.inr ⟨by simp, rfl⟩
  · exact Or.inr ⟨by simp, rfl⟩

/-- **The run of the system** in a run from power on. -/
theorem run_sys {tr : List (Boot p × BootEvent p)} (h : Run conf warnMs b tr b') :
    Sys.Run conf warnMs b.sys (sysTrace tr) b'.sys := by
  induction h with
  | nil => exact Path.nil _
  | @cons a c d e tr hstep _ ih =>
    rcases sys_step hstep with ⟨ev, rfl, _, hs⟩ | ⟨hother, hs⟩
    · exact Path.cons hs ih
    · have hskip : sysTrace ((a, e) :: tr) = sysTrace tr := by
        cases e with
        | sys ev => exact absurd rfl (hother ev)
        | _ => rfl
      rwa [hskip, ← hs]

/-- An event of the system that is in the trace. -/
theorem mem_sysTrace {tr : List (Boot p × BootEvent p)} {c : Sys p × SysEvent p}
    (h : c ∈ sysTrace tr) : ∃ a, (a, .sys c.2) ∈ tr ∧ a.sys = c.1 := by
  obtain ⟨⟨a, e⟩, hmem, heq⟩ := List.mem_filterMap.mp h
  cases e with
  | sys ev =>
    cases heq
    exact ⟨a, hmem, rfl⟩
  | _ => exact absurd heq (by simp)

theorem mem_sysTrace_of_mem {tr : List (Boot p × BootEvent p)} {a : Boot p} {e : SysEvent p}
    (h : (a, .sys e) ∈ tr) : (a.sys, e) ∈ sysTrace tr :=
  List.mem_filterMap.mpr ⟨_, h, rfl⟩

theorem sysTrace_append (tr tr' : List (Boot p × BootEvent p)) :
    sysTrace (tr ++ tr') = sysTrace tr ++ sysTrace tr' := List.filterMap_append ..

/-- A run of events of the system is a run of the system. -/
theorem runM_sys {es : List (SysEvent p)}
    (h : runM (step conf warnMs) b (es.map .sys) = some b') :
    runM (Sys.step conf warnMs) b.sys es = some b'.sys ∧
      sysTrace (traceM (step conf warnMs) b (es.map .sys))
        = traceM (Sys.step conf warnMs) b.sys es := by
  induction es generalizing b with
  | nil =>
    cases h
    exact ⟨rfl, rfl⟩
  | cons e es ih =>
    obtain ⟨a, ha, hrest⟩ := Option.bind_eq_some_iff.mp h
    obtain ⟨hrun, htrace⟩ := ih hrest
    rcases sys_step ha with ⟨ev, heq, _, hs⟩ | ⟨hother, _⟩
    · cases heq
      rw [List.map_cons, runM, traceM, traceM, ha, hs]
      exact ⟨hrun, congrArg _ htrace⟩
    · exact absurd rfl (hother e)

end Boot

end QemuHdlSim.Cosim
