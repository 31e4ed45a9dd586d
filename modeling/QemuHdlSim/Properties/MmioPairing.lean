import QemuHdlSim.Device.Mmio
import QemuHdlSim.Infra.Lists
import QemuHdlSim.Infra.Path

/-!
# When an MMIO access gets its own answer

The guest makes accesses one at a time. The HDL side takes the requests off `qemu_req` and
answers each with one frame on `qemu_resp`, in the order of the requests, when it likes. So the
answer to the request at position `n` of `qemu_req` is the frame at position `n` of `qemu_resp`.

Nothing in a frame is compared with the request: an access takes whatever frame is first in the
queue. An access whose receive fails leaves its answer there, and every later access that
receives a frame gets the answer to an earlier one:

* `inv_run` — which frame each access gets, over any run
* `paired_iff` — every access gets its own answer exactly when no receive succeeds after one
  that failed
-/

namespace QemuHdlSim.Pairing

open Infra

/-- A finished access. -/
structure Done where
  access : Access
  /-- The position of its request on `qemu_req`. -/
  index : Nat
  /-- The frame it received, with its position on `qemu_resp`. -/
  frame : Option (Nat × ZFrame)
  /-- What it returned to the guest. -/
  result : Option (BitVec 64)

/-- The device, its two sockets, and the accesses that are finished. -/
structure State where
  dev : MmioState
  log : List Done

/-- What can happen. -/
inductive Event where
  /-- The guest makes an access. -/
  | call (a : Access)
  /-- The receive of the access returns. -/
  | recv (env : RecvEnv)
  /-- A request reaches the HDL side. -/
  | deliverReq
  /-- The HDL side takes a request. -/
  | hdlTake
  /-- The HDL side answers the oldest request it has taken and not answered. -/
  | hdlAnswer (f : ZFrame)
  /-- An answer reaches the device. -/
  | deliverResp

/-- No access was made yet. -/
def init : State := ⟨MmioState.init, []⟩

/-- The entry of the access `a` that received `r` in state `s`. -/
def State.entry (s : State) (a : Access) (r : Option ZFrame) : Done where
  access := a
  index := s.dev.qemuReq.sent.length - 1
  frame := r.map fun f => (s.dev.qemuResp.taken, f)
  result := a.result r

/-- The access `a` received `r` and returned, leaving the device `d`. -/
def State.returned (s : State) (a : Access) (r : Option ZFrame) (d : MmioState) : State where
  dev := d
  log := s.log ++ [s.entry a r]

/-- One step; `none` when the event cannot happen. -/
def step (warnMs : Int) (s : State) : Event → Option State
  | .call a => (s.dev.call a).map fun d => { s with dev := d }
  | .recv env => (s.dev.recv warnMs env).map fun x => s.returned x.1 x.2.1 x.2.2
  | .deliverReq => s.dev.qemuReq.deliver.map fun q => { s with dev := { s.dev with qemuReq := q } }
  | .hdlTake => s.dev.qemuReq.recv?.map fun r => { s with dev := { s.dev with qemuReq := r.2 } }
  | .hdlAnswer f =>
      if s.dev.qemuResp.sent.length < s.dev.qemuReq.taken then
        some { s with dev := { s.dev with qemuResp := s.dev.qemuResp.send f } }
      else none
  | .deliverResp =>
      s.dev.qemuResp.deliver.map fun q => { s with dev := { s.dev with qemuResp := q } }

/-- Every access that received a frame received the answer to its own request. -/
def Paired (s : State) : Prop := ∀ e ∈ s.log, ∀ m f, e.frame = some (m, f) → m = e.index

/-- The receives of a run, in order. -/
def recvEnvs (evs : List Event) : List RecvEnv :=
  evs.flatMap fun e => match e with
    | .recv env => [env]
    | _ => []

/-- Once a receive failed, all later ones do. -/
def NoFrameAfterFailure (warnMs : Int) (evs : List Event) : Prop :=
  (recvEnvs evs).Pairwise fun env env' => env.fails warnMs = true → env'.fails warnMs = true

/-! ## Which frame an access gets -/

/-- The access received a frame. -/
def Done.received (e : Done) : Bool := e.frame.isSome

/-- The frames taken off `qemu_resp` are those of the accesses that received one. -/
structure LogInv (s : State) : Prop where
  sent : s.dev.qemuReq.sent.length = s.log.length + (if s.dev.waiting.isSome then 1 else 0)
  taken : s.dev.qemuResp.taken = s.log.countP Done.received
  index : ∀ (k : Nat) (e : Done), s.log[k]? = some e → e.index = k
  frame : ∀ (k : Nat) (e : Done), s.log[k]? = some e → ∀ m f, e.frame = some (m, f) →
    m = (s.log.take k).countP Done.received ∧ s.dev.qemuResp.sent[m]? = some f ∧
      e.result = e.access.result (some f)

theorem inv_init : LogInv init where
  sent := rfl
  taken := rfl
  index := by simp [init]
  frame := by simp [init]

/-- A step of the sockets: the log and what was taken are the same, and nothing sent is lost. -/
theorem LogInv.of_sockets {s : State} {d : MmioState} (h : LogInv s)
    (hreq : d.qemuReq.sent = s.dev.qemuReq.sent) (hwait : d.waiting = s.dev.waiting)
    (htaken : d.qemuResp.taken = s.dev.qemuResp.taken)
    (hsent : ∃ fs, d.qemuResp.sent = s.dev.qemuResp.sent ++ fs) :
    LogInv { s with dev := d } where
  sent := by
    show d.qemuReq.sent.length = s.log.length + _
    rw [hreq, hwait]
    exact h.sent
  taken := htaken.trans h.taken
  index := h.index
  frame := by
    intro k e he m f hf
    obtain ⟨h1, h2, h3⟩ := h.frame k e he m f hf
    obtain ⟨fs, hfs⟩ := hsent
    refine ⟨h1, ?_, h3⟩
    show d.qemuResp.sent[m]? = some f
    rw [hfs, List.getElem?_append_left (List.getElem?_eq_some_iff.mp h2).1]
    exact h2

/-- The entry behind a log: an old one, or the new one at the end. -/
theorem getElem?_snoc {log : List Done} {new e : Done} {k : Nat}
    (h : (log ++ [new])[k]? = some e) : log[k]? = some e ∨ (k = log.length ∧ e = new) := by
  rcases Nat.lt_trichotomy k log.length with hlt | heq | hgt
  · rw [List.getElem?_append_left hlt] at h
    exact Or.inl h
  · subst heq
    rw [List.getElem?_append_right (Nat.le_refl _), Nat.sub_self] at h
    cases h
    exact Or.inr ⟨rfl, rfl⟩
  · rw [List.getElem?_append_right (Nat.le_of_lt hgt),
      List.getElem?_eq_none (by rw [List.length_singleton]; omega)] at h
    exact absurd h (by simp)

/-- A receive that returned adds one access to the log. -/
theorem LogInv.of_recv {s : State} {warnMs : Int} {env : RecvEnv} {a : Access}
    {r : Option ZFrame} {d : MmioState} (h : LogInv s)
    (hrecv : s.dev.recv warnMs env = some (a, r, d)) :
    LogInv (s.returned a r d) := by
  obtain ⟨hwait, q, hq, rfl⟩ := MmioState.recv_eq_some hrecv
  have hsent := h.sent
  rw [hwait] at hsent
  -- whether a frame came or not, the queue after it is the queue before, less that frame
  have htake : q.sent = s.dev.qemuResp.sent ∧
      q.taken = s.dev.qemuResp.taken + (if r.isSome then 1 else 0) ∧
      ∀ f, r = some f → s.dev.qemuResp.sent[s.dev.qemuResp.taken]? = some f := by
    rcases accZframeRecvLogged_cases hq with ⟨_, rfl, rfl⟩ | ⟨_, f, rfl, hf⟩
    · exact ⟨rfl, rfl, by simp⟩
    · obtain ⟨_, hx, hs, ht, _⟩ := Fifo.recv?_eq_some hf
      refine ⟨hs, ht, ?_⟩
      rintro g hg
      cases hg
      exact hx
  obtain ⟨hqs, hqt, hqf⟩ := htake
  have hlog : (s.returned a r { s.dev with waiting := none, qemuResp := q }).log
      = s.log ++ [s.entry a r] := rfl
  refine ⟨?_, ?_, ?_, ?_⟩
  · rw [hlog, List.length_append]
    exact hsent
  · rw [hlog, List.countP_append, List.countP_singleton, ← h.taken]
    refine hqt.trans ?_
    rw [Done.received, State.entry, Option.isSome_map]
  · intro k e he
    rcases getElem?_snoc he with hold | ⟨rfl, rfl⟩
    · exact h.index k e hold
    · show s.dev.qemuReq.sent.length - 1 = _
      rw [hsent]
      exact Nat.add_sub_cancel _ _
  · intro k e he m f hf
    rcases getElem?_snoc he with hold | ⟨rfl, rfl⟩
    · obtain ⟨h1, h2, h3⟩ := h.frame k e hold m f hf
      have hk := (List.getElem?_eq_some_iff.mp hold).1
      refine ⟨?_, hqs ▸ h2, h3⟩
      rw [h1, hlog, List.take_append_of_le_length (Nat.le_of_lt hk)]
    · obtain ⟨f', hr, heq⟩ := Option.map_eq_some_iff.mp hf
      cases heq
      refine ⟨?_, hqs ▸ hqf f hr, by rw [State.entry, hr]⟩
      rw [hlog, List.take_left]
      exact h.taken

/-- **One step keeps the invariant.** -/
theorem inv_step {warnMs : Int} {s s' : State} {e : Event} (h : LogInv s)
    (hs : step warnMs s e = some s') : LogInv s' := by
  cases e with
  | call a =>
    obtain ⟨d, hcall, rfl⟩ := Option.map_eq_some_iff.mp hs
    obtain ⟨hwait, rfl⟩ := MmioState.call_eq_some hcall
    have hsent := h.sent
    rw [hwait] at hsent
    refine ⟨?_, h.taken, h.index, h.frame⟩
    simp only [Fifo.send_sent, List.length_append, List.length_singleton]
    simpa using hsent
  | recv env =>
    obtain ⟨⟨a, r, d⟩, hrecv, rfl⟩ := Option.map_eq_some_iff.mp hs
    exact h.of_recv hrecv
  | deliverReq =>
    obtain ⟨q, hq, rfl⟩ := Option.map_eq_some_iff.mp hs
    exact h.of_sockets (Fifo.deliver_eq_some hq).1 rfl rfl ⟨[], (List.append_nil _).symm⟩
  | hdlTake =>
    obtain ⟨⟨f, q⟩, hq, rfl⟩ := Option.map_eq_some_iff.mp hs
    obtain ⟨_, _, hsent, _⟩ := Fifo.recv?_eq_some hq
    exact h.of_sockets hsent rfl rfl ⟨[], (List.append_nil _).symm⟩
  | hdlAnswer f =>
    simp only [step] at hs
    split at hs
    · cases hs
      exact h.of_sockets rfl rfl rfl ⟨[f], rfl⟩
    · exact absurd hs (by simp)
  | deliverResp =>
    obtain ⟨q, hq, rfl⟩ := Option.map_eq_some_iff.mp hs
    obtain ⟨hsent, htaken, _⟩ := Fifo.deliver_eq_some hq
    exact h.of_sockets rfl rfl htaken ⟨[], by rw [hsent, List.append_nil]⟩

/-- Which accesses received a frame: those whose receive did not fail. -/
theorem received_step {warnMs : Int} {s s' : State} {e : Event}
    (hs : step warnMs s e = some s') :
    s'.log.map Done.received = s.log.map Done.received ++
      (recvEnvs [e]).map (fun env => !env.fails warnMs) := by
  cases e with
  | recv env =>
    obtain ⟨⟨a, r, d⟩, hrecv, rfl⟩ := Option.map_eq_some_iff.mp hs
    obtain ⟨_, q, hq, _⟩ := MmioState.recv_eq_some hrecv
    show (s.log ++ [s.entry a r]).map Done.received = _
    rw [List.map_append]
    rcases accZframeRecvLogged_cases hq with ⟨hf, rfl, _⟩ | ⟨hf, f, rfl, _⟩
    · simp [recvEnvs, Done.received, State.entry, hf]
    · simp [recvEnvs, Done.received, State.entry, hf]
  | call a =>
    obtain ⟨d, _, rfl⟩ := Option.map_eq_some_iff.mp hs
    simp [recvEnvs]
  | deliverReq =>
    obtain ⟨q, _, rfl⟩ := Option.map_eq_some_iff.mp hs
    simp [recvEnvs]
  | hdlTake =>
    obtain ⟨q, _, rfl⟩ := Option.map_eq_some_iff.mp hs
    simp [recvEnvs]
  | hdlAnswer f =>
    simp only [step] at hs
    split at hs
    · cases hs
      simp [recvEnvs]
    · exact absurd hs (by simp)
  | deliverResp =>
    obtain ⟨q, _, rfl⟩ := Option.map_eq_some_iff.mp hs
    simp [recvEnvs]

/-- Both over a whole run. -/
theorem inv_run {warnMs : Int} {evs : List Event} {s : State}
    (h : runM (step warnMs) init evs = some s) :
    LogInv s ∧ s.log.map Done.received = (recvEnvs evs).map (fun env => !env.fails warnMs) := by
  obtain ⟨tr, hpath, htr⟩ := path_of_runM h
  refine ⟨hpath.invariant (P := fun _ _ => True) inv_init (fun _ _ => trivial)
    (fun _ _ _ ha _ hb => inv_step ha hb), ?_⟩
  have hlog := hpath.accumulate (fun a => a.log.map Done.received)
    (fun _ e => (recvEnvs [e]).map (fun env => !env.fails warnMs))
    (fun _ _ _ hb => received_step hb)
  have hevs : recvEnvs evs = tr.flatMap fun c => recvEnvs [c.2] := by
    rw [← htr, recvEnvs, List.flatMap_map]
    refine List.flatMap_congr fun c _ => ?_
    simp [recvEnvs]
  rw [hlog, hevs, List.map_flatMap]
  rfl

/-! ## The condition -/

/--
**Every access gets its own answer exactly when no receive succeeds after one that failed.**

In any run, an access that received a frame got the frame at position `m` of `qemu_resp` and
returned what that frame decodes to; `m` is the position of its own request in all cases if and
only if the run's receives are such that after a failure there are only failures.
-/
theorem paired_iff {warnMs : Int} {evs : List Event} {s : State}
    (h : runM (step warnMs) init evs = some s) :
    (∀ e ∈ s.log, ∀ m f, e.frame = some (m, f) →
        s.dev.qemuResp.sent[m]? = some f ∧ e.result = e.access.result (some f)) ∧
      (Paired s ↔ NoFrameAfterFailure warnMs evs) := by
  obtain ⟨hinv, hreceived⟩ := inv_run h
  constructor
  · intro e he m f hf
    obtain ⟨k, hk⟩ := List.getElem?_of_mem he
    exact (hinv.frame k e hk m f hf).2
  · have hpair : NoFrameAfterFailure warnMs evs ↔
        s.log.Pairwise fun e e' => e.received = false → e'.received = false := by
      have hmap : (s.log.map Done.received).Pairwise (fun b b' => b = false → b' = false) ↔
          ((recvEnvs evs).map (fun env => !env.fails warnMs)).Pairwise
            (fun b b' => b = false → b' = false) := by rw [hreceived]
      rw [List.pairwise_map, List.pairwise_map] at hmap
      rw [hmap]
      simp [NoFrameAfterFailure]
    rw [hpair, pairwise_false_iff_countP]
    constructor
    · intro hp k e he hr
      obtain ⟨⟨m, f⟩, hf⟩ := Option.isSome_iff_exists.mp hr
      obtain ⟨hm, _⟩ := hinv.frame k e he m f hf
      rw [← hm, hp e (List.mem_of_getElem? he) m f hf, hinv.index k e he]
    · intro hc e he m f hf
      obtain ⟨k, hk⟩ := List.getElem?_of_mem he
      rw [(hinv.frame k e hk m f hf).1, hinv.index k e hk]
      exact hc k e hk (by rw [Done.received, hf]; rfl)

/-! ## Two reads -/

/-- The receive succeeds. -/
def recvOk : Event := .recv { pollerNew := true, polls := [.ready], interrupted := false }

/-- `zframe_recv` is interrupted. -/
def recvInterrupted : Event := .recv { pollerNew := true, polls := [.ready], interrupted := true }

/-- A read of one byte. -/
def readByte (addr : BitVec 64) : Event := .call (.read bar0 addr 1)

/-- The HDL side takes the next request and answers it with the byte `x`. -/
def answer (x : Byte) : List Event :=
  [.deliverReq, .hdlTake,
    .hdlAnswer ⟨sizeofACCData, { ACCData.zero with data := fun _ => x }⟩, .deliverResp]

/-- Two reads; both receives succeed. -/
def twoReads : List Event :=
  [readByte 0] ++ answer 0x11 ++ [recvOk, readByte 4] ++ answer 0x22 ++ [recvOk]

theorem paired_twoReads :
    ∃ s, runM (step 0) init twoReads = some s ∧
      s.log.map Done.result = [some 0x11, some 0x22] ∧ Paired s := by
  refine ⟨_, rfl, rfl, (@paired_iff 0 twoReads _ rfl).2.mpr ?_⟩
  refine List.Pairwise.cons (fun env _ h => ?_) (List.pairwise_singleton _ _)
  exact absurd h (by decide)

/-- The first receive is interrupted: the second read returns the answer to the first. -/
theorem paired_interrupted :
    ∃ s, runM (step 0) init
        ([readByte 0, recvInterrupted] ++ answer 0x11 ++ [readByte 4] ++ answer 0x22 ++ [recvOk])
          = some s ∧
      s.log.map Done.result = [some 0, some 0x11] ∧ ¬Paired s := by
  refine ⟨_, rfl, rfl, ?_⟩
  intro hp
  have hwrong : 0 = 1 := hp _ (List.mem_cons_of_mem _ List.mem_cons_self) 0 _ rfl
  exact absurd hwrong (by decide)

end QemuHdlSim.Pairing
