import QemuHdlSim.Properties.IssueOrder

/-!
# Completions and posted writes

A DMA write travels on `hdl_req` and is executed by `handle_hdl_request`; the answer to an MMIO
access travels on `qemu_resp` and is taken by the access itself. Nothing ties the two together:
`CompletionsOrdered`, the rule of a PCIe hierarchy that a completion does not pass the writes
posted before it, does not hold (`completion_passes`).

What holds is `writeAtReturn`. The handler cannot run while an access waits, so a write is
executed by the time the access returns if and only if it was executed before the access was
made; otherwise it is still on `hdl_req`, in its place, and the next time the handler returns
after the frame has arrived it is executed.
-/

namespace QemuHdlSim.Cosim

open Infra Axi4Ip

variable {p : BusParams} {conf : ACCConf} {warnMs : Int}

/-! ## The rule -/

/--
The producer-consumer rule over a run: when an access returns, every write that was on `hdl_req`
and acknowledged on the B channel before the answer was put on `qemu_resp` is executed.

The answer to an access is the frame of `qemu_resp` at the position of its request on `qemu_req`.
The write at position `n` is acknowledged when there were as many B handshakes as writes up to it.
-/
def CompletionsOrdered (tr : List (State p × Event p)) : Prop :=
  ∀ before b between c after env, tr = before ++ b :: between ++ c :: after → c.2 = .recv env →
    b.1.dev.qemuResp.sent.length < c.1.dev.qemuReq.sent.length →
    ∀ n w, b.1.hdlReq.sent[n]? = some w → w.op = .write →
      (b.1.hdlReq.sent.take (n + 1)).countP ACCData.isWrite
        ≤ (events bHandshakes before).length →
      n < c.1.hdlReq.taken

/-- A read by the guest, and a write of the HDL master up to its B response. -/
def writeDuringRead : List (Event bus64) :=
  [.call (.read bar0 0x10 4), .deliver .qemuReq, edgeOf .qemuReq awCycle, edgeOf .none wCycle,
    edgeOf .none readyInput]

/-- The HDL side answers the read. -/
def rCycle : Input bus64 := { readyInput with iMRvalid := true, iMRlast := true }

/-- The state in which the read is answered: its request and the write are there. -/
theorem run_writeDuringRead :
    ∃ s : State bus64, runM (step defaultConf 0) (init fun _ => 0)
        (List.replicate 100 (edgeOf .none readyInput) ++ writeDuringRead) = some s ∧
      s.dev.qemuResp.sent.length = 0 ∧ owedB s = [] ∧
      s.hdlReq.sent.map (fun w => (w.op, w.address)) = [(.write, 0x1000)] ∧
      ∃ t, runM (step defaultConf 0) s [edgeOf .none rCycle, .deliver .qemuResp] = some t ∧
        t.dev.qemuReq.sent.length = 1 ∧ t.hdlReq.taken = 0 ∧
        ∃ t', step defaultConf 0 t (.recv ⟨true, [], false⟩) = some t' ∧
          t'.dev.waiting.isNone = true ∧ t'.mem 0x1000 = 0 := by
  rw [runM_append, run_reset _ 100 (Nat.le_refl _)]
  exact ⟨_, rfl, rfl, rfl, rfl, _, rfl, rfl, rfl, _, rfl, rfl, rfl⟩

/--
**A completion passes a write.** The guest's read returns when the write, which was answered on
the B channel before the read was, is still in flight; the byte it writes is not in memory.
-/
theorem completion_passes :
    ∃ (tr : List (State bus64 × Event bus64)) (s : State bus64),
      Run defaultConf 0 (init fun _ => 0) tr s ∧ ¬CompletionsOrdered tr ∧
      s.dev.waiting.isNone = true ∧ s.mem 0x1000 = 0 := by
  obtain ⟨s, hrun, hresp, hb, hsent, t, hrun', hreq, htaken, t', hrecv, hwait, hmem⟩ :=
    run_writeDuringRead
  obtain ⟨w, hw, hop⟩ := List.map_eq_singleton_iff.mp hsent
  obtain ⟨tr, hpath, _⟩ := path_of_runM hrun
  obtain ⟨tr', hpath', hevs⟩ := path_of_runM hrun'
  cases tr' with
  | nil => exact absurd hevs (by simp)
  | cons b between =>
    have hbs : b.1 = s := by
      obtain ⟨_, hbs, _⟩ := hpath'.cons_inv
      exact hbs
    refine ⟨_, t', (hpath.append hpath').snoc hrecv, fun hord => ?_, hwait, hmem⟩
    -- the write is acknowledged: no response is shown any more
    have hacked : (b.1.hdlReq.sent.take 1).countP ACCData.isWrite
        ≤ (events bHandshakes tr).length := by
      have hlaw := b_run hpath
      rw [hb, ← sent_run hpath, List.length_nil, Nat.add_zero] at hlaw
      rw [hbs, hw, ← hlaw, hw]
      exact Nat.le_refl _
    have hlt := hord tr b between (t, _) [] _ rfl rfl (by rw [hbs, hresp, hreq]; decide) 0 w
      (by rw [hbs, hw]; rfl) (Prod.mk.inj hop).1 hacked
    rw [htaken] at hlt
    exact absurd hlt (by decide)

/-! ## What holds -/

/--
What is known of the write `w` at position `n` of `hdl_req` when an access returns in `s`, and
was made in `s₀`.
-/
structure WriteAtReturn (conf : ACCConf) (warnMs : Int) (s₀ s : State p) (n : Nat)
    (w : ACCData) : Prop where
  /-- It is not lost. -/
  kept : s.hdlReq.sent[n]? = some w
  /-- It is executed exactly when it was before the access was made. -/
  executed_iff : n < s.hdlReq.taken ↔ n < s₀.hdlReq.taken
  /-- If it is, its bytes are in guest memory, where no later write was executed. -/
  written : n < s.hdlReq.taken → ∀ x, w.Covers x →
    (∀ j g, n < j → j < s.hdlReq.taken → s.hdlReq.sent[j]? = some g → ¬g.Covers x) →
    s.mem x = w.data.get (x - w.address.toNat)
  /-- If not, it stays in its place, and is executed when the handler returns after its arrival. -/
  later : ∀ tr s', Run conf warnMs s tr s' → s'.hdlReq.sent[n]? = some w ∧
    ∀ s'', step conf warnMs s' .finish = some s'' → n < s'.hdlReq.delivered →
      n < s''.hdlReq.taken

/-- What was sent on `hdl_req` stays there. -/
theorem sent_kept {s s' : State p} {tr : List (State p × Event p)} {n : Nat} {w : ACCData}
    (h : Run conf warnMs s tr s') (hw : s.hdlReq.sent[n]? = some w) :
    s'.hdlReq.sent[n]? = some w := by
  have hsent := h.accumulate (fun a => a.hdlReq.sent) issued (fun _ _ _ hb => sent_step hb)
  rw [hsent, List.getElem?_append_left (List.getElem?_eq_some_iff.mp hw).1]
  exact hw

/-- The bytes of an executed write. -/
theorem written_of_taken {mem : Mem} {s : State p} {n x : Nat} {w : ACCData}
    (hexec : Executed mem s) (hw : s.hdlReq.sent[n]? = some w) (hn : n < s.hdlReq.taken)
    (hx : w.Covers x)
    (hlater : ∀ j g, n < j → j < s.hdlReq.taken → s.hdlReq.sent[j]? = some g → ¬g.Covers x) :
    s.mem x = w.data.get (x - w.address.toNat) := by
  obtain ⟨hlt, rfl⟩ := List.getElem?_eq_some_iff.mp hw
  have htake : s.hdlReq.sent.take s.hdlReq.taken
      = s.hdlReq.sent.take n ++ s.hdlReq.sent[n] ::
          (s.hdlReq.sent.take s.hdlReq.taken).drop (n + 1) := by
    have hlen : n < (s.hdlReq.sent.take s.hdlReq.taken).length := by
      rw [List.length_take]
      omega
    have hsplit := List.take_append_drop n (s.hdlReq.sent.take s.hdlReq.taken)
    rw [List.drop_eq_getElem_cons hlen, List.take_take, Nat.min_eq_left (Nat.le_of_lt hn),
      List.getElem_take] at hsplit
    exact hsplit.symm
  unfold Executed at hexec
  rw [htake] at hexec
  refine handleHdlRequest_written hexec hx ?_
  intro g hg
  obtain ⟨i, hi, rfl⟩ := List.mem_iff_getElem.mp hg
  rw [List.getElem_drop, List.getElem_take]
  rw [List.length_drop, List.length_take] at hi
  exact hlater (n + 1 + i) _ (by omega) (by omega) (List.getElem?_eq_getElem _)

/--
**A write when an access returns.** In any run, for an access made in `s₀` and returning in `s₃`,
and any write on `hdl_req` by then, among them those issued before the access was answered.
-/
theorem writeAtReturn {mem : Mem} {tr₀ tr₁ : List (State p × Event p)} {s₀ s₁ s₂ s₃ : State p}
    {a : Access} {env : RecvEnv} (h₀ : Run conf warnMs (init mem) tr₀ s₀)
    (hcall : step conf warnMs s₀ (.call a) = some s₁) (h₁ : Run conf warnMs s₁ tr₁ s₂)
    (hwaits : ∀ c ∈ tr₁, c.2.NotRecv) (hrecv : step conf warnMs s₂ (.recv env) = some s₃)
    {n : Nat} {w : ACCData} (hw : s₂.hdlReq.sent[n]? = some w) :
    WriteAtReturn conf warnMs s₀ s₃ n w := by
  obtain ⟨_, _, d, rfl, hwait⟩ := step_call hcall
  have hx := (exclusive_run h₀).step hcall
  have htaken := (waiting_run h₁ hx (by rw [hwait]; simp) hwaits).2.1
  have hexec := (executed_run ((h₀.snoc hcall).append h₁)).step hrecv
  obtain ⟨_, d', rfl, _⟩ := step_recv hrecv
  refine ⟨hw, by rw [← show s₂.hdlReq.taken = s₀.hdlReq.taken from htaken],
    fun hn x hc hlater => written_of_taken hexec hw hn hc hlater, ?_⟩
  intro tr s' h
  refine ⟨sent_kept h hw, ?_⟩
  intro s'' hfinish hdel
  obtain ⟨hle, rfl⟩ := step_finish hfinish
  exact Nat.lt_of_lt_of_le hdel hle

/-- The write of `writeDuringRead` when the read returns. -/
theorem writeAtReturn_inFlight :
    ∃ (s₀ s₃ : State bus64) (w : ACCData), w.op = .write ∧ w.address = 0x1000 ∧
      s₃.hdlReq.taken = 0 ∧ WriteAtReturn defaultConf 0 s₀ s₃ 0 w := by
  obtain ⟨tr₀, h₀, _⟩ := path_of_runM (run_reset (fun _ => 0) 100 (Nat.le_refl _))
  obtain ⟨s₁, hcall, s₂, hrun, w, hw, hop, haddr, s₃, hrecv, htaken⟩ :
      ∃ s₁, step defaultConf 0 (inReset (fun _ => 0) 100) (.call (.read bar0 0x10 4)) = some s₁ ∧
        ∃ s₂, runM (step defaultConf 0) s₁
            (writeDuringRead.drop 1 ++ [edgeOf .none rCycle, .deliver .qemuResp]) = some s₂ ∧
          ∃ w, s₂.hdlReq.sent[0]? = some w ∧ w.op = .write ∧ w.address = 0x1000 ∧
            ∃ s₃, step defaultConf 0 s₂ (.recv ⟨true, [], false⟩) = some s₃ ∧
              s₃.hdlReq.taken = 0 :=
    ⟨_, rfl, _, rfl, _, rfl, rfl, rfl, _, rfl, rfl⟩
  obtain ⟨tr₁, h₁, hevs⟩ := path_of_runM hrun
  refine ⟨_, s₃, w, hop, haddr, htaken, writeAtReturn h₀ hcall h₁ ?_ hrecv hw⟩
  intro c hc
  have hmem : c.2 ∈ writeDuringRead.drop 1 ++ [edgeOf .none rCycle, .deliver .qemuResp] := by
    rw [← hevs]
    exact List.mem_map_of_mem hc
  simp only [writeDuringRead, List.drop_succ_cons, List.drop_zero, List.cons_append,
    List.nil_append, List.mem_cons, List.not_mem_nil, or_false] at hmem
  rcases hmem with h | h | h | h | h | h <;> rw [h] <;> trivial

end QemuHdlSim.Cosim
