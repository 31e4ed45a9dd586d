import QemuHdlSim.Uart.Uart

/-!
# The status register of the UART

Bits 2 and 4 are what they should be from the second cycle after reset on. Bit 0 is not: it is set
in a cycle in which `C_uart_poll` finds *no* frame, and no cycle clears it. So it says whether there
ever was a cycle without a pending frame, and a read is right about it only by coincidence
(`statusRight_iff`).
-/

namespace QemuHdlSim.AxiLiteUart

open Infra Uart

/-- A run: the cycles, each with the state before it. -/
abbrev Trace := List (State × Cycle)

/-- A run out of reset. -/
abbrev Run (s : State) (tr : Trace) (s' : State) : Prop :=
  ClockedRun step (fun c => c.iRstN = true) s tr s'

/-- Bit 4 of the last write of `CTRL_REG` that was completed in the run, 0 if there was none. -/
def ctrlBit (tr : Trace) : Bool := (events ctrlWrite tr).getLast?.any fun w => w.getLsbD 4

/-- What a read of `STAT_REG` after the run `tr` should find. -/
structure StatusRight (tr : Trace) (v : BitVec 32) : Prop where
  /-- A frame was pending in the previous cycle. -/
  rxValid : v.getLsbD 0 = true ↔ ∃ c, tr.getLast? = some c ∧ pending c.1 c.2 = true
  /-- The transmitter is empty. -/
  txEmpty : v.getLsbD 2 = true
  interrupt : v.getLsbD 4 = ctrlBit tr
  others : ∀ k, k ≠ 0 → k ≠ 2 → k ≠ 4 → v.getLsbD k = false

/-- A frame was pending in the last cycle of the run, after a cycle in which none was. -/
def PendingAgain (tr : Trace) : Prop :=
  ∃ before c, tr = before ++ [c] ∧ pending c.1 c.2 = true ∧
    ∃ d ∈ before, pending d.1 d.2 = false

/-! ## What the register has -/

/-- The status register after the run `tr`. -/
structure StatOf (tr : Trace) (v : BitVec 32) : Prop where
  /-- There was a cycle without a pending frame. -/
  rxValid : v.getLsbD 0 = tr.any fun c => !pending c.1 c.2
  /-- There was a cycle. -/
  txEmpty : v.getLsbD 2 = !tr.isEmpty
  interrupt : v.getLsbD 4 = ctrlBit tr
  others : ∀ k, k ≠ 0 → k ≠ 2 → k ≠ 4 → v.getLsbD k = false

theorem statOf_nil : StatOf [] 0 where
  rxValid := rfl
  txEmpty := rfl
  interrupt := rfl
  others := fun _ _ _ _ => BitVec.getLsbD_zero

/-- A cycle completes at most one write of `CTRL_REG`. -/
theorem ctrlBit_snoc (tr : Trace) (s : State) (c : Cycle) :
    ctrlBit (tr ++ [(s, c)]) = match ctrlWrite s c with
      | [] => ctrlBit tr
      | w :: _ => w.getLsbD 4 := by
  unfold ctrlBit
  rw [events_append, events_cons, events_nil, List.append_nil]
  rcases AxiLiteSW.ctrlWrite_cases s.sw (swInput s c) with h | h
  · rw [show ctrlWrite s c = [] from h, List.append_nil]
  · rw [show ctrlWrite s c = [(swInput s c).iSWdata] from h, List.getLast?_concat]
    exact Option.any_some ..

/-- **One cycle more.** -/
theorem StatOf.snoc {tr : Trace} {s : State} {c : Cycle} (h : StatOf tr s.statR)
    (hr : c.iRstN = true) : StatOf (tr ++ [(s, c)]) (step s c).statR where
  rxValid := by
    rw [statR_step hr (by omega), h.rxValid]
    simp
  txEmpty := by
    rw [statR_step hr (by omega)]
    simp
  interrupt := by
    rw [statR_step hr (by omega), if_pos rfl, h.interrupt]
    exact (ctrlBit_snoc tr s c).symm
  others := by
    intro k h0 h2 h4
    by_cases hk : k < 32
    · rw [statR_step hr hk, if_neg h4, h.others k h0 h2 h4]
      simp [h0, h2]
    · exact BitVec.getLsbD_of_ge _ _ (Nat.le_of_not_lt hk)

/-- **After any run.** -/
theorem statOf_run {sRdata : BitVec 32} {uartRx : List Frame} {tr : Trace} {s : State}
    (h : Run (afterReset sRdata uartRx) tr s) : StatOf tr s.statR := by
  induction tr using List.reverseRecOn generalizing s with
  | nil =>
    cases h.1
    exact statOf_nil
  | append_singleton tr c ih =>
    obtain ⟨hpath, hstep⟩ := h.1.snoc_inv
    have hstat := ih ⟨hpath, fun d hd => h.2 d (List.mem_append_left _ hd)⟩
    rw [← hstep]
    exact hstat.snoc (h.2 c (by simp))

/-! ## When a read is right -/

/-- The value is right exactly when bit 0 is, by coincidence. -/
theorem StatOf.right_iff {tr : Trace} {v : BitVec 32} (h : StatOf tr v) :
    StatusRight tr v ↔ PendingAgain tr := by
  constructor
  · intro hright
    have hany : tr.any (fun c => !pending c.1 c.2) = true ↔
        ∃ c, tr.getLast? = some c ∧ pending c.1 c.2 = true := by
      rw [← h.rxValid]
      exact hright.rxValid
    have hne : tr ≠ [] := by
      rintro rfl
      exact absurd (h.txEmpty.symm.trans hright.txEmpty) (by simp)
    obtain ⟨before, c, rfl⟩ : ∃ before c, tr = before ++ [c] :=
      ⟨_, _, (List.dropLast_concat_getLast hne).symm⟩
    -- if none is pending now, bit 0 is set and should not be
    have hpending : pending c.1 c.2 = true := by
      cases hc : pending c.1 c.2 with
      | true => rfl
      | false =>
        obtain ⟨d, hd, hdp⟩ := hany.mp (by simp [hc])
        rw [List.getLast?_concat] at hd
        cases hd
        exact absurd (hc.symm.trans hdp) (by simp)
    refine ⟨before, c, rfl, hpending, ?_⟩
    have hset := hany.mpr ⟨c, List.getLast?_concat .., hpending⟩
    simpa [hpending] using hset
  · rintro ⟨before, c, rfl, hpending, d, hd, hdp⟩
    refine ⟨?_, by simp [h.txEmpty], h.interrupt, h.others⟩
    have hset : v.getLsbD 0 = true := by
      rw [h.rxValid, List.any_eq_true]
      exact ⟨d, List.mem_append_left _ hd, by simp [hdp]⟩
    exact iff_of_true hset ⟨c, List.getLast?_concat .., hpending⟩

/--
**When a read of the status register is right.** After any run out of reset, with any writes, reads
and arrivals: exactly when a frame was pending in the previous cycle, and in some cycle before that
none was.
-/
theorem statusRight_iff {sRdata : BitVec 32} {uartRx : List Frame} {tr : Trace} {s : State}
    (h : Run (afterReset sRdata uartRx) tr s) {c : Cycle} (hr : c.iRstN = true)
    (hread : StatRead s c) : StatusRight tr (step s c).sr.rSRdata ↔ PendingAgain tr := by
  rw [(rdata_of_statRead hr hread).2]
  exact (statOf_run h).right_iff

/-! ## A driver that polls -/

/-- A cycle that reads the status register, or an idle one, with the frames that arrive in it. -/
def pollCycle (arvalid : Bool) (arrives : List Frame) : Cycle where
  iRstN := true
  iSAraddr := 0x8
  iSArvalid := arvalid
  iSRready := true
  iSAwaddr := 0
  iSAwvalid := false
  iSWdata := 0
  iSWvalid := false
  iSBready := true
  rx := ⟨fun _ => 0, 0⟩
  writeFirst := true
  arrives := arrives
  between := []

/-- A byte arrives in the second cycle, and is seen. -/
def arrival : List Cycle := [pollCycle false [], pollCycle false [[0x41]]]

theorem statusRight_arrival :
    StatusRight (traceOf step (afterReset 0 []) arrival)
        (step (arrival.foldl step (afterReset 0 [])) (pollCycle true [])).sr.rSRdata :=
  (statusRight_iff (.of_traceOf (by simp [arrival, pollCycle]) _) rfl ⟨rfl, by decide⟩).mpr
    ⟨[_], _, rfl, by decide, _, List.mem_singleton.mpr rfl, by decide⟩

/-- **With nothing on `uart_rx`**, a read in the second cycle finds bit 0 set. -/
theorem not_statusRight_empty :
    ClockedRun step (fun c => c.iRstN = true) (afterReset 0 [])
        (traceOf step (afterReset 0 []) [pollCycle false []])
        (step (afterReset 0 []) (pollCycle false [])) ∧
      StatRead (step (afterReset 0 []) (pollCycle false [])) (pollCycle true []) ∧
      (step (step (afterReset 0 []) (pollCycle false [])) (pollCycle true [])).sr.rSRdata = 5 ∧
      ¬StatusRight (traceOf step (afterReset 0 []) [pollCycle false []])
        (step (step (afterReset 0 []) (pollCycle false [])) (pollCycle true [])).sr.rSRdata := by
  refine ⟨.of_traceOf (by simp [pollCycle]) _, ⟨rfl, by decide⟩, by decide, fun h => ?_⟩
  obtain ⟨c, hc, hpending⟩ := h.rxValid.mp (by decide)
  cases hc
  exact absurd hpending (by decide)

end QemuHdlSim.AxiLiteUart
