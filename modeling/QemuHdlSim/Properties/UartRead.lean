import QemuHdlSim.Uart.SlaveRead

/-!
# The read channel of the UART

`arready` is constantly high and there is one response register, so a response can be overwritten
before it is taken, and an address at which there is no register gets none. `readChannel_iff` says
that these are the only two ways to lose one: in a run after reset every address gets its answer,
in order, exactly when every address is `Answerable`.
-/

namespace QemuHdlSim.AxiLiteSR

open Infra Uart

/-- A run: the cycles, each with the state before it. -/
abbrev Trace := List (State × Cycle)

/-- A run out of reset. -/
abbrev Run (s : State) (tr : Trace) (s' : State) : Prop :=
  ClockedRun step (fun c => c.inp.iRstN = true) s tr s'

/-- What a master relies on in a run that ends in `s'`. -/
structure Protocol (tr : Trace) (s' : State) : Prop where
  /-- Every address is answered once, in order, with the value of its register; the last answer
  may still be on the bus. -/
  answered : events arHandshake tr = events rHandshake tr ++ owed s'
  /-- A response that is not taken stays. -/
  stable : ∀ c ∈ tr, c.1.regs.rSRvalid = true → c.2.inp.iSRready = false →
    (step c.1 c.2).regs.rSRvalid = true ∧ (step c.1 c.2).regs.rSRdata = c.1.regs.rSRdata
  /-- At most one frame is taken off `uart_rx`, by an address of `RX_FIFO`. -/
  taken : ∀ c ∈ tr, c.1.uartRx ++ c.2.arrives = popped c.1 c.2 ++ (step c.1 c.2).uartRx ∧
    (popped c.1 c.2).length ≤ 1
  /-- Its word is what that address is answered with. -/
  delivered : ∀ c ∈ tr, ∀ f ∈ popped c.1 c.2,
    arHandshake c.1 c.2 = [some (frameWord c.2.inp.rx.behind f)]

theorem length_popped (s : State) (c : Cycle) : (popped s c).length ≤ 1 := by
  unfold popped
  split
  · exact List.length_take_le _ _
  · exact Nat.zero_le _

variable {sRdata : BitVec 32} {uartRx : List Frame} {tr : Trace} {s' : State}

/-- Nothing is lost when every address is answerable. -/
theorem protocol_of_answerable (h : Run (afterReset sRdata uartRx) tr s')
    (ha : ∀ c ∈ tr, Answerable c.1 c.2) : Protocol tr s' := by
  have hP : ∀ c ∈ tr, c.2.inp.iRstN = true ∧ Answerable c.1 c.2 := fun c hc => ⟨h.2 c hc, ha c hc⟩
  have hwf : ∀ c ∈ tr, Wf c.1 :=
    (h.invariant (wf_afterReset sRdata uartRx) fun _ _ _ hr => Wf.of_step hr).2
  have hlaw : owed (afterReset sRdata uartRx) ++ events arHandshake tr
      = events rHandshake tr ++ owed s' :=
    h.1.conserve (P := fun s c => c.inp.iRstN = true ∧ Answerable s c)
      (wf_afterReset sRdata uartRx) hP fun _ _ _ hw hc hb => hb ▸ owed_step hc.1 hw hc.2
  exact ⟨hlaw, fun c hc => stable_step (h.2 c hc) (hwf c hc) (ha c hc),
    fun c hc => ⟨(popped_step c.1 c.2).1, length_popped c.1 c.2⟩,
    fun c _ => (popped_step c.1 c.2).2⟩

/--
**When the read channel works.** In any run after reset, whatever the latch and `uart_rx` hold then,
whatever frames arrive and whatever the master does.
-/
theorem readChannel_iff (h : Run (afterReset sRdata uartRx) tr s') :
    Protocol tr s' ↔ ∀ c ∈ tr, Answerable c.1 c.2 := by
  constructor
  · intro hprot
    refine (h.1.balanced (P := fun _ c => c.inp.iRstN = true) h.2 fun s c _ hr hb =>
      hb ▸ length_step hr).2 ?_
    -- as many responses as addresses
    have hlen := congrArg List.length hprot.answered
    rw [List.length_append] at hlen
    rw [hlen]
    exact Nat.le_of_eq (Nat.zero_add _)
  · exact protocol_of_answerable h

/-! ## Two reads of a byte -/

/-- A cycle that reads the register at `addr`. -/
def readCycle (addr : BitVec 32) (arvalid rready : Bool) : Cycle where
  inp := {
    iRstN := true
    iSAraddr := addr
    iSArvalid := arvalid
    iSRready := rready
    iStat := 5
    rx := ⟨fun _ => 0, 0⟩ }
  arrives := []

/-- The response to a read of `RX_FIFO` is taken in the cycle of the next address. -/
def backToBack : List Cycle := [readCycle 0x0 true false, readCycle 0x8 true true]

theorem readChannel_backToBack :
    Protocol (traceOf step (afterReset 0 [[0x41]]) backToBack)
        (backToBack.foldl step (afterReset 0 [[0x41]])) ∧
      events rHandshake (traceOf step (afterReset 0 [[0x41]]) backToBack) = [some 0x41] := by
  refine ⟨(readChannel_iff (.of_traceOf (by simp [backToBack, readCycle]) _)).mpr ?_, rfl⟩
  simp [backToBack, traceOf, Answerable, readCycle, Input.reg]
  decide

/-- It is not taken when the next address comes. -/
def overwritten : List Cycle :=
  [readCycle 0x0 true false, readCycle 0x8 true false, readCycle 0x0 false true]

/-- **The byte is taken off `uart_rx` and reaches nobody**: both reads get one response, of the
second one. -/
theorem not_readChannel_overwritten :
    (∀ c ∈ overwritten, c.inp.iRstN = true) ∧
      events popped (traceOf step (afterReset 0 [[0x41]]) overwritten) = [[0x41]] ∧
      (events arHandshake (traceOf step (afterReset 0 [[0x41]]) overwritten)).length = 2 ∧
      events rHandshake (traceOf step (afterReset 0 [[0x41]]) overwritten) = [some 5] ∧
      ¬Protocol (traceOf step (afterReset 0 [[0x41]]) overwritten)
        (overwritten.foldl step (afterReset 0 [[0x41]])) := by
  refine ⟨by simp [overwritten, readCycle], rfl, rfl, rfl, fun h => ?_⟩
  exact absurd (congrArg List.length h.answered) (by decide)

end QemuHdlSim.AxiLiteSR
