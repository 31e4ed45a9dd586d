import QemuHdlSim.Infra.Fair
import QemuHdlSim.Properties.UartReceive

/-!
# Every byte is read

What a read of `RX_FIFO` returns is right in its low byte. In a run without end in which `RX_FIFO`
is read again and again, and the responses are taken, no byte is left behind either.

* `allPopped` — every frame is taken off `uart_rx`
* `allAnswered` — every read is answered
* `uartReceiveLive` — every byte is returned
-/

namespace QemuHdlSim.AxiLiteSR

open Infra Uart Serial

/-- A run without end. -/
abbrev Always := Forever fun (a : State) c b => step a c = b

/-- The frames that arrive in this cycle. -/
def arrivals (_ : State) (c : Cycle) : List Frame := c.arrives

/-- What a run starts from, and what the master and the backend do in it. -/
structure GoesOn (uartRx : List Frame) (r : Always) : Prop where
  start : ∃ sRdata, r.state 0 = afterReset sRdata uartRx
  reset : ∀ n, (r.input n).inp.iRstN = true
  answerable : ∀ n, Answerable (r.state n) (r.input n)
  waiting : ∀ f ∈ uartRx, FromBackend f
  arrives : ∀ n, ∀ f ∈ (r.input n).arrives, FromBackend f
  /-- `RX_FIFO` is read again and again, -/
  reads : Recurs fun n => (r.input n).inp.iSArvalid = true ∧ (r.input n).inp.reg = some .rxFifo
  /-- and the responses are taken. -/
  takes : Recurs fun n => (r.input n).inp.iSRready = true

variable {r : Always} {uartRx : List Frame}

namespace GoesOn

theorem run (h : GoesOn uartRx r) (n : Nat) :
    ∃ sRdata, Run (afterReset sRdata uartRx) (r.upTo n) (r.state n) := by
  obtain ⟨sRdata, hstart⟩ := h.start
  refine ⟨sRdata, hstart ▸ r.path n, ?_⟩
  rintro c hc
  obtain ⟨k, _, rfl⟩ := r.mem_upTo hc
  exact h.reset k

theorem answerable_upTo (h : GoesOn uartRx r) (n : Nat) :
    ∀ c ∈ r.upTo n, Answerable c.1 c.2 := by
  rintro c hc
  obtain ⟨k, _, rfl⟩ := r.mem_upTo hc
  exact h.answerable k

theorem fromBackend (h : GoesOn uartRx r) (n : Nat) :
    ∀ f ∈ uartRx ++ events arrivals (r.upTo n), FromBackend f := by
  intro f hf
  rcases List.mem_append.mp hf with hf | hf
  · exact h.waiting f hf
  · obtain ⟨c, hc, hf⟩ := List.mem_flatMap.mp hf
    obtain ⟨k, _, rfl⟩ := r.mem_upTo hc
    exact h.arrives k f hf

theorem wf (h : GoesOn uartRx r) (n : Nat) : Wf (r.state n) := by
  cases n with
  | zero =>
    obtain ⟨sRdata, hstart⟩ := h.start
    rw [hstart]
    exact wf_afterReset sRdata uartRx
  | succ n =>
    rw [← r.next n]
    exact Wf.of_step (h.reset n)

end GoesOn

/-! ## The queue -/

theorem popped_law (n : Nat) : (r.state n).uartRx ++ arrivals (r.state n) (r.input n)
    = popped (r.state n) (r.input n) ++ (r.state (n + 1)).uartRx := by
  have hlaw := (popped_step (r.state n) (r.input n)).1
  rwa [r.next n] at hlaw

/-- A frame that waits is taken. -/
theorem exists_popped (h : GoesOn uartRx r) {n : Nat} (hne : (r.state n).uartRx ≠ []) :
    ∃ k, n ≤ k ∧ popped (r.state k) (r.input k) ≠ [] := by
  refine r.exists_handed popped_law h.reads ?_ hne
  intro k hread hwaits hpop
  rw [popped, if_pos hread, List.take_eq_nil_iff] at hpop
  rcases hpop with hone | hnil
  · exact absurd hone (by decide)
  · exact hwaits (List.append_eq_nil_iff.mp hnil).1

/-- **Every frame is taken off `uart_rx`.** -/
theorem allPopped (h : GoesOn uartRx r) (n : Nat) : ∃ k, n ≤ k ∧
    uartRx ++ events arrivals (r.upTo n) <+: events popped (r.upTo k) := by
  obtain ⟨k, hk, hlen⟩ := r.handedOver popped_law (fun _ hn => exists_popped h hn) n
  obtain ⟨_, hrun⟩ := h.run n
  obtain ⟨_, hrun'⟩ := h.run k
  have hnow : uartRx ++ events arrivals (r.upTo n)
      = events popped (r.upTo n) ++ (r.state n).uartRx := popped_run hrun
  have hthen : uartRx ++ events arrivals (r.upTo k)
      = events popped (r.upTo k) ++ (r.state k).uartRx := popped_run hrun'
  obtain ⟨fs, hfs⟩ := r.events_upTo_of_le arrivals hk
  have hpre : uartRx ++ events arrivals (r.upTo n) <+:
      uartRx ++ events arrivals (r.upTo k) := ⟨fs, by rw [hfs, List.append_assoc]⟩
  have hpopped : events popped (r.upTo k) <+:
      uartRx ++ events arrivals (r.upTo k) := ⟨_, hthen.symm⟩
  refine ⟨k, hk, List.prefix_of_prefix_length_le hpre hpopped ?_⟩
  rw [hnow, List.length_append]
  exact hlen

/-! ## The answers -/

theorem owed_law (h : GoesOn uartRx r) (n : Nat) :
    owed (r.state n) ++ arHandshake (r.state n) (r.input n)
      = rHandshake (r.state n) (r.input n) ++ owed (r.state (n + 1)) := by
  have hlaw := (owed_step (h.reset n) (h.wf n) (h.answerable n)).2
  rwa [r.next n] at hlaw

/-- A response that is shown is taken. -/
theorem exists_rHandshake (h : GoesOn uartRx r) {n : Nat} (hne : owed (r.state n) ≠ []) :
    ∃ k, n ≤ k ∧ rHandshake (r.state k) (r.input k) ≠ [] := by
  refine r.exists_handed (owed_law h) h.takes ?_ hne
  intro k hready howed
  have hshown : (r.state k).regs.rSRvalid = true := by
    simpa [owed] using howed
  simp [rHandshake, hshown, hready]

/-- **Every read is answered.** -/
theorem allAnswered (h : GoesOn uartRx r) (n : Nat) : ∃ k, n ≤ k ∧
    events reads (r.upTo n) <+: answers (r.upTo k) := by
  obtain ⟨k, hk, hlen⟩ := r.handedOver (owed_law h) (fun _ hn => exists_rHandshake h hn) n
  obtain ⟨_, hrun⟩ := h.run n
  obtain ⟨_, hrun'⟩ := h.run k
  obtain ⟨xs, hxs⟩ := r.events_upTo_of_le reads hk
  refine ⟨k, hk, List.prefix_of_prefix_length_le ⟨xs, hxs.symm⟩
    (prefix_of_answers hrun' (h.answerable_upTo k)) ?_⟩
  have hanswered := congrArg List.length
    (protocol_of_answerable hrun (h.answerable_upTo n)).answered
  have hanswered' := congrArg List.length
    (protocol_of_answerable hrun' (h.answerable_upTo k)).answered
  have hreads := congrArg List.length (map_snd_reads (r.upTo n))
  have hasked := congrArg List.length (map_fst_reads (r.upTo k))
  have hreads' := congrArg List.length (map_snd_reads (r.upTo k))
  rw [List.length_map] at hreads hasked hreads'
  rw [List.length_append] at hanswered hanswered'
  rw [answers, List.length_zip, ← hasked]
  omega

/--
**Every byte is read.** In a run without end after reset in which `RX_FIFO` is read again and again
and every read is answered before the next one: the bytes the backend has delivered so far are, then
or later, the low bytes of the words that the reads have returned.
-/
theorem uartReceiveLive (h : GoesOn uartRx r) (n : Nat) : ∃ k, n ≤ k ∧
    delivered uartRx (r.upTo n) <+: (foundWords (r.upTo k)).map fun w => w.setWidth 8 := by
  obtain ⟨k, hk, hpopped⟩ := allPopped h n
  obtain ⟨l, hl, hanswers⟩ := allAnswered h k
  obtain ⟨_, hrun⟩ := h.run l
  have hfound := found_answers hrun (h.answerable_upTo l) (h.fromBackend l)
  have hframes : events popped (r.upTo k)
      <+: (answers (r.upTo l)).filterMap fun x => x.1.frame? := by
    rw [← found_reads]
    exact hanswers.filterMap _
  refine ⟨l, Nat.le_trans hk hl, ?_⟩
  rw [foundWords, low_foundWords hfound]
  exact (hpopped.trans hframes).flatten

/-- A byte arrives in the first cycle, and `RX_FIFO` is read in every cycle. -/
def readEach : Nat → Cycle
  | 0 => rxCycle true 0 [serialRx [0x41]]
  | _ + 1 => rxCycle true 0 []

theorem uartReceiveLive_readEach : ∃ r : Always, r.state 0 = afterReset 0 [] ∧
    delivered [] (r.upTo 1) = [0x41] ∧
    ∃ k, 1 ≤ k ∧ [0x41] <+: (foundWords (r.upTo k)).map fun w => w.setWidth 8 := by
  let r : Always := Forever.ofInputs step (afterReset 0 []) readEach
  have hread : ∀ n, (r.input n).inp.iSArvalid = true ∧ (r.input n).inp.reg = some .rxFifo := by
    rintro (_ | n) <;> exact ⟨rfl, rfl⟩
  have hready : ∀ n, (r.input n).inp.iSRready = true := by
    rintro (_ | n) <;> rfl
  have hgoes : GoesOn [] r := by
    refine ⟨⟨0, rfl⟩, ?_, ?_, by simp, ?_, ?_, ?_⟩
    · rintro (_ | n) <;> rfl
    · exact fun n _ => ⟨by rw [(hread n).2]; simp, fun _ => hready n⟩
    · rintro (_ | n) f hf
      · exact ⟨[0x41], rfl, List.mem_singleton.mp hf⟩
      · exact absurd hf List.not_mem_nil
    · exact fun n => ⟨n, Nat.le_refl n, hread n⟩
    · exact fun n => ⟨n, Nat.le_refl n, hready n⟩
  have hdelivered : delivered [] (r.upTo 1) = [0x41] := rfl
  obtain ⟨k, hk, hbytes⟩ := uartReceiveLive hgoes 1
  exact ⟨r, rfl, hdelivered, k, hk, hdelivered ▸ hbytes⟩

end QemuHdlSim.AxiLiteSR
