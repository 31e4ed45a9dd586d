import QemuHdlSim.Infra.Fair
import QemuHdlSim.Properties.UartTransmit

/-!
# The transmit path goes on

`Transmits` says that nothing is out of its turn. In a run without end in which nobody stops the
write slave is not stuck either: an address that is offered is taken, gets its word and its
response, and what was written to `TX_FIFO` reaches the character backend.

* `rests` — the slave comes back to `WRITE_IDLE`
* `accepted` — and there it takes an address
* `allTransmitted` — every byte comes out
-/

namespace QemuHdlSim.UartTx

open Infra Uart Serial AxiLiteSW

/-- A run without end. -/
abbrev Always := Forever fun (a : State) e b => step a e = some b

/-- The event is a clock edge whose inputs meet `P`. -/
def Event.IsEdge (P : Input → Bool) (e : Event) : Prop :=
  ∃ i dataAvailable, e = .edge i dataAvailable ∧ P i = true

/-- What a run starts from, and that nobody stops for good. -/
structure GoesOn (r : Always) : Prop where
  start : r.state 0 = init
  reset : ∀ n, (r.input n).OutOfReset
  /-- The master has a word again and again, -/
  words : Recurs fun n => (r.input n).IsEdge Input.iSWvalid
  /-- and takes a response. -/
  responses : Recurs fun n => (r.input n).IsEdge Input.iSBready
  delivers : WeaklyFair (fun n => (r.state n).uartTx.InFlight) fun n => r.input n = .deliver
  handler : WeaklyFair (fun n => (r.state n).uartTx.Queued) fun n => r.input n = .tx

variable {r : Always}

namespace GoesOn

theorem run (h : GoesOn r) (n : Nat) :
    Run init (r.upTo n) (r.state n) ∧ ∀ c ∈ r.upTo n, c.2.OutOfReset := by
  refine ⟨h.start ▸ r.path n, ?_⟩
  rintro c hc
  obtain ⟨k, _, rfl⟩ := r.mem_upTo hc
  exact h.reset k

theorem account (h : GoesOn r) (n : Nat) :
    ∃ xs, Account (r.state n).regs (log (r.upTo n)) xs := by
  obtain ⟨hrun, hreset⟩ := h.run n
  obtain ⟨xs, hacc, _⟩ := account_run hrun hreset account_reset
  exact ⟨_, hacc⟩

theorem wf (h : GoesOn r) (n : Nat) : Wf (r.state n).regs := (h.account n).choose_spec.wf

/-- An edge clocks the registers, -/
theorem edge (h : GoesOn r) {n : Nat} {i : Input} {dataAvailable : Bool}
    (hi : r.input n = .edge i dataAvailable) :
    (r.state (n + 1)).regs = AxiLiteSW.step (r.state n).regs i dataAvailable ∧ i.iRstN = true := by
  have hstep := r.next n
  have hreset := h.reset n
  rw [hi] at hstep hreset
  rw [← Option.some.inj hstep]
  exact ⟨rfl, hreset⟩

end GoesOn

/-- and nothing else does. -/
theorem regs_rest {n : Nat} (hno : ∀ i dataAvailable, r.input n ≠ .edge i dataAvailable) :
    (r.state (n + 1)).regs = (r.state n).regs := by
  have hstep := r.next n
  cases he : r.input n with
  | edge i dataAvailable => exact absurd he (hno i dataAvailable)
  | deliver =>
    rw [he] at hstep
    obtain ⟨q, _, heq⟩ := Option.map_eq_some_iff.mp hstep
    rw [← heq]
  | tx =>
    rw [he] at hstep
    obtain ⟨q, _, heq⟩ := Option.map_eq_some_iff.mp hstep
    rw [← heq]

/-! ## The bus -/

/-- A state that the edges with `P` lead out of. -/
theorem leaves (h : GoesOn r) {st st' : WriteState} {P : Input → Bool}
    (hstep : ∀ {regs : Regs} {i : Input} (dataAvailable : Bool), i.iRstN = true → Wf regs →
      regs.rState = st →
        (AxiLiteSW.step regs i dataAvailable).rState = if P i then st' else st)
    (hrecurs : Recurs fun n => (r.input n).IsEdge P) :
    LeadsTo (fun n => (r.state n).regs.rState = st) fun n => (r.state n).regs.rState = st' := by
  refine LeadsTo.ensures ?_ (fun _ hn => hn) ?_ (WeaklyFair.of_recurs hrecurs)
  · intro n hn
    by_cases hedge : ∃ i dataAvailable, r.input n = .edge i dataAvailable
    · obtain ⟨i, dataAvailable, hi⟩ := hedge
      obtain ⟨hregs, hreset⟩ := h.edge hi
      have hnext := hstep dataAvailable hreset (h.wf n) hn
      rw [hregs, hnext]
      cases P i with
      | true => exact Or.inr rfl
      | false => exact Or.inl rfl
    · rw [regs_rest fun i dataAvailable hi => hedge ⟨i, dataAvailable, hi⟩]
      exact Or.inl hn
  · rintro n hn ⟨i, dataAvailable, hi, hP⟩
    obtain ⟨hregs, hreset⟩ := h.edge hi
    rw [hregs, hstep dataAvailable hreset (h.wf n) hn, if_pos hP]

theorem data_leads (h : GoesOn r) : LeadsTo (fun n => (r.state n).regs.rState = .data)
    fun n => (r.state n).regs.rState = .response := by
  refine leaves h (fun {regs i} dataAvailable hr hw hs => ?_) h.words
  have hstep := step_data dataAvailable hr hw hs
  cases hv : i.iSWvalid with
  | true =>
    rw [if_pos hv] at hstep
    exact hstep.state
  | false =>
    rw [if_neg (by simp [hv])] at hstep
    exact hstep.state

theorem response_leads (h : GoesOn r) : LeadsTo (fun n => (r.state n).regs.rState = .response)
    fun n => (r.state n).regs.rState = .idle := by
  refine leaves h (fun {regs i} dataAvailable hr hw hs => ?_) h.responses
  have hstep := step_response dataAvailable hr hw hs
  cases hv : i.iSBready with
  | true =>
    rw [if_pos hv] at hstep
    exact hstep.state
  | false =>
    rw [if_neg (by simp [hv])] at hstep
    exact hstep.state

/-- **The slave comes back to `WRITE_IDLE`.** -/
theorem rests (h : GoesOn r) : Recurs fun n => (r.state n).regs.rState = .idle := by
  intro n
  cases hs : (r.state n).regs.rState with
  | idle => exact ⟨n, Nat.le_refl n, hs⟩
  | data => exact (data_leads h).trans (response_leads h) n hs
  | response => exact response_leads h n hs

/-- Up to the next edge the registers stay. -/
theorem exists_edge (h : GoesOn r) (n : Nat) : ∃ k i dataAvailable, n ≤ k ∧
    r.input k = .edge i dataAvailable ∧ (r.state k).regs = (r.state n).regs := by
  have hedges : Recurs fun n => ∃ i dataAvailable, r.input n = .edge i dataAvailable := by
    intro n
    obtain ⟨k, hk, i, dataAvailable, hi, _⟩ := h.words n
    exact ⟨k, hk, i, dataAvailable, hi⟩
  obtain ⟨k, hk, ⟨i, dataAvailable, hi⟩, hregs⟩ := hedges.exists_unchanged
    (f := fun n => (r.state n).regs)
    (fun n hn => regs_rest fun i dataAvailable hi => hn ⟨i, dataAvailable, hi⟩) n
  exact ⟨k, i, dataAvailable, hk, hi, hregs⟩

/-- In `WRITE_IDLE` an edge makes `awready` high. -/
theorem awready_of_idle {regs : Regs} {i : Input} (dataAvailable : Bool) (hr : i.iRstN = true)
    (hs : regs.rState = .idle) (hlow : regs.rSAwready = false) :
    (AxiLiteSW.step regs i dataAvailable).rSAwready = true := by
  have hnext : comboWrite regs i dataAvailable = Combo.default regs i dataAvailable := by
    simp [comboWrite, hs, hlow]
  refine (step_awready dataAvailable hr).mpr ?_
  simp only [AxiLiteSW.step, ff, hnext, hr, if_true]
  exact hs

/-- **An address that is offered is taken.** -/
theorem accepted (h : GoesOn r) {n : Nat}
    (hoffer : ∀ k, n ≤ k → ∀ i dataAvailable, r.input k = .edge i dataAvailable →
      i.iSAwvalid = true) :
    ∃ k, n ≤ k ∧ ∃ a, Handshake.aw a ∈ handshakes (r.state k) (r.input k) := by
  obtain ⟨m, hm, hidle⟩ := rests h n
  have htaken : ∀ k i dataAvailable, n ≤ k → r.input k = .edge i dataAvailable →
      (r.state k).regs.rSAwready = true →
        ∃ k, n ≤ k ∧ ∃ a, Handshake.aw a ∈ handshakes (r.state k) (r.input k) := by
    intro k i dataAvailable hk hi hready
    refine ⟨k, hk, i.iSAwaddr, ?_⟩
    rw [hi]
    simp [UartTx.handshakes, AxiLiteSW.handshakes, hready, hoffer k hk i dataAvailable hi]
  obtain ⟨k, i, a, hk, hi, hregs⟩ := exists_edge h m
  cases hready : (r.state k).regs.rSAwready with
  | true => exact htaken k i a (Nat.le_trans hm hk) hi hready
  | false =>
    -- at the latest on the edge after
    obtain ⟨hstep, hreset⟩ := h.edge hi
    have hnext := awready_of_idle a hreset (hregs ▸ hidle) hready
    obtain ⟨l, j, b, hl, hj, hregs'⟩ := exists_edge h (k + 1)
    exact htaken l j b (by omega) hj (by rw [hregs', hstep]; exact hnext)

/-! ## The socket -/

theorem moves_uartTx {s s' : State} {e : Event} (h : step s e = some s') :
    s.uartTx.Moves s'.uartTx := by
  cases e with
  | edge i dataAvailable =>
    cases h
    exact Fifo.Moves.sends _
  | deliver =>
    obtain ⟨q, hq, rfl⟩ := Option.map_eq_some_iff.mp h
    exact Fifo.Moves.arrives hq
  | tx =>
    obtain ⟨⟨bs, q⟩, hq, rfl⟩ := Option.map_eq_some_iff.mp h
    obtain ⟨hdel, htaken⟩ := Fifo.drain?_taken hq
    have hle := s.uartTx.taken_le
    have hmono : s.uartTx.taken ≤ q.taken := by omega
    exact Fifo.Moves.drains (Fifo.drain?_eq_some hq).1 hmono hdel

/-- **Every frame of `uart_tx` is taken.** -/
theorem framesTaken (h : GoesOn r) (n : Nat) :
    ∃ k, n ≤ k ∧ (r.state n).uartTx.sent.length ≤ (r.state k).uartTx.taken := by
  have hmoves : ∀ n, (r.state n).uartTx.Moves (r.state (n + 1)).uartTx :=
    fun n => moves_uartTx (r.next n)
  refine Fifo.allTaken (q := fun n => (r.state n).uartTx) hmoves
    (Fifo.leadsTo_queued hmoves h.delivers ?_)
    (fun m hq => Fifo.exists_taken hmoves ?_ h.handler hq) n
  · intro m hm
    have hstep := r.next m
    rw [hm] at hstep
    obtain ⟨q, hq, heq⟩ := Option.map_eq_some_iff.mp hstep
    rw [← heq]
    exact hq
  · intro k hqueued hk
    have hstep := r.next k
    rw [hk] at hstep
    obtain ⟨⟨bs, q⟩, hq, heq⟩ := Option.map_eq_some_iff.mp hstep
    have htaken := (Fifo.drain?_taken hq).2
    have hlt : (r.state k).uartTx.taken < (r.state k).uartTx.delivered := hqueued
    rw [← heq]
    show _ < q.taken
    omega

/-- **Every byte comes out.** -/
theorem allTransmitted (h : GoesOn r) (n : Nat) :
    ∃ k, n ≤ k ∧ (writes (log (r.upTo n))).flatMap Write.bytes <+: (r.state k).chr := by
  obtain ⟨k, hk, htaken⟩ := framesTaken h n
  obtain ⟨hrun, hreset⟩ := h.run n
  have hbefore : Carries (events txCalls (r.upTo n)) (r.state n) :=
    carries_run hrun (show Carries [] init from ⟨rfl, rfl⟩)
  have hafter : Carries (events txCalls (r.upTo k)) (r.state k) :=
    carries_run (h.run k).1 (show Carries [] init from ⟨rfl, rfl⟩)
  refine ⟨k, hk, ?_⟩
  rw [← (transmits_of_reset hrun hreset).calls, hafter.chr]
  rw [hbefore.sent, List.length_map] at htaken
  obtain ⟨bs, hbs⟩ := r.events_upTo_of_le txCalls hk
  exact List.prefix_take_iff.mpr ⟨⟨bs, hbs.symm⟩, htaken⟩

/-! ## From any time on -/

/-- **What happens after time `n`.** -/
structure Served (r : Always) (n : Nat) : Prop where
  /-- An address that is offered from then on is taken. -/
  accepted : (∀ k, n ≤ k → ∀ i dataAvailable, r.input k = .edge i dataAvailable →
      i.iSAwvalid = true) →
    ∃ k, n ≤ k ∧ ∃ a, Handshake.aw a ∈ handshakes (r.state k) (r.input k)
  /-- Every address that was taken has its word and its response. -/
  answered : ∃ k, n ≤ k ∧ log (r.upTo k) = whole (writes (log (r.upTo k)))
  /-- The backend has what was written to `TX_FIFO`. -/
  transmitted : ∃ k, n ≤ k ∧ (writes (log (r.upTo n))).flatMap Write.bytes <+: (r.state k).chr

/--
**The transmit path goes on**, in every run without end after reset in which the master has words
and takes responses again and again, what is in flight arrives, and `serial_tx` is called when there
is something to take.
-/
theorem uartLive (h : GoesOn r) (n : Nat) : Served r n := by
  refine ⟨fun hoffer => accepted h hoffer, ?_, allTransmitted h n⟩
  obtain ⟨k, hk, hidle⟩ := rests h n
  obtain ⟨xs, hacc⟩ := h.account k
  have hlog := hacc.idle hidle
  exact ⟨k, hk, by rw [hacc.writes_eq.1]; exact hlog⟩

/-! ## One byte -/

/-- `awready`, an address, its word, its response, and the byte on its way. -/
def oneByte : List Event :=
  [writeCycle false false, writeCycle true false, writeCycle false false, writeCycle false true,
    .deliver, .tx]

/-- The inputs of `writeCycle false true`. -/
def noAddress : Input := ⟨true, 0x4, false, 0x141, true, true, 0, 0⟩

/-- The slave rests, and everything was taken. -/
structure Idle (s : State) : Prop where
  wf : Wf s.regs
  state : s.regs.rState = .idle
  drained : s.uartTx.sent.length = s.uartTx.taken

theorem Idle.step {s : State} (h : Idle s) :
    ∃ s', step s (writeCycle false true) = some s' ∧ Idle s' := by
  have hcycle := step_idle (i := noAddress) false rfl h.wf h.state
  rw [if_neg (by simp [noAddress])] at hcycle
  refine ⟨_, rfl, hcycle.wf, hcycle.state, ?_⟩
  have hsame : s.uartTx.sendAll ((AxiLiteSW.txCalls s.regs noAddress false).map fun b => [b])
      = s.uartTx := by
    rw [hcycle.calls]
    rfl
  exact (congrArg (·.sent.length) hsame).trans (h.drained.trans (congrArg (·.taken) hsame).symm)

theorem uartLive_oneByte : ∃ r : Always, GoesOn r ∧
    writes (log (r.upTo oneByte.length)) = [⟨0x4, 0x141⟩] ∧
    ∃ k, oneByte.length ≤ k ∧ [0x41] <+: (r.state k).chr := by
  have hrun : ∃ s, runM UartTx.step init oneByte = some s ∧ Idle s :=
    ⟨_, rfl, by constructor <;> decide, rfl, rfl⟩
  obtain ⟨s, hrun, hidle⟩ := hrun
  obtain ⟨r, hstart, htrace, hrest⟩ := Forever.of_stay hrun hidle fun _ h => h.step
  have hcycle : ∀ n, oneByte.length ≤ n → r.input n = writeCycle false true :=
    fun n hn => (hrest n hn).1
  have hrecurs : ∀ P : Input → Bool, P noAddress = true →
      Recurs fun n => (r.input n).IsEdge P := fun P hP n =>
    ⟨max n oneByte.length, Nat.le_max_left _ _, _, _, hcycle _ (Nat.le_max_right _ _), hP⟩
  have hgoes : GoesOn r := by
    refine ⟨hstart, ?_, hrecurs _ rfl, hrecurs _ rfl, ?_, ?_⟩
    · intro n
      by_cases hn : n < oneByte.length
      · have hmem := r.step_mem_upTo hn
        rw [htrace] at hmem
        have hall : ∀ e ∈ oneByte, e.OutOfReset := by
          simp [oneByte, writeCycle, Event.OutOfReset]
        exact hall _ (snd_mem_of_traceM hmem)
      · rw [hcycle n (Nat.le_of_not_lt hn)]
        rfl
    · exact WeaklyFair.of_never oneByte.length fun n hn =>
        Fifo.not_inFlight_of_drained (hrest n hn).2.drained
    · exact WeaklyFair.of_never oneByte.length fun n hn =>
        Fifo.not_queued_of_drained (hrest n hn).2.drained
  have hwrites : writes (log (r.upTo oneByte.length)) = [⟨0x4, 0x141⟩] := by
    rw [htrace]
    rfl
  obtain ⟨k, hk, hchr⟩ := (uartLive hgoes oneByte.length).transmitted
  rw [hwrites] at hchr
  exact ⟨r, hgoes, hwrites, k, hk, hchr⟩

end QemuHdlSim.UartTx
