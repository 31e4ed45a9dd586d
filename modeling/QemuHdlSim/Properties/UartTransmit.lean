import QemuHdlSim.Uart.Transmit

/-!
# What is written to `TX_FIFO` is transmitted

The `k`-th word on the W channel belongs to the `k`-th address on the AW channel: these are the
`writes` of a run. `Transmits` says that the channels take their turns, one address, one word and
one response for each write, that the channel whose turn it is is open, and that the character
backend gets the low bytes of the writes of `TX_FIFO`.

`Account.step` is the step lemma, by the kinds of cycle of the module.
-/

namespace QemuHdlSim.UartTx

open Infra Uart Serial AxiLiteSW

/-- A write, whole. -/
structure Write where
  awaddr : BitVec 32
  wdata : BitVec 32

/-- What it takes on the bus. -/
def Write.handshakes (x : Write) : List Handshake := [.aw x.awaddr, .w x.wdata, .b]

/-- What it transmits: the low byte, when the address is that of `TX_FIFO`. -/
def Write.bytes (x : Write) : List Byte := txByte (x.awaddr.setWidth 4) x.wdata

/-- The addresses among the handshakes. -/
def addrs (log : List Handshake) : List (BitVec 32) :=
  log.filterMap fun h => match h with
    | .aw a => some a
    | _ => none

/-- The words among the handshakes. -/
def words (log : List Handshake) : List (BitVec 32) :=
  log.filterMap fun h => match h with
    | .w d => some d
    | _ => none

/-- The writes of which the word was taken. -/
def writes (log : List Handshake) : List Write := List.zipWith Write.mk (addrs log) (words log)

/-- The handshakes of whole writes, one write after the other. -/
def whole (xs : List Write) : List Handshake := xs.flatMap Write.handshakes

/-- The handshakes of a run. -/
def log (tr : List (State × Event)) : List Handshake := events handshakes tr

/-- A rising clock edge. -/
def Event.OnClock : Event → Prop
  | .edge _ _ => True
  | _ => False

/-- The channel of the handshake that is next after those of `tr` is the one that is open. -/
structure NextIsOpen (tr : List (State × Event)) (r : Regs) : Prop where
  /-- In reset `awready` is low; the first edge raises it. -/
  aw : (∃ c ∈ tr, c.2.OnClock) →
    (r.rSAwready = true ↔ log tr = whole (writes (log tr)))
  w : r.rSWready = true ↔ ∃ a, log tr = whole (writes (log tr)) ++ [.aw a]
  b : r.rSBvalid = true ↔ log tr ++ [.b] = whole (writes (log tr))

/-- Each address is followed by one word and one response before the next address. -/
inductive InTurn (hs : List Handshake) : Prop
  | done (h : hs = whole (writes hs))
  | addressed (a : BitVec 32) (h : hs = whole (writes hs) ++ [.aw a])
  /-- The last write still has to be answered. -/
  | written (h : hs ++ [.b] = whole (writes hs))

/-- The backend gets what is written to `TX_FIFO`. -/
structure Transmits (tr : List (State × Event)) (s : State) : Prop where
  /-- There is at most one handshake in a cycle. -/
  single : ∀ c ∈ tr, (handshakes c.1 c.2).length ≤ 1
  inTurn : InTurn (log tr)
  /-- Whatever happened so far, the channel of the next one is open, and no other. -/
  ready : ∀ pre c post, tr = pre ++ c :: post → NextIsOpen pre c.1.regs
  /-- `C_uart_tx` is called with the low bytes of the writes of `TX_FIFO`, and with nothing else. -/
  calls : events txCalls tr = (writes (log tr)).flatMap Write.bytes
  /-- What `serial_tx` handed over are the first ones. -/
  handed : s.chr <+: (writes (log tr)).flatMap Write.bytes
  /-- Once the socket is empty they are all handed over. -/
  all : s.uartTx.taken = s.uartTx.sent.length → s.chr = (writes (log tr)).flatMap Write.bytes
  /-- And the handler is never undefined. -/
  defined : ∃ s', step s .tx = some s'

/-! ## Writes -/

theorem writes_whole (xs : List Write) : writes (whole xs) = xs := by
  induction xs with
  | nil => rfl
  | cons x xs ih => exact congrArg (x :: ·) ih

theorem whole_append (xs ys : List Write) : whole (xs ++ ys) = whole xs ++ whole ys :=
  List.flatMap_append

/-- An address whose word was not taken yet is not a write. -/
theorem writes_addressed (xs : List Write) (a : BitVec 32) : writes (whole xs ++ [.aw a]) = xs := by
  induction xs with
  | nil => rfl
  | cons x xs ih => exact congrArg (x :: ·) ih

/-- The response is no part of it. -/
theorem writes_written {hs : List Handshake} {xs : List Write} (h : hs ++ [.b] = whole xs) :
    writes hs = xs := by
  have hsame : writes (hs ++ [.b]) = writes hs := by
    unfold writes addrs words
    rw [List.filterMap_append, List.filterMap_append]
    simp
  rw [← hsame, h, writes_whole]

/-! ## One cycle -/

/-- Where the module is with the handshakes `hs`, of which `xs` are the writes. -/
structure Account (r : Regs) (hs : List Handshake) (xs : List Write) : Prop where
  wf : Wf r
  idle : r.rState = .idle → hs = whole xs
  data : r.rState = .data → ∃ a, hs = whole xs ++ [.aw a] ∧ r.rSAwaddr = a.setWidth 4
  response : r.rState = .response → hs ++ [.b] = whole xs

theorem account_reset : Account AxiLiteSW.reset [] [] where
  wf := wf_reset
  idle := fun _ => rfl
  data := by simp [AxiLiteSW.reset]
  response := by simp [AxiLiteSW.reset]

theorem Account.writes_eq {r : Regs} {hs : List Handshake} {xs : List Write}
    (h : Account r hs xs) : writes hs = xs ∧ InTurn hs := by
  cases hst : r.rState with
  | idle =>
    have heq := h.idle hst
    have hxs : writes hs = xs := by rw [heq, writes_whole]
    exact ⟨hxs, .done (by rw [hxs]; exact heq)⟩
  | data =>
    obtain ⟨a, heq, _⟩ := h.data hst
    have hxs : writes hs = xs := by rw [heq, writes_addressed]
    exact ⟨hxs, .addressed a (by rw [hxs]; exact heq)⟩
  | response =>
    have heq := h.response hst
    have hxs := writes_written heq
    exact ⟨hxs, .written (by rw [hxs]; exact heq)⟩

theorem length_whole (xs : List Write) : (whole xs).length = 3 * xs.length := by
  induction xs with
  | nil => rfl
  | cons x xs ih =>
    rw [List.length_cons, Nat.mul_succ, ← ih]
    rfl

/-- The handshakes tell the state. -/
theorem Account.state_iff {r : Regs} {hs : List Handshake} {xs : List Write}
    (h : Account r hs xs) :
    (r.rState = .idle ↔ hs = whole xs) ∧ (r.rState = .data ↔ ∃ a, hs = whole xs ++ [.aw a]) ∧
      (r.rState = .response ↔ hs ++ [.b] = whole xs) := by
  -- so many of them there are in each state
  have hidle : hs = whole xs → hs.length = 3 * xs.length := fun he => by rw [he, length_whole]
  have hdata : (∃ a, hs = whole xs ++ [.aw a]) → hs.length = 3 * xs.length + 1 := by
    rintro ⟨a, rfl⟩
    rw [List.length_append, length_whole]
    rfl
  have hresponse : hs ++ [.b] = whole xs → hs.length + 1 = 3 * xs.length := fun he => by
    rw [← length_whole, ← he, List.length_append]
    rfl
  cases hst : r.rState with
  | idle =>
    have hlen := hidle (h.idle hst)
    refine ⟨iff_of_true rfl (h.idle hst), iff_of_false (by simp) fun hd => ?_,
      iff_of_false (by simp) fun hb => ?_⟩
    · have hother := hdata hd
      omega
    · have hother := hresponse hb
      omega
  | data =>
    obtain ⟨a, heq, _⟩ := h.data hst
    have hlen := hdata ⟨a, heq⟩
    refine ⟨iff_of_false (by simp) fun hi => ?_, iff_of_true rfl ⟨a, heq⟩,
      iff_of_false (by simp) fun hb => ?_⟩
    · have hother := hidle hi
      omega
    · have hother := hresponse hb
      omega
  | response =>
    have hlen := hresponse (h.response hst)
    refine ⟨iff_of_false (by simp) fun hi => ?_, iff_of_false (by simp) fun hd => ?_,
      iff_of_true rfl (h.response hst)⟩
    · have hother := hidle hi
      omega
    · have hother := hdata hd
      omega

/-- A cycle in which nothing is handed over, and the state stays. -/
theorem Account.quiet {r : Regs} {i : Input} {dataAvailable : Bool} {hs : List Handshake}
    {xs : List Write} (h : Account r hs xs)
    (hstep : StepIs r i dataAvailable [] [] r.rState r.rSAwaddr) :
    Account (AxiLiteSW.step r i dataAvailable) (hs ++ AxiLiteSW.handshakes r i) xs := by
  rw [hstep.handshakes, List.append_nil]
  refine ⟨hstep.wf, ?_, ?_, ?_⟩
  all_goals rw [hstep.state]
  · exact h.idle
  · rw [hstep.awaddr]
    exact h.data
  · exact h.response

/-- **One cycle**: it completes at most one write, and sends what that write transmits. -/
theorem Account.step {r : Regs} {i : Input} {hs : List Handshake} {xs : List Write}
    (h : Account r hs xs) (hr : i.iRstN = true) (dataAvailable : Bool) :
    ∃ new, Account (AxiLiteSW.step r i dataAvailable) (hs ++ AxiLiteSW.handshakes r i) (xs ++ new) ∧
      AxiLiteSW.txCalls r i dataAvailable = new.flatMap Write.bytes ∧
      (AxiLiteSW.handshakes r i).length ≤ 1 := by
  have hquiet : StepIs r i dataAvailable [] [] r.rState r.rSAwaddr → ∃ new,
      Account (AxiLiteSW.step r i dataAvailable) (hs ++ AxiLiteSW.handshakes r i) (xs ++ new) ∧
        AxiLiteSW.txCalls r i dataAvailable = new.flatMap Write.bytes ∧
        (AxiLiteSW.handshakes r i).length ≤ 1 := by
    intro hstep
    refine ⟨[], by rw [List.append_nil]; exact h.quiet hstep, hstep.calls, ?_⟩
    rw [hstep.handshakes]
    exact Nat.zero_le _
  cases hst : r.rState with
  | idle =>
    have hstep := step_idle dataAvailable hr h.wf hst
    split at hstep
    · -- an address
      refine ⟨[], ?_, hstep.calls, by rw [hstep.handshakes]; exact Nat.le_refl _⟩
      rw [hstep.handshakes, List.append_nil, h.idle hst]
      exact ⟨hstep.wf, by simp [hstep.state], fun _ => ⟨_, rfl, hstep.awaddr⟩,
        by simp [hstep.state]⟩
    · exact hquiet (hst ▸ hstep)
  | data =>
    have hstep := step_data dataAvailable hr h.wf hst
    split at hstep
    · -- its word
      obtain ⟨a, heq, haddr⟩ := h.data hst
      refine ⟨[⟨a, i.iSWdata⟩], ?_, ?_, by rw [hstep.handshakes]; exact Nat.le_refl _⟩
      · rw [hstep.handshakes, heq]
        refine ⟨hstep.wf, by simp [hstep.state], by simp [hstep.state], fun _ => ?_⟩
        rw [whole_append, List.append_assoc, List.append_assoc]
        rfl
      · rw [hstep.calls, haddr]
        exact (List.append_nil _).symm
    · exact hquiet (hst ▸ hstep)
  | response =>
    have hstep := step_response dataAvailable hr h.wf hst
    split at hstep
    · -- its response
      refine ⟨[], ?_, hstep.calls, by rw [hstep.handshakes]; exact Nat.le_refl _⟩
      rw [hstep.handshakes, List.append_nil, h.response hst]
      exact ⟨hstep.wf, fun _ => rfl, by simp [hstep.state], by simp [hstep.state]⟩
    · exact hquiet (hst ▸ hstep)

/-! ## Runs -/

/-- **A run.** -/
theorem account_run {s s' : State} {tr : List (State × Event)} {hs : List Handshake}
    {xs : List Write} (hrun : Run s tr s') (hreset : ∀ c ∈ tr, c.2.OutOfReset)
    (h : Account s.regs hs xs) :
    ∃ new, Account s'.regs (hs ++ log tr) (xs ++ new) ∧
      events txCalls tr = new.flatMap Write.bytes ∧
      ∀ c ∈ tr, (handshakes c.1 c.2).length ≤ 1 := by
  induction hrun generalizing hs xs with
  | nil s =>
    refine ⟨[], ?_, rfl, fun c hc => absurd hc List.not_mem_nil⟩
    rw [List.append_nil]
    exact (List.append_nil hs).symm ▸ h
  | @cons s s₁ s₂ e tr hstep _ ih =>
    have hrest : ∀ c ∈ tr, c.2.OutOfReset := fun c hc => hreset c (List.mem_cons_of_mem _ hc)
    -- what the event adds to the account
    have hone : ∃ new, Account s₁.regs (hs ++ handshakes s e) (xs ++ new) ∧
        txCalls s e = new.flatMap Write.bytes ∧ (handshakes s e).length ≤ 1 := by
      cases e with
      | edge i dataAvailable =>
        cases hstep
        exact h.step (hreset _ List.mem_cons_self) dataAvailable
      | deliver =>
        obtain ⟨q, _, rfl⟩ := Option.map_eq_some_iff.mp hstep
        exact ⟨[], by simpa [handshakes] using h, rfl, Nat.zero_le _⟩
      | tx =>
        obtain ⟨q, _, rfl⟩ := Option.map_eq_some_iff.mp hstep
        exact ⟨[], by simpa [handshakes] using h, rfl, Nat.zero_le _⟩
    obtain ⟨new, hacc, hcalls, hlen⟩ := hone
    obtain ⟨new', hacc', hcalls', hlen'⟩ := ih hrest hacc
    refine ⟨new ++ new', ?_, ?_, ?_⟩
    · rw [log, events_cons, ← List.append_assoc, ← List.append_assoc]
      exact hacc'
    · rw [events_cons, hcalls, hcalls', List.flatMap_append]
    · intro c hc
      rcases List.mem_cons.mp hc with rfl | hc
      · exact hlen
      · exact hlen' c hc

/-- From the first edge on `awready` is high in `WRITE_IDLE`. -/
theorem awready_run {s s' : State} {tr : List (State × Event)} (hrun : Run s tr s')
    (hreset : ∀ c ∈ tr, c.2.OutOfReset)
    (h : (s.regs.rSAwready = true ↔ s.regs.rState = .idle) ∨ ∃ c ∈ tr, c.2.OnClock) :
    s'.regs.rSAwready = true ↔ s'.regs.rState = .idle := by
  induction hrun with
  | nil s =>
    rcases h with h | ⟨c, hc, _⟩
    · exact h
    · exact absurd hc List.not_mem_nil
  | @cons s s₁ s₂ e tr hstep _ ih =>
    refine ih (fun c hc => hreset c (List.mem_cons_of_mem _ hc)) ?_
    have hlater : ¬e.OnClock → (∃ c ∈ (s, e) :: tr, c.2.OnClock) → ∃ c ∈ tr, c.2.OnClock := by
      rintro hno ⟨c, hc, hedge⟩
      rcases List.mem_cons.mp hc with rfl | hc
      · exact absurd hedge hno
      · exact ⟨c, hc, hedge⟩
    cases e with
    | edge i dataAvailable =>
      cases hstep
      exact Or.inl (step_awready dataAvailable (hreset _ List.mem_cons_self))
    | deliver =>
      obtain ⟨q, _, rfl⟩ := Option.map_eq_some_iff.mp hstep
      exact h.imp_right (hlater id)
    | tx =>
      obtain ⟨q, _, rfl⟩ := Option.map_eq_some_iff.mp hstep
      exact h.imp_right (hlater id)

/-- After every run from reset the channel of the next handshake is open. -/
theorem nextIsOpen_of_reset {s : State} {tr : List (State × Event)} (hrun : Run init tr s)
    (hreset : ∀ c ∈ tr, c.2.OutOfReset) : NextIsOpen tr s.regs := by
  obtain ⟨xs, hacc, _⟩ := account_run hrun hreset account_reset
  rw [List.nil_append, List.nil_append] at hacc
  have hxs : writes (log tr) = xs := hacc.writes_eq.1
  obtain ⟨hidle, hdata, hresponse⟩ := hacc.state_iff
  refine ⟨fun hedge => ?_, ?_, ?_⟩
  all_goals rw [hxs]
  · rw [awready_run hrun hreset (Or.inr hedge), hidle]
  · rw [hacc.wf.w, hdata]
  · rw [hacc.wf.b, hresponse]

/--
**The transmit path**, in every run after reset: whatever the master does on the three channels,
and however the clock edges, the arrivals on the socket and the calls of the handler interleave.
-/
theorem transmits_of_reset {s : State} {tr : List (State × Event)} (hrun : Run init tr s)
    (hreset : ∀ c ∈ tr, c.2.OutOfReset) : Transmits tr s := by
  obtain ⟨xs, hacc, hcalls, hsingle⟩ := account_run hrun hreset account_reset
  rw [List.nil_append, List.nil_append] at hacc
  obtain ⟨hxs, hturn⟩ := hacc.writes_eq
  rw [← hxs] at hcalls
  have h0 : Carries [] init := ⟨rfl, rfl⟩
  have hcarries : Carries (events txCalls tr) s := carries_run hrun h0
  obtain ⟨hsent, hchr⟩ := hcarries
  rw [hcalls] at hsent hchr
  refine ⟨hsingle, hturn, fun pre c post htr => ?_, hcalls, ?_, fun hall => ?_, ?_⟩
  · subst htr
    obtain ⟨m, hfirst, hlast⟩ := hrun.append_inv
    obtain ⟨_, heq, _, _⟩ := hlast.cons_inv
    rw [heq]
    exact nextIsOpen_of_reset hfirst fun d hd => hreset d (List.mem_append_left _ hd)
  · rw [hchr]
    exact List.take_prefix _ _
  · rw [hchr, hall, hsent, List.length_map, List.take_length]
  · obtain ⟨r, hr⟩ := serialTx_isSome hsent
    exact ⟨_, by rw [step, hr]; rfl⟩

/-! ## A word before its address -/

/-- A cycle in which the master offers a word, and perhaps its address. -/
def writeCycle (awvalid bready : Bool) : Event :=
  .edge ⟨true, 0x4, awvalid, 0x141, true, bready, 0, 0⟩ false

theorem transmits_early : ∃ tr s, Run init tr s ∧ s.chr = [0x41] ∧ Transmits tr s := by
  have hrun : Run init _ _ :=
    Path.cons (i := writeCycle false false) rfl (Path.cons (i := writeCycle true false) rfl
      (Path.cons (i := writeCycle false false) rfl (Path.cons (i := .deliver) rfl
        (Path.cons (i := .tx) rfl (Path.nil _)))))
  refine ⟨_, _, hrun, by decide, transmits_of_reset hrun ?_⟩
  intro c hc
  simp only [List.mem_cons, List.not_mem_nil, or_false] at hc
  rcases hc with rfl | rfl | rfl | rfl | rfl <;> trivial

end QemuHdlSim.UartTx
