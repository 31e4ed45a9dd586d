import QemuHdlSim.Nic.Transmit

/-!
# The packets of the stream at the network layer

A packet of the stream is what the beats up to and including a `tlast` beat keep. `axis_s` does not
look at a beat that keeps no lane, and so neither at its `tlast`: when such a beat ends a packet
that has bytes, these bytes go out with those of the next packet.

* `Clean` — no packet ends that way
* `count_le` — every packet that does is one that the network layer does not get
* `faithful_iff` — the network layer gets the packets of the stream exactly when it is clean
-/

namespace QemuHdlSim.Tx

open Infra Infra.Stream AxisS

variable {w : Nat}

/-- The packets of a stream that have bytes. -/
def packets (bs : List (Beat w)) : List (List Byte) :=
  ((parse bs).packets.map payload).filter fun p => decide (p ≠ [])

/-- No beat without bytes ends a packet that has some. -/
def Clean (bs : List (Beat w)) : Prop :=
  ∀ pre b post, bs = pre ++ b :: post → b.keep = 0 → b.last = true → payload (parse pre).rest = []

/-! ## Packets beat by beat -/

theorem clean_nil : Clean ([] : List (Beat w)) := by
  intro pre b post h
  exact absurd h (by simp)

theorem clean_snoc {bs : List (Beat w)} {b : Beat w} :
    Clean (bs ++ [b]) ↔
      Clean bs ∧ (b.keep = 0 → b.last = true → payload (parse bs).rest = []) := by
  constructor
  · intro h
    exact ⟨fun pre x post hbs => h pre x (post ++ [b]) (by rw [hbs]; simp), h bs b [] rfl⟩
  · rintro ⟨hbs, hb⟩ pre x post heq
    rcases List.eq_nil_or_concat post with rfl | ⟨post', y, rfl⟩
    · obtain ⟨hpre, hx⟩ := List.append_inj' heq rfl
      cases hx
      rw [← hpre]
      exact hb
    · have hcut : bs ++ [b] = (pre ++ x :: post') ++ [y] := by rw [heq]; simp
      exact hbs pre x post' (List.append_inj' hcut rfl).1

theorem packets_snoc_open (bs : List (Beat w)) {b : Beat w} (h : b.last = false) :
    packets (bs ++ [b]) = packets bs ∧
      payload (parse (bs ++ [b])).rest = payload (parse bs).rest ++ b.bytes := by
  rw [packets, parse_snoc, Parsed.push, if_neg (by simp [h])]
  exact ⟨rfl, payload_snoc _ _⟩

theorem packets_snoc_last (bs : List (Beat w)) {b : Beat w} (h : b.last = true) :
    packets (bs ++ [b])
        = packets bs ++ [payload (parse bs).rest ++ b.bytes].filter (fun p => decide (p ≠ [])) ∧
      (parse (bs ++ [b])).rest = [] := by
  rw [packets, parse_snoc, Parsed.push, if_pos h]
  refine ⟨?_, rfl⟩
  rw [List.map_append, List.filter_append, List.map_singleton, payload_snoc]
  rfl

/-- The last beat of a packet keeps a byte. -/
theorem packets_snoc_kept {bs : List (Beat w)} {b : Beat w} (h : b.last = true) (hk : b.keep ≠ 0) :
    packets (bs ++ [b]) = packets bs ++ [payload (parse bs).rest ++ b.bytes] := by
  have hne : payload (parse bs).rest ++ b.bytes ≠ [] := by
    intro hnil
    exact hk (b.bytes_eq_nil_iff.mp (List.append_eq_nil_iff.mp hnil).2)
  rw [(packets_snoc_last bs h).1,
    List.filter_cons_of_pos (p := fun x => decide (x ≠ [])) (decide_eq_true hne), List.filter_nil]

theorem kept_snoc_null {bs : List (Beat w)} {b : Beat w} (h : b.keep = 0) :
    kept (bs ++ [b]) = kept bs := by
  unfold kept
  rw [List.filter_append, List.filter_cons_of_neg (by simp [h]), List.filter_nil,
    List.append_nil]

theorem kept_snoc {bs : List (Beat w)} {b : Beat w} (h : b.keep ≠ 0) :
    kept (bs ++ [b]) = kept bs ++ [b] := by
  unfold kept
  rw [List.filter_append, List.filter_cons_of_pos (by simpa using h), List.filter_nil]

/-- **Where the stream is clean**, the beats without bytes can be left out. -/
theorem kept_packets {bs : List (Beat w)} (h : Clean bs) :
    (parse (kept bs)).packets.map payload = packets bs ∧
      payload (parse (kept bs)).rest = payload (parse bs).rest := by
  induction bs using List.reverseRecOn with
  | nil => exact ⟨rfl, rfl⟩
  | append_singleton bs b ih =>
    obtain ⟨hbs, hb⟩ := clean_snoc.mp h
    obtain ⟨hpackets, hrest⟩ := ih hbs
    by_cases hk : b.keep = 0
    · have hbytes := b.bytes_eq_nil_iff.mpr hk
      rw [kept_snoc_null hk]
      cases hl : b.last with
      | false =>
        obtain ⟨hp, hr⟩ := packets_snoc_open bs hl
        rw [hp, hr, hbytes, List.append_nil]
        exact ⟨hpackets, hrest⟩
      | true =>
        -- what it ends has no bytes
        have hnil := hb hk hl
        obtain ⟨hp, hr⟩ := packets_snoc_last bs hl
        rw [hp, hr, hrest, hnil, hbytes]
        exact ⟨by rw [hpackets]; simp, rfl⟩
    · rw [kept_snoc hk]
      cases hl : b.last with
      | false =>
        obtain ⟨hp, hr⟩ := packets_snoc_open bs hl
        rw [hp, hr, parse_snoc, Parsed.push, if_neg (by simp [hl])]
        exact ⟨hpackets, by rw [payload_snoc, hrest]⟩
      | true =>
        rw [packets_snoc_kept hl hk, (packets_snoc_last bs hl).2, parse_snoc, Parsed.push,
          if_pos hl]
        refine ⟨?_, rfl⟩
        rw [List.map_append, List.map_singleton, payload_snoc, hpackets, hrest]

/--
**What is lost stays lost.** There are never more packets without the beats that have no bytes, and
as many only when the stream is clean.
-/
theorem count_le (bs : List (Beat w)) :
    (parse (kept bs)).packets.length ≤ (packets bs).length ∧
      ((parse (kept bs)).packets.length = (packets bs).length → Clean bs) := by
  induction bs using List.reverseRecOn with
  | nil => exact ⟨Nat.le_refl _, fun _ => clean_nil⟩
  | append_singleton bs b ih =>
    obtain ⟨hle, heq⟩ := ih
    by_cases hk : b.keep = 0
    · rw [kept_snoc_null hk]
      cases hl : b.last with
      | false =>
        rw [(packets_snoc_open bs hl).1]
        exact ⟨hle, fun h => clean_snoc.mpr ⟨heq h, fun _ hlast => absurd hlast (by simp [hl])⟩⟩
      | true =>
        rw [(packets_snoc_last bs hl).1, b.bytes_eq_nil_iff.mpr hk, List.append_nil,
          List.length_append]
        -- a packet with bytes ends here, and `axis_s` does not see it end
        by_cases hnil : payload (parse bs).rest = []
        · rw [hnil]
          exact ⟨hle, fun h => clean_snoc.mpr ⟨heq h, fun _ _ => hnil⟩⟩
        · rw [List.filter_cons_of_pos (by simpa using hnil), List.filter_nil,
            List.length_singleton]
          exact ⟨by omega, fun h => by omega⟩
    · rw [kept_snoc hk, parse_snoc]
      have hclean : Clean bs → Clean (bs ++ [b]) := fun h =>
        clean_snoc.mpr ⟨h, fun hnull => absurd hnull hk⟩
      cases hl : b.last with
      | false =>
        rw [(packets_snoc_open bs hl).1, Parsed.push, if_neg (by simp [hl])]
        exact ⟨hle, fun h => hclean (heq h)⟩
      | true =>
        rw [packets_snoc_kept hl hk, Parsed.push, if_pos hl]
        simp only [List.length_append, List.length_singleton]
        exact ⟨by omega, fun h => hclean (heq (by omega))⟩

/-! ## Runs -/

/-- The steps of `axis_s` in a run. -/
def axisTrace (tr : List (State × Event w)) : List (Regs × Input w) :=
  events (fun s e => match e with
    | .edge i _ => [(s.axis, i)]
    | _ => []) tr

/-- The stream of a run. -/
def stream (tr : List (State × Event w)) : List (Beat w) := events beats tr

theorem clockedRun_axisTrace {tr : List (State × Event w)} {s s' : State} (hrun : Run s tr s')
    (hreset : ∀ c ∈ tr, c.2.OutOfReset) :
    ClockedRun AxisS.step (fun i => i.aresetn = true) s.axis (axisTrace tr) s'.axis ∧
      events calls (axisTrace tr) = events sendCalls tr ∧
      events (fun _ i => i.beats) (axisTrace tr) = stream tr := by
  induction hrun with
  | nil s => exact ⟨⟨Path.nil _, fun c hc => absurd hc List.not_mem_nil⟩, rfl, rfl⟩
  | @cons s s₁ s₂ e tr hstep hpath ih =>
    obtain ⟨hclocked, hcalls, hbeats⟩ := ih (fun c hc => hreset c (List.mem_cons_of_mem _ hc))
    cases e with
    | edge i last =>
      obtain ⟨fs, _, rfl⟩ := step_edge_eq_some hstep
      have hr : i.aresetn = true := hreset _ List.mem_cons_self
      refine ⟨⟨Path.cons rfl hclocked.1, fun c hc => ?_⟩, ?_, ?_⟩
      · rcases List.mem_cons.mp hc with rfl | hc
        · exact hr
        · exact hclocked.2 c hc
      · exact congrArg (calls s.axis i ++ ·) hcalls
      · exact congrArg (i.beats ++ ·) hbeats
    | deliver =>
      obtain ⟨q, _, rfl⟩ := Option.map_eq_some_iff.mp hstep
      exact ⟨hclocked, hcalls, hbeats⟩
    | tx =>
      obtain ⟨q, _, rfl⟩ := Option.map_eq_some_iff.mp hstep
      exact ⟨hclocked, hcalls, hbeats⟩

/-- What is known at the end of a run: of the registers, and of the calls so far. -/
theorem run_law {d : Buf buffSize} {tr : List (State × Event w)} {s : State}
    (hrun : Run (init d) tr s) (hreset : ∀ c ∈ tr, c.2.OutOfReset) :
    Tracks s.axis (parse (kept (stream tr))).rest ∧
      List.Forall₂ SendCall.Hands (events sendCalls tr) (parse (kept (stream tr))).packets := by
  obtain ⟨hclocked, hcalls, hbeats⟩ := clockedRun_axisTrace hrun hreset
  obtain ⟨htracks, ps, hps, hhands⟩ := AxisS.run_law [] hclocked (tracks_afterReset d)
  rw [hbeats] at htracks hps
  rw [hcalls] at hhands
  refine ⟨htracks, ?_⟩
  rw [show (parse (kept (stream tr))).packets = ps from hps]
  exact hhands

/-- Calls that hand over packets which fit the buffer hand over just these. -/
theorem payload_of_hands {cs : List SendCall} {ps : List (List (Beat w))}
    (h : List.Forall₂ SendCall.Hands cs ps) (hfit : ∀ q ∈ ps, (payload q).length ≤ buffSize) :
    cs.map SendCall.payload = ps.map payload := by
  induction h with
  | nil => rfl
  | cons hc _ ih =>
    rw [List.map_cons, List.map_cons, hc (hfit _ List.mem_cons_self),
      ih (fun q hq => hfit q (List.mem_cons_of_mem _ hq))]

/-! ## The packets -/

/-- The network layer gets the packets of the stream. -/
structure Faithful (tr : List (State × Event w)) (s : State) : Prop where
  /-- `C_send_packet` is called with them, in order and once for each. -/
  calls : (events sendCalls tr).map SendCall.payload = packets (stream tr)
  /-- What `net_tx_packet` handed over are the first ones. -/
  handed : s.os <+: packets (stream tr)
  /-- Once the socket is empty they are all handed over. -/
  all : s.nicResp.taken = s.nicResp.sent.length → s.os = packets (stream tr)

/-- The calls say it all. -/
theorem faithful_of_calls {d : Buf buffSize} {tr : List (State × Event w)} {s : State}
    (hrun : Run (init d) tr s)
    (h : (events sendCalls tr).map SendCall.payload = packets (stream tr)) : Faithful tr s := by
  have hos := os_run hrun
  have hsent := (sent_run hrun).1.trans h
  refine ⟨h, ?_, fun hall => ?_⟩
  · rw [hos, ← hsent]
    exact (List.take_prefix _ _).map _
  · rw [hos, hall, List.take_length, hsent]

theorem calls_of_clean {d : Buf buffSize} {tr : List (State × Event w)} {s : State}
    (hrun : Run (init d) tr s) (hreset : ∀ c ∈ tr, c.2.OutOfReset)
    (hlen : ∀ p ∈ packets (stream tr), p.length ≤ buffSize) (h : Clean (stream tr)) :
    (events sendCalls tr).map SendCall.payload = packets (stream tr) := by
  obtain ⟨hpackets, _⟩ := kept_packets h
  rw [payload_of_hands (run_law hrun hreset).2 ?_, hpackets]
  intro q hq
  refine hlen _ ?_
  rw [← hpackets]
  exact List.mem_map_of_mem hq

/-- Nothing is undefined: the handler runs through, and so does the next edge. -/
structure Defined (w : Nat) (tr : List (State × Event w)) (s : State) : Prop where
  tx : ∃ s', step (w := w) s .tx = some s'
  edge : ∀ (i : Input w) (last : BitVec 8), i.aresetn = true → Clean (stream tr ++ i.beats) →
    (∀ p ∈ packets (stream tr ++ i.beats), p.length ≤ buffSize) →
    ∃ s', step s (.edge i last) = some s'

theorem defined_of_clean {d : Buf buffSize} {tr : List (State × Event w)} {s : State}
    (hrun : Run (init d) tr s) (hreset : ∀ c ∈ tr, c.2.OutOfReset)
    (hlen : ∀ p ∈ packets (stream tr), p.length ≤ buffSize) (h : Clean (stream tr)) :
    Defined w tr s := by
  constructor
  · -- every frame of the log is one of the calls
    have hcalls := calls_of_clean hrun hreset hlen h
    have hfit : ∀ f ∈ s.nicResp.sent, f.size.toNat ≤ buffSize := by
      intro f hf
      have hmem : f.payload ∈ packets (stream tr) := by
        rw [← hcalls, ← (sent_run hrun).1]
        exact List.mem_map_of_mem hf
      have hle := hlen _ hmem
      rwa [ACCNICData.payload, List.length_map, List.length_range] at hle
    obtain ⟨r, hr⟩ := netTxLoop_isSome hfit (s.nicResp.delivered - s.nicResp.taken)
    exact ⟨_, Option.map_eq_some_iff.mpr ⟨r, hr, rfl⟩⟩
  · intro i last hr hclean hle
    obtain ⟨_, ps, hps, hhands⟩ := step_law hr (run_law hrun hreset).1
    have hfit : ∀ q ∈ ps, (payload q).length ≤ buffSize := by
      intro q hq
      refine hle _ ?_
      rw [← (kept_packets hclean).1, hps]
      exact List.mem_map_of_mem (List.mem_append_right _ hq)
    have hsmall : ∀ c ∈ calls s.axis i, c.len.toNat ≤ buffSize := by
      intro c hc
      obtain ⟨q, hq, hcq⟩ :=
        List.mem_map.mp (payload_of_hands hhands hfit ▸ List.mem_map_of_mem hc)
      rw [← c.length_payload, ← hcq]
      exact hfit q hq
    obtain ⟨fs, hfs⟩ := mapM_cSendPacket_of_le last hsmall
    exact ⟨_, by rw [step, hfs]; rfl⟩

/--
**When the packets arrive.** A run after a reset, in which no packet has more than 4096 bytes: the
network layer gets the packets of the stream if and only if the stream is clean, and as long as it
is, nothing that the run can go on with is undefined.
-/
theorem faithful_iff {d : Buf buffSize} {tr : List (State × Event w)} {s : State}
    (hrun : Run (init d) tr s) (hreset : ∀ c ∈ tr, c.2.OutOfReset)
    (hlen : ∀ p ∈ packets (stream tr), p.length ≤ buffSize) :
    (Faithful tr s ↔ Clean (stream tr)) ∧ (Clean (stream tr) → Defined w tr s) := by
  refine ⟨⟨fun h => ?_, fun h => ?_⟩, defined_of_clean hrun hreset hlen⟩
  · refine (count_le (stream tr)).2 ?_
    rw [← h.calls, List.length_map]
    exact (run_law hrun hreset).2.length_eq.symm
  · exact faithful_of_calls hrun (calls_of_clean hrun hreset hlen h)

/-- A beat of one lane. -/
def oneByte (x : Byte) (keep : BitVec 1) (last : Bool) : Event 1 :=
  .edge ⟨true, true, ⟨fun _ => x, keep, last⟩⟩ 0

/-- One byte, and a null beat behind the packet. -/
theorem faithful_iff_one : ∃ tr s, Run (w := 1) (init fun _ => 0) tr s ∧
    stream tr = [⟨fun _ => 5, 1, true⟩, ⟨fun _ => 0, 0, true⟩] ∧ Faithful tr s := by
  have hrun : Run (w := 1) (init fun _ => 0) _ _ :=
    Path.cons (i := oneByte 5 1 true) rfl (Path.cons (i := oneByte 0 0 true) rfl (Path.nil _))
  refine ⟨_, _, hrun, rfl, (faithful_iff hrun ?_ ?_).1.mpr ?_⟩
  · intro c hc
    simp only [List.mem_cons, List.not_mem_nil, or_false] at hc
    rcases hc with rfl | rfl <;> rfl
  · decide
  · exact clean_snoc.mpr ⟨clean_snoc.mpr ⟨clean_nil, fun h => absurd h (by decide)⟩, fun _ _ => rfl⟩

/-- Two packets of one byte, of which the first is ended by a null beat, go out as one. -/
theorem not_faithful_merged : ∃ tr s, Run (w := 1) (init fun _ => 0) tr s ∧
    (∀ c ∈ tr, c.2.OutOfReset) ∧ packets (stream tr) = [[5], [6]] ∧
    (events sendCalls tr).map SendCall.payload = [[5, 6]] ∧ ¬Faithful tr s := by
  have hrun : Run (w := 1) (init fun _ => 0) _ _ :=
    Path.cons (i := oneByte 5 1 false) rfl (Path.cons (i := oneByte 0 0 true) rfl
      (Path.cons (i := oneByte 6 1 true) rfl (Path.nil _)))
  refine ⟨_, _, hrun, ?_, by decide, by decide, ?_⟩
  · intro c hc
    simp only [List.mem_cons, List.not_mem_nil, or_false] at hc
    rcases hc with rfl | rfl | rfl <;> rfl
  · rintro ⟨hcalls, _, _⟩
    revert hcalls
    decide

end QemuHdlSim.Tx
