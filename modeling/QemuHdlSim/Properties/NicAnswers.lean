import QemuHdlSim.Nic.Link
import QemuHdlSim.Properties.NicStream
import QemuHdlSim.Properties.NicTransmit

/-!
# Packets to the design and back

The design under test has the packets of the network layer on `m_axis` and puts its own on `s_axis`.
Where it answers the packets one after another, each packet `p` with one packet `answer p`, the
network layer gets these answers: none is lost, repeated, merged or out of place on the way through
two sockets and two stream modules.

* `packets_transfers` — the packets the design sees
* `sent_eq_packets` — the packets QEMU sees
* `nicAnswers` — any run
-/

namespace QemuHdlSim.Nic

open Infra Infra.Stream

variable {w : Nat} {answer : List Byte → List Byte}

/-! ## The packets of a stream -/

/-- The packets that are through stay through. -/
theorem packets_append (bs bs' : List (Beat w)) : Tx.packets bs <+: Tx.packets (bs ++ bs') := by
  induction bs' using List.reverseRecOn with
  | nil =>
    rw [List.append_nil]
  | append_singleton bs' b ih =>
    rw [← List.append_assoc]
    cases hl : b.last with
    | false =>
      rw [(Tx.packets_snoc_open _ hl).1]
      exact ih
    | true =>
      rw [(Tx.packets_snoc_last _ hl).1]
      exact ih.trans (List.prefix_append _ _)

theorem packets_eq_map {bs : List (Beat w)}
    (h : ∀ p ∈ (parse bs).packets.map payload, p ≠ []) :
    Tx.packets bs = (parse bs).packets.map payload :=
  List.filter_eq_self.mpr fun p hp => decide_eq_true (h p hp)

theorem packets_of_carries {ps : List (List Byte)} {bs : List (Beat w)} (h : Carries ps bs)
    (hne : ∀ p ∈ ps, p ≠ []) : Tx.packets bs <+: ps := by
  obtain ⟨next, hps, _⟩ := h.order
  rw [packets_eq_map fun p hp => hne p (hps ▸ List.mem_append_left _ hp), hps]
  exact List.prefix_append _ _

/-- Of the beats of some frames, and what comes after. -/
theorem prefix_packets (h : Lanes w) {fs : List ACCNICData} (hf : ∀ f ∈ fs, Sendable w f)
    {bs : List (Beat w)} (hp : fs.flatMap (packetBeats w) <+: bs) :
    fs.map ACCNICData.payload <+: Tx.packets bs := by
  have hall := (delivered_of_eq h hf rfl).packets
  obtain ⟨bs', rfl⟩ := hp
  have hne : ∀ p ∈ (parse (fs.flatMap (packetBeats w))).packets.map payload, p ≠ [] := by
    intro p hmem
    rw [hall] at hmem
    obtain ⟨f, hfs, rfl⟩ := List.mem_map.mp hmem
    intro hnil
    have hlen : f.payload.length = f.size.toNat := by
      rw [ACCNICData.payload, List.length_map, List.length_range]
    rw [hnil, List.length_nil] at hlen
    exact absurd (hf f hfs).1 (by omega)
  rw [← hall, ← packets_eq_map hne]
  exact packets_append _ _

namespace Link

/-! ## Runs -/

/-- The run is after the reset, and the packets have more than one word and an answer that fits. -/
def Orderly (answer : List Byte → List Byte) : LinkEvent w → Prop
  | .edge i _ => i.aresetn = true
  | .rx buf => w < buf.length ∧ (answer buf).length ≤ buffSize
  | _ => True

/-- **The design answers** every packet it has seen whole, in order, or will do so. -/
structure Answers (answer : List Byte → List Byte) (tr : List (Link w × LinkEvent w)) : Prop where
  packets : Tx.packets (events beats tr) <+: (Tx.packets (events transfers tr)).map answer
  /-- No beat without bytes ends an answer. -/
  clean : Tx.Clean (events beats tr)

variable {d : Buf buffSize} {tr : List (Link w × LinkEvent w)} {s : Link w}

theorem mem_received (hok : ∀ c ∈ tr, Orderly answer c.2) {p : List Byte}
    (hp : p ∈ events received tr) : w < p.length ∧ (answer p).length ≤ buffSize := by
  obtain ⟨⟨a, e⟩, hmem, hp⟩ := List.mem_flatMap.mp hp
  have he := hok _ hmem
  cases e with
  | rx buf =>
    rw [List.mem_singleton.mp hp]
    exact he
  | _ => exact absurd hp List.not_mem_nil

/-- What the law of `axis_m` asks for. -/
theorem fair_of_orderly {e : LinkEvent w} {k : Event} (he : Orderly answer e) (hk : e.nic = some k)
    (a : State w) : k.Fair a := by
  cases e with
  | edge i last =>
    cases hk
    have hr : i.aresetn = true := he
    rw [hr]
    exact ⟨trivial, fun buf hbuf => absurd hbuf List.not_mem_nil⟩
  | rx buf =>
    cases hk
    refine ⟨trivial, ?_⟩
    intro buf' hbuf
    rw [List.mem_singleton.mp hbuf]
    exact he.1
  | deliverReq =>
    cases hk
    exact ⟨trivial, fun buf hbuf => absurd hbuf List.not_mem_nil⟩
  | _ => exact absurd hk (by simp [LinkEvent.nic])

/-- The law of `axis_m` and its socket. -/
theorem rx_law (h : Lanes w) (hrun : Run (init d) tr s) (hok : ∀ c ∈ tr, Orderly answer c.2) :
    Wf s.rx ∧ s.rx.nicReq.sent.map ACCNICData.payload = events received tr ∧
      events transfers tr ++ owed s.rx
        = (s.rx.nicReq.sent.take s.rx.nicReq.taken).flatMap (packetBeats w) := by
  rw [← events_received, ← events_transfers]
  refine Nic.run_law h (run_nic hrun) ?_
  rintro ⟨a, k⟩ hc
  obtain ⟨b, e, hmem, hsees, _⟩ := mem_part hc
  exact fair_of_orderly (hok _ hmem) hsees a

/-- **The packets the design sees** are the first ones the network layer handed over. -/
theorem packets_transfers (h : Lanes w) (hrun : Run (init d) tr s)
    (hok : ∀ c ∈ tr, Orderly answer c.2) :
    Tx.packets (events transfers tr) <+: events received tr := by
  obtain ⟨hw, hreceived, hlaw⟩ := rx_law h hrun hok
  refine packets_of_carries ?_ fun p hp hnil => ?_
  · rw [← hreceived]
    refine carries_of_prefix h hw.frames ?_
    have htake : (s.rx.nicReq.sent.take s.rx.nicReq.taken).flatMap (packetBeats w)
        <+: s.rx.nicReq.sent.flatMap (packetBeats w) := (List.take_prefix _ _).flatMap _
    exact (List.prefix_append _ _).trans (hlaw ▸ htake)
  · have hlen := (mem_received hok hp).1
    rw [hnil, List.length_nil] at hlen
    exact absurd hlen (Nat.not_lt_zero w)

/-- **The packets QEMU sees** are those of the design. -/
theorem sent_eq_packets (h : Lanes w) (hrun : Run (init d) tr s)
    (hok : ∀ c ∈ tr, Orderly answer c.2) (hd : Answers answer tr) :
    s.tx.nicResp.sent.map ACCNICData.payload = Tx.packets (events beats tr) := by
  have hreset : ∀ c ∈ txTrace tr, c.2.OutOfReset := by
    rintro ⟨a, k⟩ hc
    obtain ⟨b, e, hmem, hsees, _⟩ := mem_part hc
    have he := hok _ hmem
    cases e with
    | edge i last =>
      cases hsees
      exact he
    | deliverResp =>
      cases hsees
      trivial
    | tx =>
      cases hsees
      trivial
    | _ => exact absurd hsees (by simp [LinkEvent.resp])
  have hlen : ∀ p ∈ Tx.packets (events beats tr), p.length ≤ buffSize := by
    intro p hp
    obtain ⟨q, hq, rfl⟩ := List.mem_map.mp (hd.packets.subset hp)
    exact (mem_received hok ((packets_transfers h hrun hok).subset hq)).2
  have hstream : Tx.stream (txTrace tr) = events beats tr := events_beats
  have hcalls := Tx.calls_of_clean (run_tx hrun) hreset (by rwa [hstream])
    (by rw [hstream]; exact hd.clean)
  rw [(Tx.sent_run (run_tx hrun)).1, hcalls, hstream]

/-! ## The answers -/

/-- **The network layer gets the answers.** -/
structure Answered (answer : List Byte → List Byte) (tr : List (Link w × LinkEvent w))
    (s : Link w) : Prop where
  /-- Those of the first packets, in order and one for each. -/
  inOrder : s.tx.os <+: (events received tr).map answer
  /-- Once nothing is on its way, in the sockets, on the stream or in the design, those of all. -/
  all : s.rx.nicReq.taken = s.rx.nicReq.sent.length → owed s.rx = [] →
    Tx.packets (events beats tr) = (Tx.packets (events transfers tr)).map answer →
    s.tx.nicResp.taken = s.tx.nicResp.sent.length → s.tx.os = (events received tr).map answer

/--
**In any run** after a reset, with a design that answers, the network layer gets the answers to the
packets it has handed over.
-/
theorem nicAnswers (h : Lanes w) (hrun : Run (init d) tr s) (hok : ∀ c ∈ tr, Orderly answer c.2)
    (hd : Answers answer tr) : Answered answer tr s := by
  have hsent := sent_eq_packets h hrun hok hd
  have hos := Tx.os_run (run_tx hrun)
  have hseen := packets_transfers h hrun hok
  constructor
  · rw [hos]
    refine ((List.take_prefix _ _).map _).trans ?_
    rw [hsent]
    exact hd.packets.trans (hseen.map answer)
  · intro htaken howed hpackets hresp
    obtain ⟨hw, hreceived, hlaw⟩ := rx_law h hrun hok
    rw [howed, List.append_nil, htaken, List.take_length] at hlaw
    -- the whole log is on the stream
    have hall := prefix_packets h hw.frames (by rw [hlaw] : _ <+: events transfers tr)
    rw [hreceived] at hall
    rw [hos, hresp, List.take_length, hsent, hpackets,
      hseen.eq_of_length (Nat.le_antisymm hseen.length_le hall.length_le)]

/-! ## Nine bytes, and the first four of them back -/

/-- The design has nothing to say. -/
def noBeat : LinkEvent 8 := .edge ⟨true, false, ⟨fun _ => 0, 0, false⟩⟩ 0

/-- It answers in one beat. -/
def fourBytes : Beat 8 := ⟨fun j => nineBytes.getD j.val 0, 0x0F, true⟩

/-- A poll, a request that is taken, two beats, and the answer. -/
def answered : List (LinkEvent 8) :=
  [.rx nineBytes, .deliverReq, noBeat, noBeat, noBeat, noBeat, .edge ⟨true, true, fourBytes⟩ 0,
    .deliverResp, .tx]

theorem run_answered : ∃ s, runM step (init fun _ => 0) answered = some s ∧
    s.rx.nicReq.taken = s.rx.nicReq.sent.length ∧ owed s.rx = [] ∧
    s.tx.nicResp.taken = s.tx.nicResp.sent.length := ⟨_, rfl, rfl, rfl, rfl⟩

theorem orderly_answered : ∀ e ∈ answered, Orderly (List.take 4) e := by
  simp [answered, noBeat, Orderly, nineBytes, buffSize_eq]

theorem packets_answered :
    Tx.packets (events transfers (traceM step (init fun _ => 0) answered)) = [nineBytes] := by
  decide +kernel

theorem clean_fourBytes : Tx.Clean [fourBytes] :=
  Tx.clean_snoc.mpr ⟨Tx.clean_nil, fun h => absurd h (by decide)⟩

theorem nicAnswers_nineBytes : ∃ tr s, Run (w := 8) (init fun _ => 0) tr s ∧
    events received tr = [nineBytes] ∧ s.tx.os = [nineBytes.take 4] := by
  obtain ⟨s, hrun, htaken, howed, hresp⟩ := run_answered
  have hbeats : events beats (traceM step (init fun _ => 0) answered) = [fourBytes] := rfl
  have hpackets : Tx.packets (events beats (traceM step (init fun _ => 0) answered))
      = (Tx.packets (events transfers (traceM step (init fun _ => 0) answered))).map
        (List.take 4) := by
    rw [packets_answered, hbeats]
    decide
  have hanswered := nicAnswers lanes_eight (path_traceM hrun)
    (fun c hc => orderly_answered _ (snd_mem_of_traceM hc))
    ⟨hpackets ▸ List.prefix_rfl, hbeats ▸ clean_fourBytes⟩
  exact ⟨_, s, path_traceM hrun, rfl, hanswered.all htaken howed hpackets hresp⟩

end Link

end QemuHdlSim.Nic
