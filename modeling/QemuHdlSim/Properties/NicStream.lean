import QemuHdlSim.Nic.Bridge

/-!
# The packets of the network layer on the stream

The HDL side cuts the stream at its `tlast` beats and keeps the bytes whose `tkeep` bit is set.
`Carries` is what it then has at any time, `Delivered` what it has when everything is through.

`packets_intact` — for packets of more than one word, whatever the times at which they are handed
over, arrive and are polled, the stream carries exactly these packets, in order and each once.
-/

namespace QemuHdlSim.Nic

open Infra Infra.Stream

variable {w : Nat}

/-- The stream `bs` has the first of the packets `ps`, whole, and the beginning of the next one. -/
structure Carries (ps : List (List Byte)) (bs : List (Beat w)) : Prop where
  /-- `tlast` is on the last beat of a packet and on no other. -/
  whole : ∀ q ∈ (parse bs).packets, IsPacket q
  /-- No `tlast` yet in what comes after them. -/
  unfinished : ∀ b ∈ (parse bs).rest, b.last = false
  /-- The packets that are through are the first ones, and no beat is outside a packet. -/
  order : ∃ next, ps = (parse bs).packets.map payload ++ next ∧
    ((parse bs).rest = [] ∨ ∃ p more, next = p :: more ∧ payload (parse bs).rest <+: p)

/-- The stream `bs` has the packets `ps` and nothing else. -/
structure Delivered (ps : List (List Byte)) (bs : List (Beat w)) : Prop where
  whole : ∀ q ∈ (parse bs).packets, IsPacket q
  packets : (parse bs).packets.map payload = ps
  rest : (parse bs).rest = []

/-! ## The beats of a list of frames -/

theorem map_payload_packetBeats (h : Lanes w) {fs : List ACCNICData}
    (hf : ∀ f ∈ fs, Sendable w f) :
    (fs.map (packetBeats w)).map payload = fs.map ACCNICData.payload := by
  rw [List.map_map]
  exact List.map_congr_left fun f hmem => payload_packetBeats h (hf f hmem)

theorem isPacket_of_mem {fs : List ACCNICData} {q : List (Beat w)}
    (hq : q ∈ fs.map (packetBeats w)) : IsPacket q := by
  obtain ⟨f, _, rfl⟩ := List.mem_map.mp hq
  exact AxisM.isPacket_beats _ _ _

theorem carries_of_prefix (h : Lanes w) {fs : List ACCNICData} (hf : ∀ f ∈ fs, Sendable w f)
    {bs : List (Beat w)} (hp : bs <+: fs.flatMap (packetBeats w)) :
    Carries (fs.map ACCNICData.payload) bs := by
  rw [List.flatMap_def] at hp
  obtain ⟨done, next, hsplit, hdone, hrest⟩ := parse_prefix (fun q => isPacket_of_mem) hp
  have hps : fs.map ACCNICData.payload = done.map payload ++ next.map payload := by
    rw [← map_payload_packetBeats h hf, hsplit, List.map_append]
  have hmem : ∀ q ∈ done ++ next, IsPacket q := fun q hq => isPacket_of_mem (hsplit ▸ hq)
  refine ⟨?_, ?_, next.map payload, by rw [hdone]; exact hps, ?_⟩
  · rw [hdone]
    exact fun q hq => hmem q (List.mem_append_left _ hq)
  · rcases hrest with hnil | ⟨q, more, hnext, hpre, hne⟩
    · rw [hnil]
      exact fun b hb => absurd hb List.not_mem_nil
    · have hq : IsPacket q := hmem q (by rw [hnext]; simp)
      exact hq.open_of_prefix hpre hne
  · rcases hrest with hnil | ⟨q, more, hnext, ⟨tail, htail⟩, _⟩
    · exact Or.inl hnil
    · refine Or.inr ⟨payload q, more.map payload, by rw [hnext, List.map_cons], payload tail, ?_⟩
      rw [← htail]
      exact List.flatMap_append.symm

theorem delivered_of_eq (h : Lanes w) {fs : List ACCNICData} (hf : ∀ f ∈ fs, Sendable w f)
    {bs : List (Beat w)} (heq : bs = fs.flatMap (packetBeats w)) :
    Delivered (fs.map ACCNICData.payload) bs := by
  have hcut : parse bs = ⟨fs.map (packetBeats w), []⟩ := by
    rw [heq, List.flatMap_def]
    exact parse_flatten fun q => isPacket_of_mem
  refine ⟨?_, ?_, by rw [hcut]⟩
  · rw [hcut]
    exact fun q => isPacket_of_mem
  · rw [hcut]
    exact map_payload_packetBeats h hf

/-! ## Runs -/

/-- The frames an event takes off the socket. -/
def taken (s : State w) : Event → List ACCNICData
  | .edge aresetn => polled s aresetn
  | _ => []

/-- What the law of a run asks of an event: no reset within a packet, no packet of one word. -/
def Event.Fair (s : State w) (e : Event) : Prop :=
  e.BetweenPackets s ∧ ∀ buf ∈ received s e, w < buf.length

theorem step_law (h : Lanes w) {s s' : State w} {e : Event} (hw : Wf s) (he : e.Fair s)
    (hstep : step s e = some s') :
    Wf s' ∧ owed s ++ (taken s e).flatMap (packetBeats w) = transfers s e ++ owed s' := by
  obtain ⟨hbetween, hlen⟩ := he
  cases e with
  | edge aresetn =>
    cases hstep
    exact edge_law h hw hbetween
  | rx buf =>
    obtain ⟨f, hrx, rfl⟩ := Option.map_eq_some_iff.mp hstep
    obtain ⟨hsize, hle, _⟩ := netRxPacket_eq_some hrx
    have hgt := hlen buf (List.mem_singleton.mpr rfl)
    refine ⟨⟨hw.axis, hw.vars, fun g hg => ?_⟩, List.append_nil _⟩
    rcases List.mem_append.mp hg with hg | hg
    · exact hw.frames g hg
    · rw [List.mem_singleton.mp hg]
      exact ⟨by omega, by omega⟩
  | deliver =>
    obtain ⟨q, hq, rfl⟩ := Option.map_eq_some_iff.mp hstep
    obtain ⟨hsent, _⟩ := Fifo.deliver_eq_some hq
    exact ⟨⟨hw.axis, hw.vars, fun g hg => hw.frames g (hsent ▸ hg)⟩, List.append_nil _⟩

/-- The frames taken are the first ones of the socket's log. -/
theorem taken_step {s s' : State w} {e : Event} (hstep : step s e = some s') :
    s'.nicReq.sent.take s'.nicReq.taken
      = s.nicReq.sent.take s.nicReq.taken ++ taken s e := by
  cases e with
  | edge aresetn =>
    cases hstep
    show _ = _ ++ polled s aresetn
    cases hb : AxisM.busy s.axis (s.input aresetn) with
    | true =>
      obtain ⟨hedge, hpoll⟩ := edge_of_busy hb
      rw [hedge, hpoll, List.append_nil]
    | false =>
      rcases edge_of_free hb with ⟨f, q, hq, hpoll, hedge⟩ | ⟨_, hpoll, hedge⟩
      · rw [hedge, hpoll]
        exact Fifo.recv?_take hq
      · rw [hedge, hpoll, List.append_nil]
  | rx buf =>
    obtain ⟨f, _, rfl⟩ := Option.map_eq_some_iff.mp hstep
    show (s.nicReq.sent ++ [f]).take s.nicReq.taken = _
    rw [List.take_append_of_le_length s.nicReq.taken_le_sent]
    exact (List.append_nil _).symm
  | deliver =>
    obtain ⟨q, hq, rfl⟩ := Option.map_eq_some_iff.mp hstep
    obtain ⟨hsent, htaken, _⟩ := Fifo.deliver_eq_some hq
    show q.sent.take q.taken = _
    rw [hsent, htaken]
    exact (List.append_nil _).symm

/-- The socket's log is what the network layer handed over. -/
theorem received_step {s s' : State w} {e : Event} (hstep : step s e = some s') :
    s'.nicReq.sent.map ACCNICData.payload
      = s.nicReq.sent.map ACCNICData.payload ++ received s e := by
  cases e with
  | edge aresetn =>
    cases hstep
    show _ = _ ++ []
    rw [List.append_nil]
    cases hb : AxisM.busy s.axis (s.input aresetn) with
    | true => rw [(edge_of_busy hb).1]
    | false =>
      rcases edge_of_free hb with ⟨f, q, hq, _, hedge⟩ | ⟨_, _, hedge⟩
      · obtain ⟨_, _, hsent, _⟩ := Fifo.recv?_eq_some hq
        rw [hedge, hsent]
      · rw [hedge]
  | rx buf =>
    obtain ⟨f, hrx, rfl⟩ := Option.map_eq_some_iff.mp hstep
    show (s.nicReq.sent ++ [f]).map ACCNICData.payload = _
    rw [List.map_append, List.map_singleton, (netRxPacket_eq_some hrx).2.2]
    rfl
  | deliver =>
    obtain ⟨q, hq, rfl⟩ := Option.map_eq_some_iff.mp hstep
    show _ = _ ++ []
    rw [List.append_nil]
    exact congrArg _ (Fifo.deliver_eq_some hq).1

/--
**The run law**: what was transferred, and what is owed, are the beats of the frames taken.
-/
theorem run_law (h : Lanes w) {tr : List (State w × Event)} {s : State w} (hrun : Run init tr s)
    (hfair : ∀ c ∈ tr, c.2.Fair c.1) :
    Wf s ∧ s.nicReq.sent.map ACCNICData.payload = events received tr ∧
      events transfers tr ++ owed s
        = (s.nicReq.sent.take s.nicReq.taken).flatMap (packetBeats w) := by
  have hwf : Wf s := hrun.invariant (P := fun a e => e.Fair a) wf_init hfair
    (fun a e b ha he hstep => (step_law h ha he hstep).1)
  refine ⟨hwf, ?_, ?_⟩
  · have hlog := hrun.accumulate (fun s => s.nicReq.sent.map ACCNICData.payload) received
      (fun a e b hstep => received_step hstep)
    rw [hlog]
    rfl
  · have htaken := hrun.accumulate (fun s => s.nicReq.sent.take s.nicReq.taken) taken
      (fun a e b hstep => taken_step hstep)
    have hlaw : owed init ++ events (fun a e => (taken a e).flatMap (packetBeats w)) tr
        = events transfers tr ++ owed s :=
      hrun.conserve (P := fun a e => e.Fair a) wf_init hfair
        (fun a e b ha he hstep => step_law h ha he hstep)
    rw [← hlaw, htaken]
    show [] ++ _ = ([] ++ events taken tr).flatMap (packetBeats w)
    rw [List.nil_append, List.nil_append]
    exact List.flatMap_assoc.symm

/-- The run that goes on with `n` edges, and how much work it leaves. -/
theorem run_edges (h : Lanes w) {s : State w} (hw : Wf s) (ha : Arrived s) (n : Nat) :
    ∃ tr s', Run s tr s' ∧ tr.map Prod.snd = List.replicate n (.edge true) ∧
      pending s' ≤ pending s - n := by
  induction n generalizing s with
  | zero => exact ⟨[], s, Path.nil s, rfl, Nat.le_refl _⟩
  | succ n ih =>
    obtain ⟨hw', _⟩ := edge_law h hw (show (Event.edge true).BetweenPackets s from trivial)
    obtain ⟨ha', hle⟩ := pending_edge hw ha
    obtain ⟨tr, s', hrun, hevents, hleft⟩ := ih hw' ha'
    refine ⟨(s, .edge true) :: tr, s', Path.cons rfl hrun, ?_, by omega⟩
    rw [List.map_cons, hevents]
    rfl

/-- Edges hand over no packet, and reset is not asserted on them. -/
theorem fair_of_edges {n : Nat} {tr : List (State w × Event)}
    (h : tr.map Prod.snd = List.replicate n (.edge true)) :
    (∀ c ∈ tr, c.2.Fair c.1) ∧ events received tr = [] := by
  have hedge : ∀ c ∈ tr, c.2 = .edge true := fun c hc =>
    List.eq_of_mem_replicate (h ▸ List.mem_map_of_mem hc)
  refine ⟨fun c hc => ?_, List.flatMap_eq_nil_iff.mpr fun c hc => ?_⟩
  · rw [hedge c hc]
    exact ⟨trivial, fun buf hbuf => absurd hbuf List.not_mem_nil⟩
  · rw [hedge c hc]
    rfl

/-! ## The packets -/

/--
**The packets arrive intact.** The bus has eight lanes, the packets have more than 8 and at most
4096 bytes, and reset is not asserted while a packet is on the stream. Then at any time the stream
carries the packets handed over so far; and once they have all arrived at the bridge, a number of
edges later they are all delivered, and nothing comes after.
-/
theorem packets_intact {tr : List (State 8 × Event)} {s : State 8} (hrun : Run init tr s)
    (hlen : ∀ buf ∈ events received tr, 8 < buf.length ∧ buf.length ≤ 4096)
    (hreset : ∀ c ∈ tr, c.2.BetweenPackets c.1) :
    Carries (events received tr) (events transfers tr) ∧
      (Arrived s → ∃ N, ∀ n ≥ N, ∃ tr' s', Run s tr' s' ∧
        tr'.map Prod.snd = List.replicate n (.edge true) ∧
        Delivered (events received tr) (events transfers (tr ++ tr'))) := by
  have hfair : ∀ c ∈ tr, c.2.Fair c.1 := fun c hc =>
    ⟨hreset c hc, fun buf hbuf => (hlen buf (List.mem_flatMap.mpr ⟨c, hc, hbuf⟩)).1⟩
  obtain ⟨hw, hreceived, hlaw⟩ := run_law lanes_eight hrun hfair
  refine ⟨?_, fun harrived => ⟨pending s, fun n hn => ?_⟩⟩
  · rw [← hreceived]
    refine carries_of_prefix lanes_eight hw.frames ?_
    have htake : (s.nicReq.sent.take s.nicReq.taken).flatMap (packetBeats 8)
        <+: s.nicReq.sent.flatMap (packetBeats 8) := by
      conv => rhs; rw [← List.take_append_drop s.nicReq.taken s.nicReq.sent, List.flatMap_append]
      exact List.prefix_append _ _
    exact (List.prefix_append _ _).trans (hlaw ▸ htake)
  · obtain ⟨tr', s', hrun', hevents, hleft⟩ := run_edges lanes_eight hw harrived n
    obtain ⟨hfair', hnone⟩ := fair_of_edges hevents
    obtain ⟨hw', hreceived', hlaw'⟩ := run_law lanes_eight (hrun.append hrun') fun c hc =>
      (List.mem_append.mp hc).elim (hfair c) (hfair' c)
    obtain ⟨hall, hnothing⟩ := of_pending_zero hw' (by omega)
    rw [events_append received, hnone, List.append_nil] at hreceived'
    rw [hnothing, List.append_nil, hall] at hlaw'
    refine ⟨tr', s', hrun', hevents, ?_⟩
    rw [← hreceived']
    exact delivered_of_eq lanes_eight hw'.frames hlaw'

/-- Nine bytes, handed over after an edge in reset. -/
def nineBytes : List Byte := [1, 2, 3, 4, 5, 6, 7, 8, 9]

theorem packets_intact_nineBytes :
    ∃ tr s, Run (w := 8) init tr s ∧ events received tr = [nineBytes] ∧
      ∃ N, ∀ n ≥ N, ∃ tr' s', Run s tr' s' ∧
        tr'.map Prod.snd = List.replicate n (.edge true) ∧
        Delivered [nineBytes] (events transfers (tr ++ tr')) := by
  have hrun : Run (w := 8) init _ _ :=
    Path.cons (i := .edge false) rfl (Path.cons (i := .rx nineBytes) rfl
      (Path.cons (i := .deliver) rfl (Path.nil _)))
  refine ⟨_, _, hrun, rfl, (packets_intact hrun ?_ ?_).2 rfl⟩
  · intro buf hbuf
    rw [List.mem_singleton.mp hbuf]
    decide
  · intro c hc
    simp only [List.mem_cons, List.not_mem_nil, or_false] at hc
    rcases hc with rfl | rfl | rfl
    · rfl
    · trivial
    · trivial

end QemuHdlSim.Nic
