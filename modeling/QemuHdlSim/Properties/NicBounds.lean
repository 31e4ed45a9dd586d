import QemuHdlSim.Nic.Bridge
import QemuHdlSim.Nic.Transmit

/-!
# The buffers of the NIC

Nobody compares the size of a packet with the 4096 bytes of a frame: neither `net_rx_packet`, which
copies what the network layer hands over, nor `axis_s`, which stores the bytes of the stream until
the packet ends.

* `storeIndices_iff` — the stores of a cycle stay in the buffer when the bytes fit it
* `stores_run` — so do those of a run, exactly when every packet fits
* `bounded_iff` — which are the packets that the two directions carry within their buffers
-/

namespace QemuHdlSim.Tx

open Infra Infra.Stream AxisS

variable {w : Nat}

/-- What `net_rx_packet` does with the packets of the network layer stays in the buffers. -/
def RxBounded (bufs : List (List Byte)) : Prop :=
  ∀ buf ∈ bufs, ∃ f, Nic.netRxPacket buf = some f ∧ f.size.toNat ≤ buffSize ∧
    f.size.toNat = buf.length ∧ f.payload = buf ∧ frameBytes? f = some buf

/-- So does what `axis_s`, `C_send_packet` and `net_tx_packet` do with the stream. -/
structure TxBounded (tr : List (Regs × Input w)) : Prop where
  /-- No byte is stored outside `n_data_tmp`. -/
  stores : ∀ k ∈ events storeIndices tr, k < buffSize
  /-- A frame has the bytes of one packet, all of them, and its size says how many. -/
  frames : ∀ c ∈ events calls tr, ∀ last, ∃ f q, cSendPacket last c = some f ∧
    q ∈ (parse (kept (events (fun _ i => i.beats) tr))).packets ∧ f.size.toNat ≤ buffSize ∧
    f.size.toNat = (payload q).length ∧ f.payload = payload q ∧ frameBytes? f = some (payload q)

/-! ## Stores -/

/-- The loop over the lanes, when `n` bytes are stored already. -/
theorem storeIndices_lanes (b : Beat w) (lanes : List Nat) {s : Store}
    (hs : s.size.toNat ≤ buffSize) :
    (∀ k ∈ events (fun (s : Store) j => if b.keep.getLsbD j then [s.size.toNat] else [])
        (traceOf (storeLane b) s lanes), k < buffSize) ↔
      s.size.toNat + (lanes.filterMap fun j =>
        if b.keep.getLsbD j then some (b.lane j) else none).length ≤ buffSize := by
  have hb := buffSize_eq
  induction lanes generalizing s with
  | nil => exact iff_of_true (fun k hk => absurd hk List.not_mem_nil) hs
  | cons j lanes ih =>
    rw [traceOf, events_cons]
    cases hk : b.keep.getLsbD j with
    | false =>
      have hstay : storeLane b s j = s := if_neg (by simp [hk])
      rw [hstay, List.filterMap_cons_none (by simp [hk])]
      exact ih hs
    | true =>
      rw [List.filterMap_cons_some (b := b.lane j) (by simp [hk]), List.length_cons]
      by_cases hlt : s.size.toNat < buffSize
      · have hnext : (storeLane b s j).size.toNat = s.size.toNat + 1 := by
          rw [storeLane, if_pos hk, BitVec.toNat_add, show (1 : BitVec 32).toNat = 1 from rfl,
            Nat.mod_eq_of_lt (by omega)]
        have hrest := ih (s := storeLane b s j) (by omega)
        rw [hnext, Nat.add_right_comm] at hrest
        rw [← Nat.add_assoc, List.forall_mem_append]
        constructor
        · rintro ⟨_, hlater⟩
          exact hrest.mp hlater
        · intro hle
          exact ⟨by simpa using hlt, hrest.mpr hle⟩
      · -- the first index outside
        refine iff_of_false (fun h => hlt (h s.size.toNat ?_)) (by omega)
        simp

/-- **The stores of a cycle.** -/
theorem storeIndices_iff {r : Regs} {i : Input w} {rest : List (Beat w)} (h : Tracks r rest)
    (hfit : (payload rest).length ≤ buffSize) (ht : i.taken = true) :
    (∀ k ∈ storeIndices r i, k < buffSize) ↔ (payload (rest ++ [i.beat])).length ≤ buffSize := by
  obtain ⟨hsize, _⟩ := h.collects hfit
  unfold storeIndices
  rw [if_pos ht, storeIndices_lanes i.beat (List.range w) (by omega), payload_snoc,
    List.length_append, hsize]
  rfl

theorem storeIndices_of_not_taken {r : Regs} {i : Input w} (ht : i.taken = false) :
    storeIndices r i = [] := if_neg (by simp [ht])

/-! ## Packets that fit -/

/-- The packets that are through fit the buffer, and so far the one that is not. -/
structure Fit (s : Parsed w) : Prop where
  packets : ∀ q ∈ s.packets, (payload q).length ≤ buffSize
  rest : (payload s.rest).length ≤ buffSize

/-- Once one does not fit it is too late. -/
theorem fit_of_push {s : Parsed w} {b : Beat w} (h : Fit (s.push b)) : Fit s := by
  obtain ⟨hpackets, hrest⟩ := h
  unfold Parsed.push at hpackets hrest
  cases hl : b.last with
  | false =>
    simp only [hl, Bool.false_eq_true, if_false] at hpackets hrest
    rw [payload_snoc, List.length_append] at hrest
    exact ⟨hpackets, by omega⟩
  | true =>
    simp only [hl, if_true] at hpackets
    have hlast := hpackets (s.rest ++ [b]) (by simp)
    rw [payload_snoc, List.length_append] at hlast
    exact ⟨fun q hq => hpackets q (List.mem_append_left _ hq), by omega⟩

theorem fit_of_append {bs bs' : List (Beat w)} (h : Fit (parse (bs ++ bs'))) : Fit (parse bs) := by
  induction bs' using List.reverseRecOn with
  | nil => rwa [List.append_nil] at h
  | append_singleton bs' b ih =>
    rw [← List.append_assoc, parse_snoc] at h
    exact ih (fit_of_push h)

theorem kept_append (bs bs' : List (Beat w)) : kept (bs ++ bs') = kept bs ++ kept bs' :=
  List.filter_append _ _

/-- **The step law**: the stores stay in the buffer exactly when the packets still fit it. -/
theorem stores_step {r : Regs} {i : Input w} {bs : List (Beat w)}
    (h : Tracks r (parse (kept bs)).rest) (hfit : Fit (parse (kept bs))) :
    (∀ k ∈ storeIndices r i, k < buffSize) ↔ Fit (parse (kept (bs ++ i.beats))) := by
  obtain ⟨hpackets, hrest⟩ := hfit
  rw [kept_beats]
  cases ht : i.taken with
  | false =>
    rw [storeIndices_of_not_taken ht, if_neg (by simp), List.append_nil]
    exact iff_of_true (fun k hk => absurd hk List.not_mem_nil) ⟨hpackets, hrest⟩
  | true =>
    rw [storeIndices_iff h hrest ht, if_pos rfl, parse_snoc, Parsed.push]
    cases hl : i.beat.last with
    | false =>
      rw [if_neg (by simp)]
      constructor
      · intro hle
        exact ⟨hpackets, hle⟩
      · rintro ⟨_, hle⟩
        exact hle
    | true =>
      rw [if_pos rfl]
      constructor
      · intro hle
        refine ⟨fun q hq => ?_, Nat.zero_le _⟩
        rcases List.mem_append.mp hq with hq | hq
        · exact hpackets q hq
        · rw [List.mem_singleton.mp hq]
          exact hle
      · rintro ⟨hall, _⟩
        exact hall _ (by simp)

/-- **The run law.** -/
theorem stores_run {r r' : Regs} {tr : List (Regs × Input w)} (bs : List (Beat w))
    (hrun : ClockedRun AxisS.step (fun i => i.aresetn = true) r tr r')
    (h : Tracks r (parse (kept bs)).rest) (hfit : Fit (parse (kept bs))) :
    (∀ k ∈ events storeIndices tr, k < buffSize) ↔
      Fit (parse (kept (bs ++ events (fun _ i => i.beats) tr))) := by
  induction tr generalizing r bs with
  | nil =>
    rw [events_nil, events_nil, List.append_nil]
    exact iff_of_true (fun k hk => absurd hk List.not_mem_nil) hfit
  | cons c tr ih =>
    obtain ⟨rfl, hr, hrest⟩ := hrun.cons_inv
    have hstep := stores_step (i := c.2) h hfit
    rw [events_cons, events_cons, ← List.append_assoc, List.forall_mem_append, hstep]
    constructor
    · rintro ⟨hmid, hlater⟩
      exact (ih _ hrest (step_law hr h).1 hmid).mp hlater
    · -- a packet that does not fit now fits at no later time either
      intro hend
      have hmid : Fit (parse (kept (bs ++ c.2.beats))) := by
        rw [kept_append] at hend
        exact fit_of_append hend
      exact ⟨hmid, (ih _ hrest (step_law hr h).1 hmid).mpr hend⟩

/-! ## Frames -/

theorem exists_of_hands {cs : List SendCall} {ps : List (List (Beat w))}
    (h : List.Forall₂ SendCall.Hands cs ps) {c : SendCall} (hc : c ∈ cs) :
    ∃ q ∈ ps, c.Hands q := by
  induction h with
  | nil => exact absurd hc List.not_mem_nil
  | cons hhands _ ih =>
    rcases List.mem_cons.mp hc with rfl | hc
    · exact ⟨_, List.mem_cons_self, hhands⟩
    · obtain ⟨q, hq, hcq⟩ := ih hc
      exact ⟨q, List.mem_cons_of_mem _ hq, hcq⟩

/-- The frame of a packet that fits the buffer. -/
theorem frame_of_hands {c : SendCall} {q : List (Beat w)} (h : c.Hands q)
    (hfit : (payload q).length ≤ buffSize) (last : BitVec 8) :
    ∃ f, cSendPacket last c = some f ∧ f.size.toNat = (payload q).length ∧
      f.payload = payload q ∧ frameBytes? f = some (payload q) := by
  have hpayload := h hfit
  have hlen : c.len.toNat = (payload q).length := by rw [← hpayload, c.length_payload]
  have hle : c.len.toNat ≤ buffSize := by omega
  have hframe := cSendPacket_of_le last hle
  obtain ⟨hsize, hbytes⟩ := cSendPacket_eq_some hframe
  refine ⟨_, hframe, hlen, hbytes.trans hpayload, ?_⟩
  rw [frameBytes?_of_le hle, hbytes, hpayload]

theorem rxBounded_iff (bufs : List (List Byte)) :
    RxBounded bufs ↔ ∀ buf ∈ bufs, buf.length ≤ buffSize := by
  constructor
  · intro h buf hbuf
    obtain ⟨f, hf, _⟩ := h buf hbuf
    exact (Nic.netRxPacket_eq_some hf).2.1
  · intro h buf hbuf
    have hle := h buf hbuf
    have hf : ∃ f, Nic.netRxPacket buf = some f := ⟨_, if_pos hle⟩
    obtain ⟨f, hf⟩ := hf
    obtain ⟨hsize, _, hpayload⟩ := Nic.netRxPacket_eq_some hf
    exact ⟨f, hf, by omega, hsize, hpayload, by rw [frameBytes?_of_le (by omega), hpayload]⟩

/--
**Which packets stay in the buffers.** For the packets `bufs` of the network layer and a run of
`axis_s` after a reset: nothing leaves a buffer, and every frame has the bytes its size says, if
and only if no packet of either side has more than 4096 bytes, the one that the stream is in the
middle of included.
-/
theorem bounded_iff {d : Buf buffSize} (bufs : List (List Byte)) {tr : List (Regs × Input w)}
    {r : Regs}
    (hrun : ClockedRun AxisS.step (fun i => i.aresetn = true) (afterReset d) tr r) :
    (RxBounded bufs ∧ TxBounded tr) ↔
      (∀ buf ∈ bufs, buf.length ≤ buffSize) ∧
        Fit (parse (kept (events (fun _ i => i.beats) tr))) := by
  have hstores := stores_run [] hrun (tracks_afterReset d)
    ⟨fun q hq => absurd hq List.not_mem_nil, Nat.zero_le _⟩
  rw [List.nil_append] at hstores
  obtain ⟨_, ps, hps, hhands⟩ := AxisS.run_law [] hrun (tracks_afterReset d)
  rw [rxBounded_iff]
  constructor
  · rintro ⟨hrx, htx⟩
    exact ⟨hrx, hstores.mp htx.stores⟩
  · rintro ⟨hrx, hfit⟩
    refine ⟨hrx, hstores.mpr hfit, fun c hc last => ?_⟩
    obtain ⟨q, hq, hcq⟩ := exists_of_hands hhands hc
    have hmem : q ∈ (parse (kept (events (fun _ i => i.beats) tr))).packets := by
      rw [List.nil_append] at hps
      rw [hps]
      exact List.mem_append_right _ hq
    have hle := hfit.packets q hmem
    obtain ⟨f, hf, hsize, hpayload, hread⟩ := frame_of_hands hcq hle last
    exact ⟨f, q, hf, hmem, by omega, hsize, hpayload, hread⟩

/-- A packet of ten bytes on a bus of four, with a gap before its last beat. -/
def tenBytes : List (Input 4) :=
  [⟨true, true, ⟨fun j => 1 + j, 0xF, false⟩⟩, ⟨true, true, ⟨fun j => 5 + j, 0xF, false⟩⟩,
    ⟨true, false, ⟨fun _ => 0, 0, false⟩⟩, ⟨true, true, ⟨fun j => 9 + j, 0x3, true⟩⟩]

theorem bounded_iff_ten :
    RxBounded [[7, 8, 9], [10]] ∧
      TxBounded (traceOf AxisS.step (afterReset fun _ => 0) tenBytes) :=
  (bounded_iff [[7, 8, 9], [10]] (ClockedRun.of_traceOf (by decide) _)).mpr
    ⟨by decide, ⟨by decide, by decide⟩⟩

/-- A packet of 4097 bytes leaves the buffer of `net_rx_packet`. -/
theorem not_rxBounded_4097 : ¬RxBounded [List.replicate 4097 0] := by
  rw [rxBounded_iff]
  intro h
  have hle := h _ List.mem_cons_self
  rw [List.length_replicate] at hle
  exact absurd hle (by decide)

end QemuHdlSim.Tx
