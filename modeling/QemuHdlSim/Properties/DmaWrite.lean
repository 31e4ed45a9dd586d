import QemuHdlSim.Bridge.SlaveWrite
import QemuHdlSim.Bridge.Pack
import QemuHdlSim.Device.Pcie

/-!
# When a DMA write of the HDL side is byte exact

The path of one write burst: `axi4_s_w` collects the beats, `C_req_write` packs the strobed
bytes into a frame, `handle_hdl_request` stores `data_size` bytes at the start address.

The frame holds the strobed bytes without gaps, but `data_size` is `(len + 1) * 2 ^ size`
whatever the strobes and the alignment of the start address are. So the store always covers
`(len + 1) * 2 ^ size` addresses from `awaddr` on, and the two agree exactly when every byte of
that window is strobed:

* `dmaWrite_eq` — what the path does, for any burst
* `packed_full` — what is packed when every active lane is strobed and the start is aligned
* `dmaWrite_exact_iff` — exactness of the path, as a condition on the burst alone
-/

namespace QemuHdlSim

open Infra Axi4SW

variable {p : BusParams}

/-! ## Bursts a master may offer -/

/-- The strobe of lane `j` in beat `i`. -/
def Axi4SW.Burst.Strobed (b : Burst p) (i j : Nat) : Prop := (b.strb i).getLsbD j = true

instance (b : Burst p) (i j : Nat) : Decidable (b.Strobed i j) :=
  inferInstanceAs (Decidable (_ = true))

/--
A burst AXI allows, that fits the buffers of the module: the beats are no wider than the bus,
the burst stays in one page and only lanes of a beat are strobed in it.
-/
structure Axi4SW.Burst.Legal (b : Burst p) : Prop where
  size : 2 ^ b.size.toNat ≤ p.stbw
  inPage : b.geom.InPage
  fits : (b.len.toNat + 1) * p.stbw ≤ buffSize
  strobes : ∀ i ≤ b.len.toNat, ∀ j < p.stbw, b.Strobed i j → b.geom.Active p.stbw i j

/-- Every lane of every beat is strobed. -/
def Axi4SW.Burst.FullStrobes (b : Burst p) : Prop :=
  ∀ i ≤ b.len.toNat, ∀ j < p.stbw, b.geom.Active p.stbw i j → b.Strobed i j

/-- What the burst means for a byte memory: the strobed bytes change, the others do not. -/
structure Axi4SW.Burst.Exact (b : Burst p) (mem mem' : Mem) : Prop where
  written : ∀ i ≤ b.len.toNat, ∀ j < p.stbw, b.Strobed i j →
    mem' (b.geom.laneAddr p.stbw i j) = (b.data i).lane j
  kept : ∀ a, (∀ i ≤ b.len.toNat, ∀ j < p.stbw, b.Strobed i j → b.geom.laneAddr p.stbw i j ≠ a) →
    mem' a = mem a

/-- The whole path, from the AW handshake to the guest memory. -/
def dmaWrite (s : State p) (aw : Input p) (ws : List (Input p)) (stack : ACCData) (host : Host) :
    Option Host :=
  match events cReq (traceOf step s (aw :: ws)) with
  | [c] =>
    (cReqWrite p.stbw stack c.addr c.width.toNat c.len.toNat c.data c.strb).bind fun f =>
      handleHdlRequest host [f]
  | _ => none

/-- Byte size of the burst, `data_size` of its frame. -/
def Axi4SW.Burst.total (b : Burst p) : Nat := (b.len.toNat + 1) * b.geom.bytes

/-- The strobed bytes of the burst, in the order they are packed. -/
def Axi4SW.Burst.strobedBytes (b : Burst p) : List Byte :=
  packed (fun i j => (b.strb i).getLsbD j) (fun m => (b.data (m / p.stbw)).lane (m % p.stbw))
    p.stbw (b.len.toNat + 1)

namespace Axi4SW.Burst

variable {b : Burst p}

theorem Legal.bytes_dvd (h : b.Legal) : b.geom.bytes ∣ p.stbw := by
  have hle : b.size.toNat ≤ p.log2Stbw := by
    have := h.size
    unfold BusParams.stbw at this
    exact (Nat.pow_le_pow_iff_right (by omega)).mp this
  exact Nat.pow_dvd_pow 2 hle

theorem Legal.bytes_le (h : b.Legal) : b.geom.bytes ≤ p.stbw := h.size

theorem Legal.total_le (h : b.Legal) : b.total ≤ buffSize :=
  Nat.le_trans (Nat.mul_le_mul_left _ h.bytes_le) h.fits

theorem Legal.dataSize_toNat (h : b.Legal) :
    (burstSize b.size.toNat b.len.toNat).toNat = b.total := burstSize_toNat h.total_le

theorem Legal.len_lt_nstb (h : b.Legal) : b.len.toNat < p.nstb :=
  (p.le_nstb_iff _).mpr h.fits

theorem total_pos (b : Burst p) : 0 < b.total :=
  Nat.mul_pos (Nat.succ_pos _) b.geom.bytes_pos

theorem stop_eq (b : Burst p) : b.geom.stop = b.geom.start + b.total := rfl

end Axi4SW.Burst

/-! ## What the path does -/

theorem packed_congr {bit bit' : Nat → Nat → Bool} {byte byte' : Nat → Byte} {w : Nat} :
    ∀ {n : Nat}, (∀ i < n, ∀ j < w, bit i j = bit' i j ∧ byte (i * w + j) = byte' (i * w + j)) →
      packed bit byte w n = packed bit' byte' w n
  | 0, _ => rfl
  | n + 1, h => by
    have hlanes : packedLanes bit byte w n w = packedLanes bit' byte' w n w := by
      unfold packedLanes
      refine List.filterMap_congr ?_
      intro j hj
      obtain ⟨h1, h2⟩ := h n (by omega) j (List.mem_range.mp hj)
      rw [h1, h2]
    rw [packed_succ, packed_succ, hlanes, packed_congr (fun i hi => h i (by omega))]

theorem lane_index {i j : Nat} (hj : j < p.stbw) :
    (i * p.stbw + j) / p.stbw = i ∧ (i * p.stbw + j) % p.stbw = j := by
  refine ⟨?_, by rw [Nat.mul_add_mod_self_right, Nat.mod_eq_of_lt hj]⟩
  rw [Nat.add_comm, Nat.add_mul_div_right _ _ p.stbw_pos, Nat.div_eq_of_lt hj, Nat.zero_add]

/-- The buffers of the call hold the burst's beats, so its strobed bytes are packed. -/
theorem packed_of_holdsBeats {b : Burst p} {data : Buf buffSize}
    {strb : Fin p.nstb → BitVec 64} (hlen : b.len.toNat < p.nstb)
    (h : HoldsBeats b (b.len.toNat + 1) data strb) :
    packed (strbBit strb) data.get p.stbw (b.len.toNat + 1) = b.strobedBytes := by
  refine packed_congr ?_
  intro i hi j hj
  have hin : i < p.nstb := by omega
  have hw := p.stbw_le
  refine ⟨?_, ?_⟩
  · unfold strbBit
    rw [dif_pos hin, h.strb i hi hin, BitVec.getLsbD_setWidth]
    simp [show j < 64 by omega]
  · rw [h.data i hi j hj, (lane_index hj).1, (lane_index hj).2]

/--
**The path on any legal burst.**

One frame is stored: `total` bytes from the start address on, namely the strobed bytes packed
without gaps and, behind them, what was on the stack of `C_req_write`.
-/
theorem dmaWrite_eq {b : Burst p} (hb : b.Legal) {s : State p} {aw : Input p}
    {ws : List (Input p)} (hs : s.rWriteState = .idle) (haw : b.OnAw aw) (hws : b.Feeds 0 ws)
    (stack : ACCData) :
    ∃ d : Buf buffSize, (∀ m < buffSize, d.get m = overlay b.strobedBytes stack.data.get m) ∧
      ∀ host, dmaWrite s aw ws stack host
        = some { host with mem := host.mem.store b.addr.toNat d.get b.total } := by
  obtain ⟨hcol, hold, hnone⟩ := step_onAw hs haw
  obtain ⟨call, hev, haddr, hwidth, hlen, hbeats⟩ := call_of_feeds hb.fits ws 0 _ hcol hold hws
  obtain ⟨d, hframe, hd⟩ := cReqWrite_spec stack call.addr call.width.toNat call.len.toNat
    call.data call.strb (by rw [hlen]; exact hb.len_lt_nstb) (by rw [hlen]; exact hb.fits)
  refine ⟨d, ?_, ?_⟩
  · intro m hm
    rw [hd m hm, hlen, packed_of_holdsBeats hb.len_lt_nstb hbeats]
  · intro host
    have htrace : events cReq (traceOf step s (aw :: ws)) = [call] := by
      rw [traceOf, events_cons, hnone, List.nil_append, hev]
    have hsize : (burstSize call.width.toNat call.len.toNat).toNat = b.total := by
      rw [hwidth, hlen, hb.dataSize_toNat]
    unfold dmaWrite
    rw [htrace]
    simp only [hframe, Option.bind_some, handleHdlRequest_cons]
    rw [serveFrame_write rfl (by simp only [hsize]; exact hb.total_le)]
    simp only [hsize, haddr, Option.bind_some, handleHdlRequest_nil, Host.apply, List.append_nil]

/-! ## Full strobes from an aligned start -/

/-- The byte at offset `m` of a burst all of whose bytes are strobed. -/
def Axi4SW.Burst.byteAt (b : Burst p) (m : Nat) : Byte :=
  (b.data (m / b.geom.bytes)).lane ((b.addr.toNat + m) % p.stbw)

theorem Axi4SW.Burst.byteAt_beat {b : Burst p} (hb : b.Legal) (ha : b.geom.Aligned) (i : Nat)
    {k : Nat} (hk : k < b.geom.bytes) :
    b.byteAt (i * b.geom.bytes + k) = (b.data i).lane (b.geom.beatAddr i % p.stbw + k) := by
  have hle := ha.lane_add_bytes_le hb.bytes_dvd p.stbw_pos i
  have haddr : b.addr.toNat + (i * b.geom.bytes + k) = b.geom.beatAddr i + k := by
    have h1 := ha.beatAddr_eq i
    have h2 : b.addr.toNat = b.geom.start := ha
    omega
  have hlane : (b.geom.beatAddr i + k) % p.stbw = b.geom.beatAddr i % p.stbw + k := by
    rw [← Nat.mod_add_mod, Nat.mod_eq_of_lt (by omega)]
  unfold byteAt
  rw [haddr, hlane, Nat.add_comm (i * b.geom.bytes), Nat.add_mul_div_right _ _ b.geom.bytes_pos,
    Nat.div_eq_of_lt hk, Nat.zero_add]

/-- The strobed bytes of one fully strobed beat. -/
theorem packedLanes_full {b : Burst p} (hb : b.Legal) (ha : b.geom.Aligned)
    (hf : b.FullStrobes) {i : Nat} (hi : i ≤ b.len.toNat) :
    packedLanes (fun i j => (b.strb i).getLsbD j)
        (fun m => (b.data (m / p.stbw)).lane (m % p.stbw)) p.stbw i p.stbw
      = (List.range b.geom.bytes).map (fun k => b.byteAt (i * b.geom.bytes + k)) := by
  have hw0 := p.stbw_pos
  have hle := ha.lane_add_bytes_le hb.bytes_dvd hw0 i
  calc packedLanes _ _ p.stbw i p.stbw
      = (List.range p.stbw).filterMap (fun j =>
          if b.geom.beatAddr i % p.stbw ≤ j ∧ j < b.geom.beatAddr i % p.stbw + b.geom.bytes
          then some ((b.data i).lane j) else none) := by
        refine List.filterMap_congr ?_
        intro j hj
        have hjw : j < p.stbw := List.mem_range.mp hj
        have hbit : (b.strb i).getLsbD j = true ↔
            b.geom.beatAddr i % p.stbw ≤ j ∧ j < b.geom.beatAddr i % p.stbw + b.geom.bytes := by
          rw [← ha.active_iff hb.bytes_dvd hw0]
          exact ⟨hb.strobes i hi j hjw, hf i hi j hjw⟩
        simp only [hbit, lane_index hjw]
    _ = (List.range b.geom.bytes).map
          (fun k => (b.data i).lane (b.geom.beatAddr i % p.stbw + k)) :=
        filterMap_range_window _ _ _ _ hle
    _ = _ := List.map_congr_left fun k hk => (Burst.byteAt_beat hb ha i (List.mem_range.mp hk)).symm

/-- **Aligned and fully strobed, the packed bytes are the bytes of the window in order.** -/
theorem packed_full {b : Burst p} (hb : b.Legal) (ha : b.geom.Aligned) (hf : b.FullStrobes) :
    b.strobedBytes = (List.range b.total).map b.byteAt := by
  rw [Burst.total, ← flatMap_range_blocks]
  unfold Burst.strobedBytes packed
  refine List.flatMap_congr ?_
  intro i hi
  exact packedLanes_full hb ha hf (Nat.lt_succ_iff.mp (List.mem_range.mp hi))

/-! ## The condition -/

/-- An aligned, fully strobed burst leaves exactly its bytes in memory. -/
theorem exact_of_full {b : Burst p} (hb : b.Legal) (ha : b.geom.Aligned) (hf : b.FullStrobes)
    {d : Buf buffSize} {old : Nat → Byte}
    (hd : ∀ m < buffSize, d.get m = overlay b.strobedBytes old m) (mem : Mem) :
    b.Exact mem (mem.store b.addr.toNat d.get b.total) where
  written := by
    intro i hi j hj hs
    have hact := hb.strobes i hi j hj hs
    obtain ⟨h1, h2⟩ := hact.mem hi
    have haddr : b.addr.toNat = b.geom.start := ha
    have hstop := b.stop_eq
    have hgaddr : b.geom.addr = b.addr.toNat := rfl
    have hlo : b.geom.start + i * b.geom.bytes ≤ b.geom.laneAddr p.stbw i j :=
      Nat.le_trans (b.geom.beatAddr_mem i).1 hact.2.1
    have hhi := hact.2.2
    rw [Nat.succ_mul] at hhi
    have hoff : b.geom.laneAddr p.stbw i j - b.addr.toNat < b.total := by omega
    have htot := hb.total_le
    rw [Mem.store_in ⟨by omega, by omega⟩, hd _ (by omega), packed_full hb ha hf,
      overlay_of_lt (by simpa using hoff), List.getElem_map, List.getElem_range]
    -- the byte at this address was packed from lane `j` of beat `i`
    have hidx : (b.geom.laneAddr p.stbw i j - b.addr.toNat) / b.geom.bytes = i :=
      Nat.div_eq_of_lt_le (by omega) (by rw [Nat.succ_mul]; omega)
    have hlane : (b.addr.toNat + (b.geom.laneAddr p.stbw i j - b.addr.toNat)) % p.stbw = j := by
      rw [Nat.add_sub_cancel' (by omega)]
      exact Axi.Burst.laneAddr_mod hj
    unfold Burst.byteAt
    rw [hidx, hlane]
  kept := by
    intro a hno
    refine Mem.store_out ?_
    rintro ⟨h1, h2⟩
    have haddr : b.addr.toNat = b.geom.start := ha
    have hstop := b.stop_eq
    obtain ⟨i, j, hi, hact, heq⟩ :=
      Axi.Burst.exists_active hb.bytes_dvd p.stbw_pos (a := a) h1 (by omega)
    exact hno i hi j hact.1 (hf i hi j hact.1 hact) heq

/--
When the store is exact for every memory, each address it covers is strobed: the byte stored
there does not depend on the memory, so some memory disagrees with it.
-/
theorem strobed_of_exact {b : Burst p} {d : Buf buffSize}
    (h : ∀ mem : Mem, b.Exact mem (mem.store b.addr.toNat d.get b.total)) {a : Nat}
    (h1 : b.addr.toNat ≤ a) (h2 : a < b.addr.toNat + b.total) :
    ∃ i j, i ≤ b.len.toNat ∧ j < p.stbw ∧ b.Strobed i j ∧ b.geom.laneAddr p.stbw i j = a := by
  apply Classical.byContradiction
  intro hno
  have hkept := (h (fun _ => d.get (a - b.addr.toNat) + 1)).kept a
    (fun i hi j hj hs heq => hno ⟨i, j, hi, hj, hs, heq⟩)
  rw [Mem.store_in ⟨h1, h2⟩] at hkept
  have hne : ∀ x : Byte, x ≠ x + 1 := by decide
  exact hne _ hkept

/--
**Exactness of a DMA write, as a condition on the burst.**

Whatever the module's buffers, the gaps between the beats and the stack of `C_req_write` hold,
the path is exact for every guest memory if and only if the start address is aligned to the beat
size and every lane of every beat is strobed.
-/
theorem dmaWrite_exact_iff {b : Burst p} (hb : b.Legal) {s : State p} {aw : Input p}
    {ws : List (Input p)} (hs : s.rWriteState = .idle) (haw : b.OnAw aw) (hws : b.Feeds 0 ws)
    (stack : ACCData) :
    (∀ host, ∃ host', dmaWrite s aw ws stack host = some host' ∧ b.Exact host.mem host'.mem)
      ↔ b.geom.Aligned ∧ b.FullStrobes := by
  obtain ⟨d, hd, hrun⟩ := dmaWrite_eq hb hs haw hws stack
  constructor
  · intro h
    have hexact : ∀ mem : Mem, b.Exact mem (mem.store b.addr.toNat d.get b.total) := by
      intro mem
      obtain ⟨host', hr, he⟩ := h ⟨mem, [], []⟩
      rw [hrun] at hr
      cases hr
      exact he
    have hpos := b.total_pos
    have haligned : b.geom.Aligned := by
      -- the last address of the window is strobed, so it lies before the end of the burst
      obtain ⟨i, j, hi, hj, hst, heq⟩ :=
        strobed_of_exact hexact (a := b.addr.toNat + b.total - 1) (by omega) (by omega)
      have hlt := ((hb.strobes i hi j hj hst).mem hi).2
      have hstop := b.stop_eq
      have hle := b.geom.start_le
      have hgaddr : b.geom.addr = b.addr.toNat := rfl
      show b.geom.addr = b.geom.start
      omega
    refine ⟨haligned, ?_⟩
    intro i hi j hj hact
    obtain ⟨h1, h2⟩ := hact.mem hi
    have hstop := b.stop_eq
    have haddr : b.addr.toNat = b.geom.start := haligned
    obtain ⟨i', j', hi', hj', hst, heq⟩ := strobed_of_exact hexact h1 (by omega)
    obtain ⟨rfl, rfl⟩ := Axi.Burst.laneAddr_inj (hb.strobes i' hi' j' hj' hst) hact heq
    exact hst
  · rintro ⟨ha, hf⟩ host
    exact ⟨_, hrun host, exact_of_full hb ha hf hd host.mem⟩

/-! ## Two single-beat bursts on a 64-bit bus -/

/-- Eight bytes `11 .. 88` to address `0x1000`, with the given strobes. -/
def wordBurst (strb : BitVec 8) : Axi4SW.Burst bus64 where
  id := 1
  addr := 0x1000
  size := 3
  len := 0
  data := fun _ j => BitVec.ofNat 8 (0x11 * (j.val + 1))
  strb := fun _ => strb

/-- The cycle that offers the burst's address, and the one that offers its only beat. -/
def wordBurstAw (strb : BitVec 8) : Axi4SW.Input bus64 where
  iRstN := true
  iSAwid := 1
  iSAwaddr := 0x1000
  iSAwlen := 0
  iSAwsize := 3
  iSAwvalid := true
  iSWdata := (wordBurst strb).data 0
  iSWstrb := strb
  iSWvalid := true
  iSBready := true

theorem wordBurst_legal (strb : BitVec 8) : (wordBurst strb).Legal where
  size := by show 2 ^ 3 ≤ 2 ^ 3; omega
  inPage := show Axi.Burst.InPage ⟨0x1000, 3, 0⟩ by decide
  fits := by show (0 + 1) * 2 ^ 3 ≤ 4096; omega
  strobes := by
    intro i hi j hj _
    have hi0 : i = 0 := Nat.le_zero.mp hi
    subst hi0
    have hall : ∀ j < 2 ^ 3, Axi.Burst.Active ⟨0x1000, 3, 0⟩ (2 ^ 3) 0 j := by decide
    exact hall j hj

theorem wordBurst_feeds (strb : BitVec 8) :
    (wordBurst strb).OnAw (wordBurstAw strb) ∧ (wordBurst strb).Feeds 0 [wordBurstAw strb] :=
  ⟨⟨rfl, rfl, rfl, rfl, rfl, rfl⟩, rfl, rfl, rfl, rfl⟩

/-- The burst with all eight strobes. -/
theorem dmaWrite_wordBurst_full :
    ∃ host', dmaWrite reset (wordBurstAw 0xFF) [wordBurstAw 0xFF] ACCData.zero
        ⟨fun _ => 0, [], []⟩ = some host' ∧ (wordBurst 0xFF).Exact (fun _ => 0) host'.mem := by
  refine (dmaWrite_exact_iff (wordBurst_legal _) rfl (wordBurst_feeds _).1 (wordBurst_feeds _).2
    ACCData.zero).mpr ⟨by decide, fun i _ j hj _ => ?_⟩ ⟨fun _ => 0, [], []⟩
  have hall : ∀ j < 2 ^ 3, (0xFF : BitVec 8).getLsbD j = true := by decide
  exact hall j hj

/--
Strobes `0000_0101`: byte 1 of the frame is lane 2's, and the bytes behind it are the stack's.
Address `0x1007` is not strobed, yet it gets `EE` from the stack.
-/
theorem dmaWrite_sparse_not_exact :
    (wordBurst 0x05).Legal ∧ (wordBurst 0x05).OnAw (wordBurstAw 0x05) ∧
      (wordBurst 0x05).Feeds 0 [wordBurstAw 0x05] ∧
      ∃ host', dmaWrite reset (wordBurstAw 0x05) [wordBurstAw 0x05]
          { ACCData.zero with data := fun _ => 0xEE } ⟨fun _ => 0, [], []⟩ = some host' ∧
        host'.mem 0x1007 = 0xEE ∧ ¬(wordBurst 0x05).Exact (fun _ => 0) host'.mem := by
  refine ⟨wordBurst_legal _, (wordBurst_feeds _).1, (wordBurst_feeds _).2, _, rfl, rfl, ?_⟩
  intro h
  have hno : ∀ i ≤ 0, ∀ j < 2 ^ 3, (wordBurst 0x05).Strobed i j →
      (wordBurst 0x05).geom.laneAddr (2 ^ 3) i j ≠ 0x1007 := by decide
  exact absurd (h.kept 0x1007 hno) (by decide)

end QemuHdlSim
