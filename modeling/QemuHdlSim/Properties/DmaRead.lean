import QemuHdlSim.Infra.Axi
import QemuHdlSim.Bridge.SlaveRead
import QemuHdlSim.Bridge.Dpi
import QemuHdlSim.Device.Pcie

/-!
# When a DMA read of the HDL side is byte exact

The path of one read burst: `axi4_s_r` calls `C_req_read`, `handle_hdl_request` reads
`(len + 1) * 2 ^ size` bytes from the start address on, `C_poll` places them at lane
`addr mod BUSW` of the data buffer, and the module cuts the buffer into full bus words.

So beat `i` shows the bus word that is `i` words after the one of the start address
(`dmaRead_eq`), where AXI wants the word of the beat's own address. The two are the same word
for every beat exactly when the beats fill the bus, or there is one beat, or there are two and
the second one starts a new word:

* `dmaRead_exact_iff` — exactness of the path, as a condition on the burst alone
-/

namespace QemuHdlSim

open Infra Axi4SR

variable {p : BusParams}

namespace Axi4SR.ReqReadCall

/-- The burst's geometry. -/
def geom (c : ReqReadCall p) : Axi.Burst := ⟨c.addr.toNat, c.width.toNat, c.len.toNat⟩

/-- Byte size of the burst, `data_size` of its frame. -/
def total (c : ReqReadCall p) : Nat := (c.len.toNat + 1) * c.geom.bytes

/-- The AR channel offers `c`. -/
def OnAr (c : ReqReadCall p) (i : Input p) : Prop :=
  i.iRstN = true ∧ i.iSArvalid = true ∧ i.iSArid = c.id ∧ i.iSAraddr = c.addr ∧
    i.iSArsize = c.width ∧ i.iSArlen = c.len

/--
A burst AXI allows, that fits the buffers on its way: the beats are no wider than the bus, the
burst stays in one page, and every buffer index stays inside.
-/
structure Legal (c : ReqReadCall p) : Prop where
  size : 2 ^ c.width.toNat ≤ p.stbw
  inPage : c.geom.InPage
  fits : (c.len.toNat + 1) * p.stbw ≤ buffSize
  placed : c.addr.toNat % p.stbw + c.total ≤ buffSize

/-- What the burst means: every active lane of every beat shows the byte of its address. -/
def Exact (c : ReqReadCall p) (mem : Mem) (bs : List (RBeat p)) : Prop :=
  ∀ i ≤ c.len.toNat, ∃ b, bs[i]? = some b ∧
    ∀ j < p.stbw, c.geom.Active p.stbw i j → b.rdata.lane j = mem (c.geom.laneAddr p.stbw i j)

/--
The cycles of one burst with a master that keeps `rready` high: the AR handshake, the wait for
the response, the cycle of the response pulse, one cycle to load each beat, and the cycle in
which the last one is taken.
-/
structure Cycles (c : ReqReadCall p) (ar : Input p) (waits : List (Input p)) (pulse : Input p)
    (loads : List (Input p)) (last : Input p) : Prop where
  onAr : c.OnAr ar
  noPulse : ∀ i ∈ waits, i.reqValid = false
  length : loads.length = c.len.toNat + 1
  rready : ∀ i ∈ waits ++ pulse :: (loads ++ [last]), i.iRstN = true ∧ i.iSRready = true

/-- `d` holds the bytes of the burst from the lane of the start address on, and `old` elsewhere. -/
def Placed (c : ReqReadCall p) (mem : Mem) (old : Nat → Byte) (d : Buf buffSize) : Prop :=
  ∀ x, d.get x =
    if c.addr.toNat % p.stbw ≤ x ∧ x < c.addr.toNat % p.stbw + c.total
    then mem (c.addr.toNat / p.stbw * p.stbw + x) else old x

theorem Legal.bytes_dvd {c : ReqReadCall p} (h : c.Legal) : c.geom.bytes ∣ p.stbw := by
  have hle : c.width.toNat ≤ p.log2Stbw := (Nat.pow_le_pow_iff_right (by omega)).mp h.size
  exact Nat.pow_dvd_pow 2 hle

theorem Legal.total_le {c : ReqReadCall p} (h : c.Legal) : c.total ≤ buffSize :=
  Nat.le_trans (Nat.le_add_left _ _) h.placed

theorem stop_eq (c : ReqReadCall p) : c.geom.stop = c.geom.start + c.total := rfl

end Axi4SR.ReqReadCall

/--
The response to a call: the frame `C_req_read` sends, the handler's answer, and the variables
`C_poll` leaves when it takes the answer.
-/
def readResponse (c : ReqReadCall p) (stack : ACCData) (conf : ACCConf) (v : PollVars)
    (mem : Mem) : Option PollVars :=
  let f := cReqRead stack c.addr c.width.toNat c.len.toNat (c.id.setWidth 32)
  (handleHdlRequest ⟨mem, [], []⟩ [f]).bind fun h =>
    match h.hdlResp with
    | [r] => (cPoll p.stbw conf (.hdlResp r) v).map Prod.fst
    | _ => none

/-- The whole path: the R handshakes that follow the AR handshake in `s`. -/
def dmaRead (s : State p) (ar : Input p) (waits : List (Input p)) (pulse : Input p)
    (loads : List (Input p)) (last : Input p) (stack : ACCData) (conf : ACCConf) (v : PollVars)
    (mem : Mem) : Option (List (RBeat p)) :=
  match cReq s ar with
  | [c] => (readResponse c stack conf v mem).map fun v' =>
      let pulse' := { pulse with reqValid := decide (v'.reqType = .sRd), reqData := v'.data }
      events rHandshake (traceOf step (step s ar) (waits ++ pulse' :: (loads ++ [last])))
  | _ => none

/-! ## What the path does -/

/-- The response data: the bytes of the burst in place, the old bytes around them. -/
theorem readResponse_eq {c : ReqReadCall p} (hc : c.Legal) (stack : ACCData) (conf : ACCConf)
    (v : PollVars) (mem : Mem) :
    ∃ d : Buf buffSize, readResponse c stack conf v mem
        = some { v with reqType := .sRd, data := d } ∧ c.Placed mem v.data.get d := by
  have hsize : (burstSize c.width.toNat c.len.toNat).toNat = c.total :=
    burstSize_toNat hc.total_le
  refine ⟨v.data.copyIn (c.addr.toNat % p.stbw)
    (stack.data.copyIn 0 (fun k => mem (c.addr.toNat + k)) c.total).get c.total, ?_, ?_⟩
  · unfold readResponse
    simp only [handleHdlRequest_cons]
    rw [serveFrame_read rfl (by simp only [cReqRead, hsize]; exact hc.total_le)]
    simp only [Option.bind_some, handleHdlRequest_nil, Host.apply, List.nil_append, cReqRead, cPoll,
      hsize]
    rw [cPollHdlResp_eq (by simp only [hsize]; exact hc.placed)]
    simp only [hsize, Option.map_some]
  · intro x
    rw [Buf.get_copyIn _ _ _ _ hc.placed]
    refine if_ctx_congr Iff.rfl ?_ (fun _ => rfl)
    rintro ⟨h1, h2⟩
    have hdm := Nat.div_add_mod' c.addr.toNat p.stbw
    rw [Buf.get_copyIn _ _ _ _ (by rw [Nat.zero_add]; exact hc.total_le),
      if_pos ⟨Nat.zero_le _, by omega⟩]
    exact congrArg mem (by omega)

/-- The cycles of a burst hand over the beats of its response. -/
theorem beats_of_cycles {c : ReqReadCall p} {s : State p} {pre : Trace p}
    {ar pulse last : Input p} {waits loads : List (Input p)} (hpre : Run reset pre s)
    (hs : s.rReadState = .idle) (h : c.Cycles ar waits pulse loads last) (d : Buf buffSize) :
    cReq s ar = [c] ∧
      events rHandshake (traceOf step (step s ar)
          (waits ++ { pulse with reqValid := true, reqData := d } :: (loads ++ [last])))
        = beats c.id c.len d := by
  obtain ⟨hr, hv, hid, haddr, hsize, hlen⟩ := h.onAr
  have hw := (run_wf hpre wf_reset).1
  have har : ArHandshake s ar := ⟨hv, hw.arready.mpr hs⟩
  refine ⟨by rw [cReq_eq hw, if_pos har, haddr, hsize, hlen, hid], ?_⟩
  obtain ⟨_, hd, hid', hlen'⟩ := step_ar hr hw har
  have hwd := Wf.of_step hr hw
  let pulse' : Input p := { pulse with reqValid := true, reqData := d }
  have hin : ∀ i ∈ waits ++ pulse' :: loads, i.iRstN = true ∧ i.iSRready = true := by
    intro i hi
    rcases List.mem_append.mp hi with hi | hi
    · exact h.rready i (List.mem_append_left _ hi)
    · rcases List.mem_cons.mp hi with rfl | hi
      · exact h.rready pulse (List.mem_append_right _ List.mem_cons_self)
      · exact h.rready i (by simp [hi])
  have hrun : Run _ _ _ := ClockedRun.of_traceOf (fun i hi => (hin i hi).1) (step s ar)
  have hready : AllPresentable (traceOf step (step s ar) (waits ++ pulse' :: loads)) :=
    fun a ha _ _ => (hin _ (snd_mem_of_traceOf ha)).2
  have hshape : traceOf step (step s ar) (waits ++ pulse' :: loads)
      = traceOf step (step s ar) waits ++ (waits.foldl step (step s ar), pulse') ::
        traceOf step (step (waits.foldl step (step s ar)) pulse') loads := traceOf_append _ _ _ _
  have hwaits : ∀ a ∈ traceOf step (step s ar) waits, a.2.reqValid = false :=
    fun a ha => h.noPulse _ (snd_mem_of_traceOf ha)
  obtain ⟨hno, hidle⟩ := run_served (hshape ▸ hrun) hwd hd hwaits rfl
    (by rw [length_traceOf, h.length, hlen', hlen])
    (fun a ha => (hin _ (by simp [snd_mem_of_traceOf ha])).2)
  -- the response is the data of the pulse, and the last cycle takes the beat still shown
  have hresp : (events response (traceOf step (step s ar) (waits ++ pulse' :: loads))).head?
      = some d := by
    have hnone : events response (traceOf step (step s ar) waits) = [] := by
      refine List.flatMap_eq_nil_iff.mpr fun a ha => ?_
      simp [response, hwaits a ha]
    rw [hshape, events_append, hnone]
    rfl
  have hburst := run_burst hrun hwd hd hready (hshape ▸ hno)
  rw [hresp, hid', hid, hlen', hlen,
    owed_of_idle hidle (i := last) (fun _ _ => (h.rready last (by simp)).2)] at hburst
  have hlast : waits ++ pulse' :: (loads ++ [last]) = (waits ++ pulse' :: loads) ++ [last] := by
    simp
  show events rHandshake (traceOf step (step s ar) (waits ++ pulse' :: (loads ++ [last]))) = _
  rw [hlast, traceOf_append, events_append, traceOf, events_cons, traceOf, events_nil,
    List.append_nil, ← hburst]
  simp

/--
**The path on any legal burst.**

Beat `i` shows the `i`-th bus word from the one of the start address on; the bytes outside the
burst are what `C_poll`'s data variable held before.
-/
theorem dmaRead_eq {c : ReqReadCall p} (hc : c.Legal) {s : State p} {pre : Trace p}
    {ar pulse last : Input p} {waits loads : List (Input p)} (hpre : Run reset pre s)
    (hs : s.rReadState = .idle) (h : c.Cycles ar waits pulse loads last) (stack : ACCData)
    (conf : ACCConf) (v : PollVars) (mem : Mem) :
    ∃ d : Buf buffSize,
      dmaRead s ar waits pulse loads last stack conf v mem = some (beats c.id c.len d) ∧
      c.Placed mem v.data.get d := by
  obtain ⟨d, hresp, hd⟩ := readResponse_eq hc stack conf v mem
  obtain ⟨hcall, hbeats⟩ := beats_of_cycles hpre hs h d
  refine ⟨d, ?_, hd⟩
  unfold dmaRead
  rw [hcall]
  simp only [hresp, Option.map_some, decide_true, hbeats]

theorem getElem?_beats {id : BitVec p.tagw} {len : BitVec 8} {d : Buf buffSize} {i : Nat}
    (hi : i ≤ len.toNat) : (beats id len d)[i]? = some (beat id len d i) := by
  rw [beats, List.getElem?_map, List.getElem?_range (by omega)]
  rfl

/-- Lane `j` of beat `i` is byte `stbw * i + j` of the response data. -/
theorem lane_beat (id : BitVec p.tagw) (len : BitVec 8) (d : Buf buffSize) (i : Nat) {j : Nat}
    (hj : j < p.stbw) : (beat id len d i).rdata.lane j = d.get (p.stbw * i + j) :=
  BusWord.lane_mk (fun l => d.get (p.stbw * i + l)) hj

/-! ## The condition -/

/-- In the right word, an active lane shows the byte of its address. -/
theorem lane_of_sameWord {c : ReqReadCall p} {mem : Mem} {d : Buf buffSize} {old : Nat → Byte}
    (hd : c.Placed mem old d) {i j : Nat} (hi : i ≤ c.len.toNat) (hw : c.geom.SameWord p.stbw i)
    (hact : c.geom.Active p.stbw i j) :
    d.get (p.stbw * i + j) = mem (c.geom.laneAddr p.stbw i j) := by
  obtain ⟨h1, h2⟩ := hact.mem hi
  have haddr : c.geom.addr = c.addr.toNat := rfl
  have hlane : c.geom.laneAddr p.stbw i j
      = c.addr.toNat / p.stbw * p.stbw + (p.stbw * i + j) := by
    unfold Axi.Burst.laneAddr
    rw [hw, haddr, Nat.add_mul, Nat.mul_comm i, Nat.add_assoc]
  have hdm := Nat.div_add_mod' c.addr.toNat p.stbw
  have hstop := c.stop_eq
  have hstart := c.geom.start_le
  rw [hd, if_pos ⟨by omega, by omega⟩, hlane]

/--
In a wrong word, some memory shows it: the lane of the beat's own address does not depend on the
byte there.
-/
theorem sameWord_of_exact {c : ReqReadCall p} (old : Nat → Byte)
    (h : ∀ mem : Mem, ∃ d : Buf buffSize, c.Placed mem old d ∧ c.Exact mem (beats c.id c.len d))
    {i : Nat} (hi : i ≤ c.len.toNat) : c.geom.SameWord p.stbw i := by
  by_contra hne
  obtain ⟨j, hjdef⟩ : ∃ j, j = c.geom.beatAddr i % p.stbw := ⟨_, rfl⟩
  have hj : j < p.stbw := hjdef ▸ Nat.mod_lt _ p.stbw_pos
  have hlane : c.geom.laneAddr p.stbw i j = c.geom.beatAddr i := by
    rw [hjdef]
    exact Nat.div_add_mod' _ _
  have hact : c.geom.Active p.stbw i j :=
    ⟨hj, by rw [hlane], by rw [hlane]; exact (c.geom.beatAddr_mem i).2⟩
  obtain ⟨d, hd, hexact⟩ := h fun a =>
    if a = c.geom.beatAddr i then old (p.stbw * i + j) + 1 else old (p.stbw * i + j)
  obtain ⟨b, hb, hlanes⟩ := hexact i hi
  rw [getElem?_beats hi] at hb
  cases hb
  have hother : c.addr.toNat / p.stbw * p.stbw + (p.stbw * i + j) ≠ c.geom.beatAddr i := by
    intro heq
    refine hne ?_
    unfold Axi.Burst.SameWord
    rw [← heq, ← Nat.add_assoc, Nat.mul_comm p.stbw i, ← Nat.add_mul, Nat.add_comm _ j,
      Nat.add_mul_div_right _ _ p.stbw_pos, Nat.div_eq_of_lt hj, Nat.zero_add]
    rfl
  have hshown : d.get (p.stbw * i + j) = old (p.stbw * i + j) := by
    rw [hd]
    split
    · exact if_neg hother
    · rfl
  have hwrong := hlanes j hj hact
  rw [lane_beat _ _ _ _ hj, hshown, hlane] at hwrong
  simp only [if_true] at hwrong
  have hne' : ∀ x : Byte, x ≠ x + 1 := by decide
  exact hne' _ hwrong

/--
**Exactness of a DMA read, as a condition on the burst.**

From any state a run out of reset reaches, whatever the delays and whatever the stack of
`C_req_read` and the data variable of `C_poll` held, the path is exact for every guest memory if
and only if the beats fill the bus, or there is one beat, or there are two and the second one
starts a bus word.
-/
theorem dmaRead_exact_iff {c : ReqReadCall p} (hc : c.Legal) {s : State p} {pre : Trace p}
    {ar pulse last : Input p} {waits loads : List (Input p)} (hpre : Run reset pre s)
    (hs : s.rReadState = .idle) (h : c.Cycles ar waits pulse loads last) (stack : ACCData)
    (conf : ACCConf) (v : PollVars) :
    (∀ mem, ∃ bs, dmaRead s ar waits pulse loads last stack conf v mem = some bs ∧
        c.Exact mem bs)
      ↔ c.geom.FullStride p.stbw := by
  rw [← Axi.Burst.sameWord_iff hc.bytes_dvd p.stbw_pos]
  constructor
  · intro hall i hi
    refine sameWord_of_exact v.data.get (fun mem => ?_) hi
    obtain ⟨d, hrun, hd⟩ := dmaRead_eq hc hpre hs h stack conf v mem
    obtain ⟨bs, hbs, hexact⟩ := hall mem
    rw [hrun] at hbs
    cases hbs
    exact ⟨d, hd, hexact⟩
  · intro hword mem
    obtain ⟨d, hrun, hd⟩ := dmaRead_eq hc hpre hs h stack conf v mem
    refine ⟨_, hrun, ?_⟩
    intro i hi
    refine ⟨_, getElem?_beats hi, ?_⟩
    intro j hj hact
    rw [lane_beat _ _ _ _ hj]
    exact lane_of_sameWord hd hi (hword i hi) hact

/-! ## Two bursts on a 64-bit bus -/

/-- A burst at address `0x1000`. -/
def readBurst (width : BitVec 3) (len : BitVec 8) : ReqReadCall bus64 where
  addr := 0x1000
  width := width
  len := len
  id := 5

/-- A cycle that offers it, with `rready` high. -/
def readBurstCycle (width : BitVec 3) (len : BitVec 8) : Input bus64 where
  iRstN := true
  reqData := fun _ => 0
  reqValid := false
  iSArid := 5
  iSAraddr := 0x1000
  iSArlen := len
  iSArsize := width
  iSArvalid := true
  iSRready := true

theorem readBurst_cycles (width : BitVec 3) (len : BitVec 8) (n : Nat) (hn : n = len.toNat + 1) :
    (readBurst width len).Cycles (readBurstCycle width len) [] (readBurstCycle width len)
      (List.replicate n (readBurstCycle width len)) (readBurstCycle width len) where
  onAr := ⟨rfl, rfl, rfl, rfl, rfl, rfl⟩
  noPulse := by simp
  length := by rw [List.length_replicate, hn]; rfl
  rready := by
    intro i hi
    have heq : i = readBurstCycle width len := by
      rcases List.mem_cons.mp hi with rfl | hi
      · rfl
      · rcases List.mem_append.mp hi with hi | hi
        · exact List.eq_of_mem_replicate hi
        · exact List.mem_singleton.mp hi
    rw [heq]
    exact ⟨rfl, rfl⟩

/-- Two full-width beats. -/
theorem dmaRead_readBurst_full :
    ∃ bs, dmaRead reset (readBurstCycle 3 1) [] (readBurstCycle 3 1)
        (List.replicate 2 (readBurstCycle 3 1)) (readBurstCycle 3 1) ACCData.zero defaultConf
        PollVars.zero (BitVec.ofNat 8) = some bs ∧ (readBurst 3 1).Exact (BitVec.ofNat 8) bs :=
  (dmaRead_exact_iff ⟨by decide, by decide, by decide, by decide⟩ ⟨Path.nil _, by simp⟩ rfl
    (readBurst_cycles 3 1 2 rfl) ACCData.zero defaultConf PollVars.zero).mpr (Or.inl rfl) _

/--
Two beats of four bytes: the second one is in the upper half of the first word, but the second
word is shown, and it holds what the data variable held before.
-/
theorem dmaRead_narrow_not_exact :
    (readBurst 2 1).Legal ∧
      (readBurst 2 1).Cycles (readBurstCycle 2 1) [] (readBurstCycle 2 1)
        (List.replicate 2 (readBurstCycle 2 1)) (readBurstCycle 2 1) ∧
      ∃ bs, dmaRead reset (readBurstCycle 2 1) [] (readBurstCycle 2 1)
          (List.replicate 2 (readBurstCycle 2 1)) (readBurstCycle 2 1) ACCData.zero defaultConf
          { PollVars.zero with data := fun _ => 0xEE } (fun a => BitVec.ofNat 8 a) = some bs ∧
        bs[1]?.map (fun b => b.rdata.lane 4) = some 0xEE ∧
        ¬(readBurst 2 1).Exact (fun a => BitVec.ofNat 8 a) bs := by
  refine ⟨⟨by decide, by decide, by decide, by decide⟩, readBurst_cycles 2 1 2 rfl, _, rfl, rfl, ?_⟩
  intro h
  obtain ⟨b, hb, hlanes⟩ := h 1 (by decide)
  cases hb
  exact absurd (hlanes 4 (by decide) (by decide)) (by decide)

end QemuHdlSim
