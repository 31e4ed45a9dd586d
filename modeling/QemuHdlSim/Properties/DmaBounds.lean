import QemuHdlSim.Properties.DmaRead
import QemuHdlSim.Properties.DmaWrite

/-!
# The buffers on the way of a DMA burst

A burst that AXI allows stays in one page, so its bytes fit the 4096 of a buffer (`total_le`). But
the two slaves give every beat a whole bus word, however narrow it is, and `C_poll` puts the bytes
of a read behind the lanes below its start address:

* `writeBounds_iff` — a write burst stays in the buffers exactly when its beats, taken as bus
  words, fit one
* `readBounds_iff` — a read burst has to fit with the lanes below its start address besides
-/

namespace QemuHdlSim

open Infra

variable {p : BusParams}

/-- A burst that AXI allows on this bus. -/
structure AxiLegal (p : BusParams) (g : Axi.Burst) : Prop where
  size : g.bytes ≤ p.stbw
  inPage : g.InPage

/-- **The bytes of a burst fit one page**, wherever it starts. -/
theorem AxiLegal.total_le {g : Axi.Burst} (h : AxiLegal p g) :
    (g.len + 1) * g.bytes ≤ buffSize := by
  have hpos := g.bytes_pos
  have hsize : 2 ^ g.size ≤ 2 ^ 6 := Nat.le_trans h.size p.stbw_le
  have hdvd : g.bytes ∣ 4096 :=
    show 2 ^ g.size ∣ 2 ^ 12 from
      Nat.pow_dvd_pow 2 (Nat.le_trans ((Nat.pow_le_pow_iff_right (by decide)).mp hsize) (by decide))
  -- the start is in the page of the address, and so is the last byte
  have hstart : g.start / 4096 = g.addr / 4096 := Axi.Burst.start_div hdvd
  have hpage : g.addr / 4096 = (g.stop - 1) / 4096 := h.inPage
  have hstop : g.stop = g.start + (g.len + 1) * g.bytes := rfl
  have hmul : 0 < (g.len + 1) * g.bytes := Nat.mul_pos (Nat.succ_pos _) hpos
  have hlow := Nat.div_add_mod' g.start 4096
  have hhigh := Nat.div_add_mod' (g.stop - 1) 4096
  have hmod := Nat.mod_lt (g.stop - 1) (show 0 < 4096 by decide)
  rw [buffSize_eq]
  omega

/-- A word is in the buffer when its bytes are. -/
theorem word_in_buffer {w : Nat} (hw : 0 < w) (k : Nat) :
    (∀ j < w, k * w + j < buffSize) ↔ (k + 1) * w ≤ buffSize := by
  rw [Nat.succ_mul]
  constructor
  · intro h
    have hlast := h (w - 1) (by omega)
    omega
  · intro h j hj
    omega

/-- So are all words up to the last one when that is. -/
theorem words_in_buffer {w n : Nat} (hw : 0 < w) {ks : List Nat} (hle : ∀ k ∈ ks, k ≤ n)
    (hmem : n ∈ ks) :
    (∀ k ∈ ks, ∀ j < w, k * w + j < buffSize) ↔ (n + 1) * w ≤ buffSize := by
  constructor
  · intro h
    exact (word_in_buffer hw n).mp (h n hmem)
  · intro h k hk
    have hmul : (k + 1) * w ≤ (n + 1) * w := Nat.mul_le_mul_right w (Nat.succ_le_succ (hle k hk))
    exact (word_in_buffer hw k).mpr (Nat.le_trans hmul h)

/-- One place more in front: the places stay up to the last one and reach it. -/
theorem reaches_cons {k n : Nat} {ks : List Nat} (hk : k ≤ n)
    (h : (∀ x ∈ ks, x ≤ n) ∧ n ∈ ks) : (∀ x ∈ [k] ++ ks, x ≤ n) ∧ n ∈ [k] ++ ks := by
  obtain ⟨hall, hmem⟩ := h
  refine ⟨fun x hx => ?_, List.mem_append_right _ hmem⟩
  rcases List.mem_append.mp hx with hx | hx
  · rw [List.mem_singleton.mp hx]
    exact hk
  · exact hall x hx

/-! ## Write bursts -/

namespace Axi4SW

/-- The place in the buffers that a beat of this cycle is stored at. -/
def storeBeats (s : State p) (i : Input p) : List Nat :=
  if s.rWriteState = .data ∧ i.iSWvalid = true then [s.rLenCnt.toNat] else []

/-- No index leaves its array while the burst passes `axi4_s_w`, `C_req_write` and the handler. -/
structure WriteBounds (s : State p) (cycles : List (Input p)) (stack : ACCData) : Prop where
  /-- `n_strb_tmp[r_len_cnt]` and `n_data_tmp[(r_len_cnt*STBW)+j]`. -/
  stored : ∀ k ∈ events storeBeats (traceOf step s cycles),
    k < p.nstb ∧ ∀ j < p.stbw, k * p.stbw + j < buffSize
  /-- `strb[i]`, `data[(i*BUSW)+j]` and `acc.data[k]`; and `data_size` for the handler. -/
  packed : ∀ c ∈ events cReq (traceOf step s cycles), ∃ f,
    cReqWrite p.stbw stack c.addr c.width.toNat c.len.toNat c.data c.strb = some f ∧
      f.dataSize.toNat ≤ buffSize

/-- The places at which the beats of a burst are stored, from the one the module waits for on. -/
theorem storeBeats_of_feeds {b : Burst p} :
    ∀ (ws : List (Input p)) (c : Nat) (s : State p), Collecting b c s → b.Feeds c ws →
      (∀ k ∈ events storeBeats (traceOf step s ws), k ≤ b.len.toNat) ∧
        b.len.toNat ∈ events storeBeats (traceOf step s ws)
  | [], _, _, _, hf => absurd hf (by simp [Burst.Feeds])
  | i :: ws, c, s, hc, hf => by
    obtain ⟨hr, hrest⟩ := hf
    have hle := hc.cnt_le
    rw [traceOf, events_cons]
    cases hv : i.iSWvalid with
    | false =>
      -- a gap: no beat, no store
      rw [if_neg (by simp [hv])] at hrest
      have hstep : step s i = s := by simp [step, hr, comboWrite, hc.state, hv]
      have hnone : storeBeats s i = [] := if_neg (by simp [hv])
      rw [hstep, hnone, List.nil_append]
      exact storeBeats_of_feeds ws c s hc hrest
    | true =>
      rw [if_pos hv] at hrest
      obtain ⟨_, _, hnext⟩ := hrest
      have hone : storeBeats s i = [c] := by
        rw [storeBeats, if_pos ⟨hc.state, hv⟩, hc.cnt]
      rw [hone]
      by_cases hlast : c = b.len.toNat
      · rw [if_pos hlast] at hnext
        rw [hnext, ← hlast]
        exact ⟨by simp [traceOf], by simp⟩
      · rw [if_neg hlast] at hnext
        have hne : s.rLenCnt ≠ s.rLen := fun he => hlast (hc.cnt_eq_iff.mp he)
        have hstep : step s i = { s with
            rDataTmp := s.rDataTmp.copyIn (s.rLenCnt.toNat * p.stbw) i.iSWdata.lane p.stbw
            rStrbTmp := setStrb s.rStrbTmp s.rLenCnt.toNat i.iSWstrb
            rLenCnt := s.rLenCnt + 1 } := by
          simp [step, hr, comboWrite, hc.state, hv, hne]
        have hcollect : Collecting b (c + 1) (step s i) := by
          rw [hstep]
          exact hc.succ hlast _ _
        exact reaches_cons hle (storeBeats_of_feeds ws (c + 1) (step s i) hcollect hnext)

/-- **When a write burst stays in the buffers.** -/
theorem writeBounds_iff {b : Burst p} (hleg : AxiLegal p b.geom) {s : State p} {aw : Input p}
    {ws : List (Input p)} (hs : s.rWriteState = .idle) (haw : b.OnAw aw) (hws : b.Feeds 0 ws)
    (stack : ACCData) :
    WriteBounds s (aw :: ws) stack ↔ (b.len.toNat + 1) * p.stbw ≤ buffSize := by
  obtain ⟨hcollecting, hholds, hnocall⟩ := step_onAw hs haw
  obtain ⟨hall, hmem⟩ := storeBeats_of_feeds ws 0 _ hcollecting hws
  have hfirst : storeBeats s aw = [] := if_neg (by simp [hs])
  have hbeats : events storeBeats (traceOf step s (aw :: ws))
      = events storeBeats (traceOf step (step s aw) ws) := by
    rw [traceOf, events_cons, hfirst, List.nil_append]
  have hcalls : events cReq (traceOf step s (aw :: ws))
      = events cReq (traceOf step (step s aw) ws) := by
    rw [traceOf, events_cons, hnocall, List.nil_append]
  constructor
  · rintro ⟨hstored, _⟩
    rw [hbeats] at hstored
    exact (words_in_buffer p.stbw_pos hall hmem).mp fun k hk => (hstored k hk).2
  · intro hfit
    have hnstb : b.len.toNat < p.nstb := (p.le_nstb_iff _).mpr hfit
    refine ⟨fun k hk => ?_, fun c hc => ?_⟩
    · rw [hbeats] at hk
      have hle := hall k hk
      exact ⟨by omega, (words_in_buffer p.stbw_pos hall hmem).mpr hfit k hk⟩
    · obtain ⟨call, hcall, _, hwidth, hlen, _⟩ := call_of_feeds hfit ws 0 _ hcollecting hholds hws
      rw [hcalls, hcall, List.mem_singleton] at hc
      subst hc
      obtain ⟨d, hd, _⟩ := cReqWrite_spec stack c.addr c.width.toNat c.len.toNat c.data c.strb
        (by rw [hlen]; exact hnstb) (by rw [hlen]; exact hfit)
      refine ⟨_, hd, ?_⟩
      have htotal : (c.len.toNat + 1) * 2 ^ c.width.toNat ≤ buffSize := by
        rw [hlen, hwidth]
        exact hleg.total_le
      show (burstSize c.width.toNat c.len.toNat).toNat ≤ buffSize
      rw [burstSize_toNat htotal]
      exact htotal

end Axi4SW

/-! ## Read bursts -/

namespace Axi4SR

/-- The place in the buffer that a beat of this cycle is loaded from. -/
def loadBeats (s : State p) (i : Input p) : List Nat :=
  if s.rReadState = .response ∧ i.iSRready = true then [s.rLenCnt.toNat] else []

/-- Over the cycles `is` the beats `k .. len` are loaded, the last one in the last cycle. -/
def Loads (len k : Nat) : List (Input p) → Prop
  | [] => False
  | i :: is => i.iRstN = true ∧
      if i.iSRready then (if k = len then is = [] else Loads len (k + 1) is) else Loads len k is

/-- One beat a cycle, when the master stays ready. -/
theorem loads_replicate {i : Input p} (hr : i.iRstN = true) (hready : i.iSRready = true) :
    ∀ (n : Nat) {k : Nat}, Loads (k + n) k (List.replicate (n + 1) i)
  | 0, k => ⟨hr, by simp [hready]⟩
  | n + 1, k => by
    refine ⟨hr, ?_⟩
    rw [if_pos hready, if_neg (by omega), show k + (n + 1) = k + 1 + n by omega]
    exact loads_replicate hr hready n

/-- The cycles of a burst: its address, the wait for the response, its pulse, and the loads. -/
structure ReqReadCall.Loaded (c : ReqReadCall p) (ar : Input p) (waits : List (Input p))
    (pulse : Input p) (loads : List (Input p)) : Prop where
  onAr : c.OnAr ar
  waits : ∀ i ∈ waits, i.iRstN = true ∧ i.reqValid = false
  pulse : pulse.iRstN = true ∧ pulse.reqValid = true
  loads : Loads c.len.toNat 0 loads

/-- No index leaves its array while the burst passes the handler, `C_poll` and `axi4_s_r`. -/
structure ReadBounds (c : ReqReadCall p) (s : State p) (cycles : List (Input p)) (stack : ACCData)
    (conf : ACCConf) (v : PollVars) (mem : Mem) : Prop where
  /-- `data_size` in the handler, and `align_offset + size` in `C_poll`. -/
  placed : ∃ v', readResponse c stack conf v mem = some v'
  /-- `r_data[(STBW*r_len_cnt)+i]`. -/
  loaded : ∀ k ∈ events loadBeats (traceOf step s cycles), ∀ l < p.stbw, p.stbw * k + l < buffSize

/-- The response is placed when it fits behind the lanes below the start address. -/
theorem readResponse_isSome_iff {c : ReqReadCall p} (htotal : c.total ≤ buffSize) (stack : ACCData)
    (conf : ACCConf) (v : PollVars) (mem : Mem) :
    (∃ v', readResponse c stack conf v mem = some v') ↔
      c.addr.toNat % p.stbw + c.total ≤ buffSize := by
  have hsize : (burstSize c.width.toNat c.len.toNat).toNat = c.total := burstSize_toNat htotal
  have hresp : readResponse c stack conf v mem
      = (v.data.memcpy? (c.addr.toNat % p.stbw)
          (stack.data.copyIn 0 (fun k => mem (c.addr.toNat + k)) c.total) 0 c.total).map
        fun d => { v with reqType := .sRd, data := d } := by
    unfold readResponse
    simp only [handleHdlRequest_cons]
    rw [serveFrame_read rfl (by simp only [cReqRead, hsize]; exact htotal)]
    simp only [Option.bind_some, handleHdlRequest_nil, Host.apply, List.nil_append, cReqRead, cPoll,
      cPollHdlResp, hsize, Option.map_map]
    rfl
  rw [hresp]
  unfold Buf.memcpy?
  constructor
  · rintro ⟨v', hv'⟩
    by_contra hnot
    rw [if_neg fun h => hnot h.1] at hv'
    exact absurd hv' (by simp)
  · intro hle
    rw [if_pos ⟨hle, by omega⟩]
    exact ⟨_, rfl⟩

/-- The places from which the beats of a burst are loaded. -/
theorem loadBeats_of_loads {len : Nat} :
    ∀ (is : List (Input p)) (k : Nat) (s : State p), s.rReadState = .response →
      s.rLen.toNat = len → s.rLenCnt.toNat = k → k ≤ len → Loads len k is →
      (∀ x ∈ events loadBeats (traceOf step s is), x ≤ len) ∧
        len ∈ events loadBeats (traceOf step s is)
  | [], _, _, _, _, _, _, hl => absurd hl (by simp [Loads])
  | i :: is, k, s, hs, hlen, hcnt, hle, hl => by
    obtain ⟨hr, hrest⟩ := hl
    rw [traceOf, events_cons]
    cases hready : i.iSRready with
    | false =>
      rw [if_neg (by simp [hready])] at hrest
      have hstep : step s i = s := by simp [step, hr, comboRead, hs, hready]
      have hnone : loadBeats s i = [] := if_neg (by simp [hready])
      rw [hstep, hnone, List.nil_append]
      exact loadBeats_of_loads is k s hs hlen hcnt hle hrest
    | true =>
      rw [if_pos hready] at hrest
      have hone : loadBeats s i = [k] := by rw [loadBeats, if_pos ⟨hs, hready⟩, hcnt]
      rw [hone]
      by_cases hlast : k = len
      · rw [if_pos hlast] at hrest
        rw [hrest, ← hlast]
        exact ⟨by simp [traceOf], by simp⟩
      · rw [if_neg hlast] at hrest
        have hne : s.rLenCnt ≠ s.rLen := by
          intro he
          rw [he, hlen] at hcnt
          exact hlast hcnt.symm
        obtain ⟨hs', hlen', hcnt'⟩ := (step_load hr hs hready).2 hne
        obtain ⟨hsucc, _⟩ := toNat_succ_of_ne (by omega) hne
        exact reaches_cons hle (loadBeats_of_loads is (k + 1) (step s i) hs' (by rw [hlen', hlen])
          (by rw [hcnt', hsucc, hcnt]) (by omega) hrest)

/-- While the module waits for the response nothing is loaded. -/
theorem loadBeats_of_waits {s : State p} (hs : s.rReadState = .data) :
    ∀ {waits : List (Input p)}, (∀ i ∈ waits, i.iRstN = true ∧ i.reqValid = false) →
      events loadBeats (traceOf step s waits) = [] ∧ waits.foldl step s = s
  | [], _ => ⟨rfl, rfl⟩
  | i :: waits, h => by
    obtain ⟨hr, hq⟩ := h i List.mem_cons_self
    obtain ⟨hnone, hend⟩ := loadBeats_of_waits hs fun j hj => h j (List.mem_cons_of_mem _ hj)
    have hstep := step_wait hr hs hq
    have hfirst : loadBeats s i = [] := if_neg (by simp [hs])
    rw [traceOf, events_cons, List.foldl_cons, hstep, hfirst]
    exact ⟨hnone, hend⟩

/-- The places from which the beats of a burst are loaded, over all its cycles. -/
theorem loadBeats_of_loaded {c : ReqReadCall p} {s : State p} {ar pulse : Input p}
    {waits loads : List (Input p)} (hw : Wf s) (hs : s.rReadState = .idle)
    (h : c.Loaded ar waits pulse loads) :
    (∀ k ∈ events loadBeats (traceOf step s (ar :: waits ++ pulse :: loads)), k ≤ c.len.toNat) ∧
      c.len.toNat ∈ events loadBeats (traceOf step s (ar :: waits ++ pulse :: loads)) := by
  obtain ⟨hr, hv, _, _, _, hlen⟩ := h.onAr
  obtain ⟨_, hdata, _, hrlen⟩ := step_ar hr hw ⟨hv, hw.arready.mpr hs⟩
  have hwd := Wf.of_step (i := ar) hr hw
  obtain ⟨hnone, hend⟩ := loadBeats_of_waits hdata h.waits
  obtain ⟨hresp, hplen, hpcnt⟩ := step_pulse h.pulse.1 hwd hdata h.pulse.2
  have hfirst : loadBeats s ar = [] := if_neg (by simp [hs])
  have hpulse : loadBeats (step s ar) pulse = [] := if_neg (by simp [hdata])
  have hbeats : events loadBeats (traceOf step s (ar :: waits ++ pulse :: loads))
      = events loadBeats (traceOf step (step (step s ar) pulse) loads) := by
    rw [List.cons_append, traceOf, events_cons, hfirst, traceOf_append, events_append, hnone, hend,
      traceOf, events_cons, hpulse]
    rfl
  rw [hbeats]
  exact loadBeats_of_loads loads 0 _ hresp (by rw [hplen, hrlen, hlen]) hpcnt (Nat.zero_le _)
    h.loads

/-- **When a read burst stays in the buffers.** -/
theorem readBounds_iff {c : ReqReadCall p} (hleg : AxiLegal p c.geom) {s : State p}
    {ar pulse : Input p} {waits loads : List (Input p)} (hw : Wf s) (hs : s.rReadState = .idle)
    (h : c.Loaded ar waits pulse loads) (stack : ACCData) (conf : ACCConf) (v : PollVars)
    (mem : Mem) :
    ReadBounds c s (ar :: waits ++ pulse :: loads) stack conf v mem ↔
      (c.len.toNat + 1) * p.stbw ≤ buffSize ∧
        c.addr.toNat % p.stbw + c.total ≤ buffSize := by
  obtain ⟨hall, hmem⟩ := loadBeats_of_loaded hw hs h
  have hwords := words_in_buffer p.stbw_pos hall hmem
  have hplaced := readResponse_isSome_iff (c := c) hleg.total_le stack conf v mem
  constructor
  · rintro ⟨hresp, hloaded⟩
    refine ⟨hwords.mp fun k hk j hj => ?_, hplaced.mp hresp⟩
    rw [Nat.mul_comm]
    exact hloaded k hk j hj
  · rintro ⟨hfit, hle⟩
    refine ⟨hplaced.mpr hle, fun k hk l hl => ?_⟩
    rw [Nat.mul_comm]
    exact hwords.mpr hfit k hk l hl

end Axi4SR

/-! ## Both directions -/

/--
**When the DMA bursts stay in the buffers.** A write burst and a read burst that AXI allows, each
offered to an idle slave and served to its end, with any gaps: no index leaves its array if and
only if the beats of both, taken as bus words, fit a buffer, and the bytes of the read fit one
behind the lanes below its start address. The bytes of a burst by themselves always do.
-/
theorem dmaBounds_iff {b : Axi4SW.Burst p} (hb : AxiLegal p b.geom) {sw : Axi4SW.State p}
    {aw : Axi4SW.Input p} {ws : List (Axi4SW.Input p)} (hsw : sw.rWriteState = .idle)
    (haw : b.OnAw aw) (hws : b.Feeds 0 ws) {c : Axi4SR.ReqReadCall p} (hc : AxiLegal p c.geom)
    {sr : Axi4SR.State p} {ar pulse : Axi4SR.Input p} {waits loads : List (Axi4SR.Input p)}
    (hwf : Axi4SR.Wf sr) (hsr : sr.rReadState = .idle) (hloaded : c.Loaded ar waits pulse loads)
    (stack : ACCData) (conf : ACCConf) (v : PollVars) (mem : Mem) :
    ((Axi4SW.WriteBounds sw (aw :: ws) stack ∧
        Axi4SR.ReadBounds c sr (ar :: waits ++ pulse :: loads) stack conf v mem) ↔
      (b.len.toNat + 1) * p.stbw ≤ buffSize ∧ (c.len.toNat + 1) * p.stbw ≤ buffSize ∧
        c.addr.toNat % p.stbw + c.total ≤ buffSize) ∧
      b.total ≤ buffSize ∧ c.total ≤ buffSize := by
  rw [Axi4SW.writeBounds_iff hb hsw haw hws stack,
    Axi4SR.readBounds_iff hc hwf hsr hloaded stack conf v mem]
  exact ⟨Iff.rfl, hb.total_le, hc.total_le⟩

/-- Four words to `0x1000`. -/
def fourWords : Axi4SW.Burst bus64 where
  id := 1
  addr := 0x1000
  size := 3
  len := 3
  data := fun i _ => BitVec.ofNat 8 i
  strb := fun _ => 0xFF

/-- A cycle that offers their address and the word `i`. -/
def fourWordsCycle (i : Nat) : Axi4SW.Input bus64 :=
  { wordBurstAw 0xFF with iSAwlen := 3, iSWdata := fourWords.data i }

/-- They fit, and so do two words read from there. -/
theorem dmaBounds_fourWords :
    Axi4SW.WriteBounds Axi4SW.reset (fourWordsCycle 0 :: (List.range 4).map fourWordsCycle)
        ACCData.zero ∧
      Axi4SR.ReadBounds (readBurst 3 1) Axi4SR.reset
        (readBurstCycle 3 1 :: [] ++ { readBurstCycle 3 1 with reqValid := true } ::
          List.replicate 2 (readBurstCycle 3 1))
        ACCData.zero defaultConf PollVars.zero (fun _ => 0) := by
  have honAw : fourWords.OnAw (fourWordsCycle 0) := ⟨rfl, rfl, rfl, rfl, rfl, rfl⟩
  have hfeeds : fourWords.Feeds 0 ((List.range 4).map fourWordsCycle) :=
    ⟨rfl, rfl, rfl, rfl, rfl, rfl, rfl, rfl, rfl, rfl, rfl, rfl, rfl⟩
  have hloaded : (readBurst 3 1).Loaded (readBurstCycle 3 1) []
      { readBurstCycle 3 1 with reqValid := true } (List.replicate 2 (readBurstCycle 3 1)) :=
    ⟨⟨rfl, rfl, rfl, rfl, rfl, rfl⟩, by simp, ⟨rfl, rfl⟩, Axi4SR.loads_replicate rfl rfl 1 (k := 0)⟩
  exact (dmaBounds_iff ⟨by decide, by decide⟩ rfl honAw hfeeds ⟨by decide, by decide⟩
    Axi4SR.wf_reset rfl hloaded ACCData.zero defaultConf PollVars.zero fun _ => 0).1.mpr
    ⟨by decide, by decide, by decide⟩

/-- A 128-bit bus. -/
def bus128 : BusParams := ⟨3, 4, by decide⟩

/-- A burst over a whole page, from an odd address: 256 beats of 16 bytes. -/
def pageBurst : Axi4SR.ReqReadCall bus128 where
  addr := 0x1001
  width := 4
  len := 255
  id := 0

/-- A cycle that offers it, with `rready` high; and the pulse of its response. -/
def pageBurstCycle (pulse : Bool) : Axi4SR.Input bus128 where
  iRstN := true
  reqData := fun _ => 0
  reqValid := pulse
  iSArid := 0
  iSAraddr := 0x1001
  iSArlen := 255
  iSArsize := 4
  iSArvalid := true
  iSRready := true

/--
AXI allows a burst from `0x1001` to the end of its page, and its beats are full words. But the
handler and `C_poll` take its size as 4096, and `C_poll` copies them from place 1 on.
-/
theorem not_readBounds_page :
    AxiLegal bus128 pageBurst.geom ∧
      pageBurst.Loaded (pageBurstCycle false) [] (pageBurstCycle true)
        (List.replicate 256 (pageBurstCycle false)) ∧
      ¬Axi4SR.ReadBounds pageBurst Axi4SR.reset
        (pageBurstCycle false :: pageBurstCycle true :: List.replicate 256 (pageBurstCycle false))
        ACCData.zero defaultConf PollVars.zero (fun _ => 0) := by
  have hlegal : AxiLegal bus128 pageBurst.geom := ⟨by decide, by decide⟩
  have hloaded : pageBurst.Loaded (pageBurstCycle false) [] (pageBurstCycle true)
      (List.replicate 256 (pageBurstCycle false)) :=
    ⟨⟨rfl, rfl, rfl, rfl, rfl, rfl⟩, by simp, ⟨rfl, rfl⟩,
      Axi4SR.loads_replicate rfl rfl 255 (k := 0)⟩
  refine ⟨hlegal, hloaded, ?_⟩
  rintro ⟨hplaced, _⟩
  have hle := (Axi4SR.readResponse_isSome_iff hlegal.total_le _ _ _ _).mp hplaced
  exact absurd hle (by decide)

end QemuHdlSim
