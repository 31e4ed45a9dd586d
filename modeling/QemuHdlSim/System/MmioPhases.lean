import QemuHdlSim.System.MmioLoop

/-!
# The phases of an access in the closed loop

Between accesses the loop is `Quiet`. An access takes it through

* a read: `Quiet` — `ReadPolled` — `ArShown` — `ArTaken` — `Quiet`
* a write: `Quiet` — `WritePolled` — `AwShown` — `WShown` — `WTaken` — `Quiet`

A phase says what the next edge depends on, and nothing about what is left over from before:
the other registers of the masters, the variables of `axi4_ip`, the DMA side. One lemma for each
edge; `read_leads` and `write_leads` put them together.
-/

namespace QemuHdlSim

open Infra Axi4Ip

variable {p : BusParams}

/-! ## The masters -/

/-- The read master has nothing to do. -/
structure MrQuiet (s : Axi4MR.State) : Prop where
  state : s.rReadState = .idle
  ar : s.rMArvalid = false

/-- The read master waits for one bus word at `x`; `ar`: it still shows the address. -/
structure MrWaits (x : BitVec 64) (ar : Bool) (s : Axi4MR.State) : Prop where
  state : s.rReadState = .data
  ar : s.rMArvalid = ar
  ready : s.rMRready = true
  addr : s.rAddr = x
  len : s.rLen = 0
  cnt : s.rLenCnt = 0

theorem MrQuiet.step {s : Axi4MR.State} {i : Axi4MR.Input p} (h : MrQuiet s)
    (hq : i.reqValid = false) : MrQuiet (Axi4MR.step s i) := by
  unfold Axi4MR.step
  split
  · have hs : Axi4MR.comboRead s i = s := by simp [Axi4MR.comboRead, h.state, hq]
    rw [hs]
    exact h
  · exact ⟨rfl, rfl⟩

/-- The master takes a request for one beat. -/
theorem MrQuiet.accept {s : Axi4MR.State} {i : Axi4MR.Input p} (h : MrQuiet s)
    (hr : i.iRstN = true) (hq : i.reqValid = true) (hlen : i.reqLen = 0) :
    MrWaits i.reqAddr true (Axi4MR.step s i) := by
  simp only [Axi4MR.step, hr, Axi4MR.comboRead, h.state, hq, if_true]
  exact ⟨rfl, rfl, rfl, rfl, hlen, rfl⟩

theorem MrWaits.step {x : BitVec 64} {ar : Bool} {s : Axi4MR.State} {i : Axi4MR.Input p}
    (h : MrWaits x ar s) (hr : i.iRstN = true) (har : i.iMArready = true)
    (hv : i.iMRvalid = false) : MrWaits x false (Axi4MR.step s i) := by
  obtain ⟨hst, _, hready, haddr, hlen, hcnt⟩ := h
  simp only [Axi4MR.step, hr, Axi4MR.comboRead, hst, har, hv, if_true, Bool.false_eq_true,
    if_false]
  exact ⟨rfl, rfl, hready, haddr, hlen, hcnt⟩

/-- The word arrives. -/
theorem MrWaits.finish {x : BitVec 64} {ar : Bool} {s : Axi4MR.State} {i : Axi4MR.Input p}
    (h : MrWaits x ar s) (har : i.iMArready = true) (hf : Axi4MR.Finishes s i) :
    MrQuiet (Axi4MR.step s i) := by
  obtain ⟨_, hl, hv⟩ := hf
  unfold Axi4MR.step
  split
  · simp only [Axi4MR.comboRead, h.state, har, hv, hl, if_true]
    exact ⟨rfl, rfl⟩
  · exact ⟨rfl, rfl⟩

/-- The write master has nothing to do. -/
structure MwQuiet (s : Axi4MW.State p) : Prop where
  state : s.rWriteState = .idle
  aw : s.rMAwvalid = false
  w : s.rMWvalid = false

/-- The write master shows the address `x` of one beat and is about to load the beat. -/
structure MwLoads (x : BitVec 64) (data : Nat → Byte) (strb : BitVec p.stbw)
    (s : Axi4MW.State p) : Prop where
  state : s.rWriteState = .data
  aw : s.rMAwvalid = true
  w : s.rMWvalid = false
  addr : s.rAddr = x
  len : s.rLen = 0
  cnt : s.rLenCnt = 0
  data : ∀ l < p.stbw, s.rData.get l = data l
  strb : s.rStrb = strb

/-- The write master shows its last beat. -/
structure MwShows (data : Nat → Byte) (strb : BitVec p.stbw) (s : Axi4MW.State p) : Prop where
  state : s.rWriteState = .response
  aw : s.rMAwvalid = false
  w : s.rMWvalid = true
  wdata : ∀ l < p.stbw, s.rMWdata.lane l = data l
  wstrb : s.rMWstrb = strb
  last : s.rMLast = true

/-- The write master waits for the response. -/
structure MwWaits (s : Axi4MW.State p) : Prop where
  state : s.rWriteState = .response
  aw : s.rMAwvalid = false
  w : s.rMWvalid = false

theorem MwQuiet.step {s : Axi4MW.State p} {i : Axi4MW.Input p} (h : MwQuiet s)
    (hq : i.reqValid = false) : MwQuiet (Axi4MW.step s i) := by
  unfold Axi4MW.step
  split
  · have hs : Axi4MW.comboWrite s i = s := by simp [Axi4MW.comboWrite, h.state, hq]
    rw [hs]
    exact h
  · exact ⟨rfl, rfl, rfl⟩

/-- The master takes a request for one beat. -/
theorem MwQuiet.accept {s : Axi4MW.State p} {i : Axi4MW.Input p} (h : MwQuiet s)
    (hr : i.iRstN = true) (hq : i.reqValid = true) (hlen : i.reqLen = 0) :
    MwLoads i.reqAddr i.reqData.get i.reqStrb (Axi4MW.step s i) := by
  simp only [Axi4MW.step, hr, Axi4MW.comboWrite, h.state, hq, if_true]
  exact ⟨rfl, rfl, h.w, rfl, hlen, rfl, fun _ _ => rfl, rfl⟩

theorem MwLoads.step {x : BitVec 64} {data : Nat → Byte} {strb : BitVec p.stbw}
    {s : Axi4MW.State p} {i : Axi4MW.Input p} (h : MwLoads x data strb s) (hr : i.iRstN = true)
    (haw : i.iMAwready = true) (hw : i.iMWready = true) :
    MwShows data strb (Axi4MW.step s i) := by
  obtain ⟨hst, _, _, _, hlen, hcnt, hdata, hstrb⟩ := h
  simp only [Axi4MW.step, hr, Axi4MW.comboWrite, hst, haw, hw, hlen, hcnt, if_true]
  refine ⟨rfl, rfl, rfl, ?_, hstrb, rfl⟩
  intro l hl
  refine (BusWord.lane_mk (fun l => s.rData.get (p.stbw * 0 + l)) hl).trans ?_
  show s.rData.get (p.stbw * 0 + l) = _
  rw [Nat.mul_zero, Nat.zero_add, hdata l hl]

theorem mwWaits_of_response {s : Axi4MW.State p} {i : Axi4MW.Input p}
    (hst : s.rWriteState = .response) (haw : s.rMAwvalid = false) (hr : i.iRstN = true)
    (hb : i.iMBvalid = false) : MwWaits (Axi4MW.step s i) := by
  simp only [Axi4MW.step, hr, Axi4MW.comboWrite, hst, hb, if_true, Bool.false_eq_true, if_false]
  exact ⟨rfl, haw, rfl⟩

/-- The response arrives. -/
theorem MwWaits.finish {s : Axi4MW.State p} {i : Axi4MW.Input p} (h : MwWaits s)
    (hb : i.iMBvalid = true) : MwQuiet (Axi4MW.step s i) := by
  unfold Axi4MW.step
  split
  · simp only [Axi4MW.comboWrite, h.state, hb, if_true]
    exact ⟨rfl, h.aw, rfl⟩
  · exact ⟨rfl, rfl, rfl⟩

/-! ## Phases -/

namespace Loop

/--
The loop after at least `n` edges, with what the next edge depends on: the two request pulses,
the masters, the RAM and the queues. From `n = 100` on the reset is over.
-/
structure Phase (n : Nat) (rd wr : Bool) (A : Axi4MR.State → Prop) (B : Axi4MW.State p → Prop)
    (ram : Ram) (req resp : List ACCData) (l : Loop p) : Prop where
  edges : n ≤ l.ip.edges
  reqMR : l.ip.reqMRvalid = rd
  reqMW : l.ip.reqMWvalid = wr
  mr : A l.ip.mr
  mw : B l.ip.mw
  ram : l.ram = ram
  req : l.qemuReq = req
  resp : l.qemuResp = resp

/-- Nothing is on its way; the memory is `m`. -/
def Quiet (n : Nat) (m : Mem) (req resp : List ACCData) : Loop p → Prop :=
  Phase n false false MrQuiet MwQuiet (Ram.idle m) req resp

theorem quiet_init (m : Mem) : Quiet 0 m [] [] (⟨init, Ram.idle m, [], []⟩ : Loop p) :=
  ⟨Nat.zero_le _, rfl, rfl, ⟨rfl, rfl⟩, ⟨rfl, rfl, rfl⟩, rfl, rfl, rfl⟩

/-- **One edge of a phase** that does not poll the request. -/
theorem Phase.edge {conf : ACCConf} {n n' : Nat} {rd wr : Bool} {A A' : Axi4MR.State → Prop}
    {B B' : Axi4MW.State p → Prop} {ram ram' : Ram} {req resp : List ACCData} {l : Loop p}
    {e : Env p} {fs : List ACCData} (h : Phase n rd wr A B ram req resp l) (hn : n' ≤ n + 1)
    (hfits : e.other.Fits p.stbw) (hpoll : req = [] ∨ e.pollsRequest = false)
    (hfs : l.frames e = some fs)
    (hA : A' (Axi4MR.step l.ip.mr (mrInput l.ip (l.input e))))
    (hB : B' (Axi4MW.step l.ip.mw (mwInput l.ip (l.input e))))
    (hram : l.ram.step e.respond l.ip.mr l.ip.mw = ram') :
    ∃ l', l.edge conf e = some l' ∧
      Phase n' false false A' B' ram' req (resp ++ fs) l' := by
  obtain ⟨v, hrd, hwr, hedge⟩ := edge_of_not_polled conf hfits (h.req ▸ hpoll) hfs
  refine ⟨_, hedge, Nat.le_trans hn (Nat.succ_le_succ h.edges), ?_, ?_, hA, hB, hram, h.req, ?_⟩
  · exact decide_eq_false hrd
  · exact decide_eq_false hwr
  · show l.qemuResp ++ _ = _
    rw [h.resp]

section Edges

variable {conf : ACCConf} {m : Mem} {x : BitVec 64} {e : Env p}

/-- A quiet loop asks nothing of the memory. -/
theorem Quiet.memory {n : Nat} {req resp : List ACCData} {l : Loop p} (h : Quiet n m req resp l)
    (e : Env p) : l.frames e = some [] ∧ l.ram.step e.respond l.ip.mr l.ip.mw = Ram.idle m := by
  refine ⟨frames_nil (by rw [h.ram]; rfl) (by rw [h.ram]; rfl), ?_⟩
  simp [h.ram, Ram.idle, Ram.step, Ram.sendB, Ram.sendR, Ram.takeAr, Ram.takeAw, Ram.takeW,
    h.mr.ar, h.mw.aw]

theorem quiet_edge {n n' : Nat} {req resp : List ACCData} (hn : n' ≤ n + 1)
    (hfits : e.other.Fits p.stbw) (hpoll : req = [] ∨ e.pollsRequest = false) :
    Leads (edge conf) (Quiet n m req resp) [e] (Quiet n' m req resp) := by
  refine Leads.single fun l h => ?_
  obtain ⟨hfs, hram⟩ := h.memory e
  obtain ⟨l', hedge, h'⟩ := h.edge hn hfits hpoll hfs (h.mr.step h.reqMR) (h.mw.step h.reqMW) hram
  exact ⟨l', hedge, by rwa [List.append_nil] at h'⟩

/-- The edges before the request is polled. -/
theorem quiet_stay {req : List ACCData} {es : List (Env p)}
    (hfits : ∀ e ∈ es, e.other.Fits p.stbw) (hpoll : ∀ e ∈ es, e.pollsRequest = false) :
    Leads (edge conf) (Quiet 100 m req []) es (Quiet 100 m req []) :=
  Leads.stay (W := fun e => e.other.Fits p.stbw ∧ e.pollsRequest = false)
    (fun e he => ⟨hfits e he, hpoll e he⟩)
    (fun _ hW => quiet_edge (Nat.le_succ _) hW.1 (Or.inr hW.2))

/-- The edge on which the request is polled. -/
theorem Quiet.polled {f : ACCData} {v : PollVars} {l : Loop p}
    (h : Quiet 100 m [f] [] l) (hpoll : e.pollsRequest = true)
    (hv : cPollQemuReq p.stbw conf f l.ip.vars = some v) :
    ∃ l', l.edge conf e = some l' ∧ l'.ip.vars = v ∧
      Phase 100 (decide (v.reqType = .mRd)) (decide (v.reqType = .mWr)) MrQuiet MwQuiet
        (Ram.idle m) [] [] l' := by
  obtain ⟨hfs, hram⟩ := h.memory e
  refine ⟨_, edge_of_polled h.req hpoll hv hfs, rfl, Nat.le_succ_of_le h.edges, rfl, rfl,
    h.mr.step h.reqMR, h.mw.step h.reqMW, hram, rfl, ?_⟩
  rw [h.resp]
  rfl

/-! ### A read -/

/-- The request pulse for a read of one bus word at `x` is on. -/
def ReadPolled (m : Mem) (x : BitVec 64) (l : Loop p) : Prop :=
  Phase 100 true false MrQuiet MwQuiet (Ram.idle m) [] [] l ∧
    l.ip.vars.addr = x ∧ l.ip.vars.len = 0

def ArShown (m : Mem) (x : BitVec 64) : Loop p → Prop :=
  Phase 100 false false (MrWaits x true) MwQuiet (Ram.idle m) [] []

def ArTaken (m : Mem) (x : BitVec 64) (l : Loop p) : Prop :=
  ∃ sz, Phase 100 false false (MrWaits x false) MwQuiet
    { Ram.idle m with ar := some (⟨x.toNat, sz, 0⟩, 0) } [] [] l

/-- The read is answered: from the lane of `x` on the frame has the bytes of the bus word. -/
def ReadDone (m : Mem) (x : BitVec 64) (l : Loop p) : Prop :=
  ∃ f, Quiet 100 m [] [f] l ∧
    ∀ k, x.toNat % p.stbw + k < p.stbw → f.data.get k = m (x.toNat + k)

theorem readPolled_edge (hfits : e.other.Fits p.stbw) :
    Leads (edge conf) (ReadPolled m x) [e] (ArShown m x) := by
  refine Leads.single fun l ⟨h, haddr, hlen⟩ => ?_
  have hfs : l.frames e = some [] := frames_nil (by rw [h.ram]; rfl) (by rw [h.ram]; rfl)
  have hlen' : (mrInput l.ip (l.input e)).reqLen = 0 := by
    show l.ip.vars.len.setWidth 8 = 0
    rw [hlen]
    rfl
  have haccept := h.mr.accept (i := mrInput l.ip (l.input e)) (aresetn_eq_true.mpr h.edges) h.reqMR
    hlen'
  have haddr' : (mrInput l.ip (l.input e)).reqAddr = x := haddr
  rw [haddr'] at haccept
  have hram : l.ram.step e.respond l.ip.mr l.ip.mw = Ram.idle m := by
    simp [h.ram, Ram.idle, Ram.step, Ram.sendB, Ram.sendR, Ram.takeAr, Ram.takeAw, Ram.takeW,
      h.mr.ar, h.mw.aw]
  exact h.edge (Nat.le_succ _) hfits (Or.inl rfl) hfs haccept (h.mw.step h.reqMW) hram

theorem arShown_edge (hfits : e.other.Fits p.stbw) :
    Leads (edge conf) (ArShown m x) [e] (ArTaken m x) := by
  refine Leads.single fun l h => ?_
  have hfs : l.frames e = some [] := frames_nil (by rw [h.ram]; rfl) (by rw [h.ram]; rfl)
  have hv : (mrInput l.ip (l.input e)).iMRvalid = false := by
    show (l.ram.ar.isSome && e.respond) = false
    rw [h.ram]
    rfl
  have hram : l.ram.step e.respond l.ip.mr l.ip.mw
      = { Ram.idle m with ar := some (⟨x.toNat, l.ip.mr.rSize.toNat, 0⟩, 0) } := by
    simp [h.ram, Ram.idle, Ram.step, Ram.sendB, Ram.sendR, Ram.takeAr, Ram.takeAw, Ram.takeW,
      h.mr.ar, h.mw.aw, h.mr.addr, h.mr.len]
  obtain ⟨l', hedge, h'⟩ := h.edge (Nat.le_succ _) hfits (Or.inl rfl) hfs
    (h.mr.step (aresetn_eq_true.mpr h.edges) rfl hv) (h.mw.step h.reqMW) hram
  exact ⟨l', hedge, _, h'⟩

theorem arTaken_wait (hfits : e.other.Fits p.stbw) (hresp : e.respond = false) :
    Leads (edge conf) (ArTaken m x) [e] (ArTaken m x) := by
  refine Leads.single fun l ⟨sz, h⟩ => ?_
  have hv : (l.ram.ar.isSome && e.respond) = false := by rw [hresp, Bool.and_false]
  have hfs : l.frames e = some [] := frames_nil hv (by rw [h.ram]; rfl)
  have hram : l.ram.step e.respond l.ip.mr l.ip.mw
      = { Ram.idle m with ar := some (⟨x.toNat, sz, 0⟩, 0) } := by
    simp [h.ram, Ram.idle, Ram.step, Ram.sendB, Ram.sendR, Ram.takeAr, Ram.takeAw, Ram.takeW,
      h.mr.ar, h.mw.aw, hresp]
  obtain ⟨l', hedge, h'⟩ := h.edge (Nat.le_succ _) hfits (Or.inl rfl) hfs
    (h.mr.step (aresetn_eq_true.mpr h.edges) rfl hv) (h.mw.step h.reqMW) hram
  exact ⟨l', hedge, sz, h'⟩

theorem arTaken_respond (hfits : e.other.Fits p.stbw) (hresp : e.respond = true) :
    Leads (edge conf) (ArTaken m x) [e] (ReadDone m x) := by
  refine Leads.single fun l ⟨sz, h⟩ => ?_
  have hf : Axi4MR.Finishes l.ip.mr (mrInput l.ip (l.input e)) := by
    refine ⟨h.mr.state, ?_, ?_⟩
    · show (l.ram.drive e.respond e.dma).iMRlast = true
      rw [h.ram]
      rfl
    · show (l.ram.ar.isSome && e.respond) = true
      rw [h.ram, hresp]
      rfl
  have hfs := frames_read h.edges hf (by rw [h.ram]; rfl)
  have hram : l.ram.step e.respond l.ip.mr l.ip.mw = Ram.idle m := by
    simp [h.ram, Ram.idle, Ram.step, Ram.sendB, Ram.sendR, Ram.takeAr, Ram.takeAw, Ram.takeW,
      h.mr.ar, h.mw.aw, h.mr.ready, hresp]
  obtain ⟨l', hedge, h'⟩ := h.edge (Nat.le_succ _) hfits (Or.inl rfl) hfs (h.mr.finish rfl hf)
    (h.mw.step h.reqMW) hram
  refine ⟨l', hedge, _, h', ?_⟩
  intro k hk
  have hw := p.stbw_le
  have hbuf := buffSize_eq
  -- the lanes of the beat carry the bus word of `x`
  have hlane : (l.input e).iMRdata.lane (x.toNat % p.stbw + k) = m (x.toNat + k) := by
    rw [BusWord.lane, dif_pos hk]
    show (l.ram.drive e.respond e.dma).iMRdata ⟨_, hk⟩ = _
    rw [h.ram]
    show m (x.toNat / p.stbw * p.stbw + (x.toNat % p.stbw + k)) = _
    rw [← Nat.add_assoc, Nat.div_add_mod']
  rw [respReadFrame_get (by rw [h.mr.addr]; omega), h.mr.addr, h.mr.cnt,
    Buf.get_copyIn _ _ _ _ (by simp; omega), if_pos ⟨by simp, by simp; omega⟩]
  simpa using hlane

theorem readDone_edge (hfits : e.other.Fits p.stbw) :
    Leads (edge conf) (ReadDone m x) [e] (ReadDone m x) := by
  rintro l ⟨f, h, hf⟩
  obtain ⟨l', hrun, h'⟩ := quiet_edge (Nat.le_succ _) hfits (Or.inl rfl) l h
  exact ⟨l', hrun, f, h', hf⟩

/-- **From the poll of a read to its answer**: two edges, and then the first one on which the
RAM responds. -/
theorem read_leads {e₁ e₂ : Env p} {es : List (Env p)}
    (hfits : ∀ e ∈ e₁ :: e₂ :: es, e.other.Fits p.stbw) (hresp : ∃ e ∈ es, e.respond = true) :
    Leads (edge conf) (ReadPolled m x) (e₁ :: e₂ :: es) (ReadDone m x) := by
  have h₁ : e₁.other.Fits p.stbw := hfits _ (by simp)
  have h₂ : e₂.other.Fits p.stbw := hfits _ (by simp)
  refine Leads.cons (readPolled_edge h₁) (Leads.cons (arShown_edge h₂) ?_)
  refine Leads.wait (W := fun e => e.other.Fits p.stbw) (fun e he => hfits e (by simp [he])) hresp
    (fun e hW hG => arTaken_wait hW (by simpa using hG)) (fun e hW hG => arTaken_respond hW hG)
    (fun e hW => readDone_edge hW)

/-! ### A write -/

/-- The request pulse for a write of one bus word at `x` is on. -/
def WritePolled (m : Mem) (x : BitVec 64) (data : Buf buffSize) (strb : BitVec p.stbw)
    (l : Loop p) : Prop :=
  Phase 100 false true MrQuiet MwQuiet (Ram.idle m) [] [] l ∧ l.ip.vars.addr = x ∧
    l.ip.vars.len = 0 ∧ l.ip.vars.data = data ∧ l.ip.vars.strb.setWidth p.stbw = strb

def AwShown (m : Mem) (x : BitVec 64) (data : Buf buffSize) (strb : BitVec p.stbw) :
    Loop p → Prop :=
  Phase 100 false false MrQuiet (MwLoads x data.get strb) (Ram.idle m) [] []

def WShown (m : Mem) (x : BitVec 64) (data : Buf buffSize) (strb : BitVec p.stbw) (l : Loop p) :
    Prop :=
  ∃ sz, Phase 100 false false MrQuiet (MwShows data.get strb)
    { Ram.idle m with aw := some (⟨x.toNat, sz, 0⟩, 0) } [] [] l

/-- The memory is `m`, and the response is due. -/
def WTaken (m : Mem) : Loop p → Prop :=
  Phase 100 false false MrQuiet MwWaits { Ram.idle m with bPending := true } [] []

/-- The write is answered. -/
def WriteDone (m : Mem) (l : Loop p) : Prop := ∃ f, Quiet 100 m [] [f] l

/-- The strobed bytes of one bus word at `x`. -/
def storeWord (m : Mem) (x : BitVec 64) (data : Buf buffSize) (strb : BitVec p.stbw) : Mem :=
  fun a => if a / p.stbw = x.toNat / p.stbw ∧ strb.getLsbD (a % p.stbw) = true
    then data.get (a % p.stbw) else m a

theorem writeLanes_eq {data : Buf buffSize} {strb : BitVec p.stbw} {wdata : BusWord p} (sz : Nat)
    (hdata : ∀ l < p.stbw, wdata.lane l = data.get l) :
    Ram.writeLanes m ⟨x.toNat, sz, 0⟩ 0 wdata strb = storeWord m x data strb := by
  funext a
  have hlt : a % p.stbw < p.stbw := Nat.mod_lt _ p.stbw_pos
  have ha := Nat.div_add_mod' a p.stbw
  have hword : (⟨x.toNat, sz, 0⟩ : Axi.Burst).laneAddr p.stbw 0 (a % p.stbw) = a ↔
      a / p.stbw = x.toNat / p.stbw := by
    show x.toNat / p.stbw * p.stbw + a % p.stbw = a ↔ _
    constructor
    · intro h
      exact Nat.eq_of_mul_eq_mul_right p.stbw_pos (by omega)
    · intro h
      rw [← h]
      exact ha
  unfold Ram.writeLanes storeWord
  simp only [hword, hdata _ hlt]

theorem writePolled_edge {data : Buf buffSize} {strb : BitVec p.stbw}
    (hfits : e.other.Fits p.stbw) :
    Leads (edge conf) (WritePolled m x data strb) [e] (AwShown m x data strb) := by
  refine Leads.single fun l ⟨h, haddr, hlen, hdata, hstrb⟩ => ?_
  have hfs : l.frames e = some [] := frames_nil (by rw [h.ram]; rfl) (by rw [h.ram]; rfl)
  have hlen' : (mwInput l.ip (l.input e)).reqLen = 0 := by
    show l.ip.vars.len.setWidth 8 = 0
    rw [hlen]
    rfl
  have haccept := h.mw.accept (i := mwInput l.ip (l.input e)) (aresetn_eq_true.mpr h.edges) h.reqMW
    hlen'
  have haddr' : (mwInput l.ip (l.input e)).reqAddr = x := haddr
  have hdata' : (mwInput l.ip (l.input e)).reqData = data := hdata
  have hstrb' : (mwInput l.ip (l.input e)).reqStrb = strb := hstrb
  rw [haddr', hdata', hstrb'] at haccept
  have hram : l.ram.step e.respond l.ip.mr l.ip.mw = Ram.idle m := by
    simp [h.ram, Ram.idle, Ram.step, Ram.sendB, Ram.sendR, Ram.takeAr, Ram.takeAw, Ram.takeW,
      h.mr.ar, h.mw.aw]
  exact h.edge (Nat.le_succ _) hfits (Or.inl rfl) hfs (h.mr.step h.reqMR) haccept hram

theorem awShown_edge {data : Buf buffSize} {strb : BitVec p.stbw} (hfits : e.other.Fits p.stbw) :
    Leads (edge conf) (AwShown m x data strb) [e] (WShown m x data strb) := by
  refine Leads.single fun l h => ?_
  have hfs : l.frames e = some [] := frames_nil (by rw [h.ram]; rfl) (by rw [h.ram]; rfl)
  have hram : l.ram.step e.respond l.ip.mr l.ip.mw
      = { Ram.idle m with aw := some (⟨x.toNat, l.ip.mw.rSize.toNat, 0⟩, 0) } := by
    simp [h.ram, Ram.idle, Ram.step, Ram.sendB, Ram.sendR, Ram.takeAr, Ram.takeAw, Ram.takeW,
      h.mr.ar, h.mw.aw, h.mw.w, h.mw.addr, h.mw.len]
  obtain ⟨l', hedge, h'⟩ := h.edge (Nat.le_succ _) hfits (Or.inl rfl) hfs (h.mr.step h.reqMR)
    (h.mw.step (aresetn_eq_true.mpr h.edges) rfl rfl) hram
  exact ⟨l', hedge, _, h'⟩

theorem wShown_edge {data : Buf buffSize} {strb : BitVec p.stbw} (hfits : e.other.Fits p.stbw) :
    Leads (edge conf) (WShown m x data strb) [e] (WTaken (storeWord m x data strb)) := by
  refine Leads.single fun l ⟨sz, h⟩ => ?_
  have hfs : l.frames e = some [] := frames_nil (by rw [h.ram]; rfl) (by rw [h.ram]; rfl)
  have hb : (mwInput l.ip (l.input e)).iMBvalid = false := by
    show (l.ram.bPending && e.respond) = false
    rw [h.ram]
    rfl
  have hram : l.ram.step e.respond l.ip.mr l.ip.mw
      = { Ram.idle (storeWord m x data strb) with bPending := true } := by
    rw [← writeLanes_eq sz h.mw.wdata]
    simp [h.ram, Ram.idle, Ram.step, Ram.sendB, Ram.sendR, Ram.takeAr, Ram.takeAw, Ram.takeW,
      h.mr.ar, h.mw.aw, h.mw.w, h.mw.last, h.mw.wstrb]
  exact h.edge (Nat.le_succ _) hfits (Or.inl rfl) hfs (h.mr.step h.reqMR)
    (mwWaits_of_response h.mw.state h.mw.aw (aresetn_eq_true.mpr h.edges) hb) hram

theorem wTaken_wait (hfits : e.other.Fits p.stbw) (hresp : e.respond = false) :
    Leads (edge conf) (WTaken m) [e] (WTaken m) := by
  refine Leads.single fun l h => ?_
  have hb : (l.ram.bPending && e.respond) = false := by rw [hresp, Bool.and_false]
  have hfs : l.frames e = some [] := frames_nil (by rw [h.ram]; rfl) hb
  have hram : l.ram.step e.respond l.ip.mr l.ip.mw = { Ram.idle m with bPending := true } := by
    simp [h.ram, Ram.idle, Ram.step, Ram.sendB, Ram.sendR, Ram.takeAr, Ram.takeAw, Ram.takeW,
      h.mr.ar, h.mw.aw, hresp]
  exact h.edge (Nat.le_succ _) hfits (Or.inl rfl) hfs (h.mr.step h.reqMR)
    (mwWaits_of_response h.mw.state h.mw.aw (aresetn_eq_true.mpr h.edges) hb) hram

theorem wTaken_respond (hfits : e.other.Fits p.stbw) (hresp : e.respond = true) :
    Leads (edge conf) (WTaken m) [e] (WriteDone m) := by
  refine Leads.single fun l h => ?_
  have hb : (l.ram.bPending && e.respond) = true := by
    rw [h.ram, hresp]
    rfl
  have hfs := frames_write (by rw [h.ram]; rfl) hb
  have hram : l.ram.step e.respond l.ip.mr l.ip.mw = Ram.idle m := by
    simp [h.ram, Ram.idle, Ram.step, Ram.sendB, Ram.sendR, Ram.takeAr, Ram.takeAw, Ram.takeW,
      h.mr.ar, h.mw.aw, hresp]
  obtain ⟨l', hedge, h'⟩ := h.edge (Nat.le_succ _) hfits (Or.inl rfl) hfs (h.mr.step h.reqMR)
    (h.mw.finish hb) hram
  exact ⟨l', hedge, _, h'⟩

theorem writeDone_edge (hfits : e.other.Fits p.stbw) :
    Leads (edge conf) (WriteDone m) [e] (WriteDone m) := by
  rintro l ⟨f, h⟩
  obtain ⟨l', hrun, h'⟩ := quiet_edge (Nat.le_succ _) hfits (Or.inl rfl) l h
  exact ⟨l', hrun, f, h'⟩

/-- **From the poll of a write to its answer**: three edges, and then the first one on which the
RAM responds. -/
theorem write_leads {data : Buf buffSize} {strb : BitVec p.stbw} {e₁ e₂ e₃ : Env p}
    {es : List (Env p)} (hfits : ∀ e ∈ e₁ :: e₂ :: e₃ :: es, e.other.Fits p.stbw)
    (hresp : ∃ e ∈ es, e.respond = true) :
    Leads (edge conf) (WritePolled m x data strb) (e₁ :: e₂ :: e₃ :: es)
      (WriteDone (storeWord m x data strb)) := by
  have h₁ : e₁.other.Fits p.stbw := hfits _ (by simp)
  have h₂ : e₂.other.Fits p.stbw := hfits _ (by simp)
  have h₃ : e₃.other.Fits p.stbw := hfits _ (by simp)
  refine Leads.cons (writePolled_edge h₁) (Leads.cons (awShown_edge h₂)
    (Leads.cons (wShown_edge h₃) ?_))
  refine Leads.wait (W := fun e => e.other.Fits p.stbw) (fun e he => hfits e (by simp [he])) hresp
    (fun e hW hG => wTaken_wait hW (by simpa using hG)) (fun e hW hG => wTaken_respond hW hG)
    (fun e hW => writeDone_edge hW)

end Edges

end Loop

end QemuHdlSim
