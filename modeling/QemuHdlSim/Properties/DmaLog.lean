import QemuHdlSim.Properties.DmaPairing
import QemuHdlSim.Properties.DmaWrite
import QemuHdlSim.Properties.SlaveWriteProtocol

/-!
# What the HDL side asks of the guest memory

`DmaOp` is what a DMA master means: bursts that write bytes, bursts that read them, interrupts.
`DmaOp.Means` is its meaning for a byte memory, without frames, buffers or sockets. `dmaLog` reads
the operations of a run off the handshakes on the AXI channels: a write burst is an AW handshake
and the next `awlen + 1` W handshakes.

* `watch_step` — the write slave calls `C_req_write` for just these bursts
* `implements_run` — the requests of a run are frames for its operations, in the same order
-/

namespace QemuHdlSim.Cosim

open Infra Axi4Ip

variable {p : BusParams} {conf : ACCConf} {warnMs : Int} {s s' : State p}

/-! ## Operations -/

/-- An operation of the HDL side. -/
inductive DmaOp (p : BusParams) where
  | write (b : Axi4SW.Burst p)
  | read (c : Axi4SR.ReqReadCall p)
  | intr (vector : BitVec 32)

/-- What an operation does to a byte memory. -/
def DmaOp.Means (mem : Mem) (op : DmaOp p) (mem' : Mem) : Prop :=
  match op with
  | .write b => b.Exact mem mem'
  | .read _ => mem' = mem
  | .intr _ => mem' = mem

/-- What an operation has to be for the bridge to do it right. -/
def DmaOp.Supported : DmaOp p → Prop
  | .write b => b.Legal ∧ b.geom.Aligned ∧ b.FullStrobes
  | .read c => c.Legal ∧ c.geom.FullStride p.stbw
  | .intr _ => True

/-- The meaning of a write leaves no choice. -/
theorem means_unique {op : DmaOp p} {mem m m' : Mem} (h : op.Means mem m) (h' : op.Means mem m') :
    m = m' := by
  cases op with
  | write b =>
    funext a
    by_cases hin : ∃ i j, i ≤ b.len.toNat ∧ j < p.stbw ∧ b.Strobed i j ∧
        b.geom.laneAddr p.stbw i j = a
    · obtain ⟨i, j, hi, hj, hs, rfl⟩ := hin
      rw [h.written i hi j hj hs, h'.written i hi j hj hs]
    · have hout : ∀ i ≤ b.len.toNat, ∀ j < p.stbw, b.Strobed i j →
          b.geom.laneAddr p.stbw i j ≠ a :=
        fun i hi j hj hs heq => hin ⟨i, j, hi, hj, hs, heq⟩
      rw [h.kept a hout, h'.kept a hout]
  | read c => exact Eq.trans h (Eq.symm h')
  | intr v => exact Eq.trans h (Eq.symm h')

/-! ## Reading the write bursts off the channels -/

/-- A write burst that is coming in: the cycle of its address, and its beats so far. -/
structure Incoming (p : BusParams) where
  aw : Axi4SW.Input p
  beats : List (BusWord p × BitVec p.stbw)

/-- The burst, once all beats are in. -/
def Incoming.burst (x : Incoming p) : Axi4SW.Burst p where
  id := x.aw.iSAwid
  addr := x.aw.iSAwaddr
  size := x.aw.iSAwsize
  len := x.aw.iSAwlen
  data := fun i => (x.beats[i]?.map Prod.fst).getD fun _ => 0
  strb := fun i => (x.beats[i]?.map Prod.snd).getD 0

instance (s : Axi4SW.State p) (i : Axi4SW.Input p) : Decidable (Axi4SW.AwHandshake s i) :=
  inferInstanceAs (Decidable (_ ∧ _))

/-- One cycle of watching the AW and W channels: what is coming in, and the burst that is
complete. -/
def watch (w : Option (Incoming p)) (s : Axi4SW.State p) (i : Axi4SW.Input p) :
    Option (Incoming p) × List (Axi4SW.Burst p) :=
  if Axi4SW.AwHandshake s i then (some ⟨i, []⟩, [])
  else
    match w with
    | none => (none, [])
    | some x =>
      let x' : Incoming p := { x with beats := x.beats ++ Axi4SW.wHandshake s i }
      if x'.beats.length = x.aw.iSAwlen.toNat + 1 then (none, [x'.burst]) else (some x', [])

/-- The registers of the write slave have what was watched. -/
structure Watched (x : Incoming p) (s : Axi4SW.State p) : Prop where
  state : s.rWriteState = .data
  addr : s.rAddr = x.aw.iSAwaddr
  size : s.rSize = x.aw.iSAwsize
  len : s.rLen = x.aw.iSAwlen
  count : x.beats.length = s.rLenCnt.toNat
  le : s.rLenCnt.toNat ≤ s.rLen.toNat
  words : HoldsWords s.rDataTmp (x.beats.map Prod.fst)
  strbs : Axi4SW.HoldsStrbs s.rStrbTmp (x.beats.map Prod.snd)

/-- A burst comes in exactly while the write slave collects one. -/
def InStep (w : Option (Incoming p)) (s : Axi4SW.State p) : Prop :=
  match w with
  | none => s.rWriteState ≠ .data
  | some x => Watched x s

/-- `c` is the call for the burst `b`. -/
structure CallOf (b : Axi4SW.Burst p) (c : Axi4SW.ReqWriteCall p) : Prop where
  addr : c.addr = b.addr
  width : c.width = b.size
  len : c.len = b.len
  beats : (b.len.toNat + 1) * p.stbw ≤ buffSize →
    Axi4SW.HoldsBeats b (b.len.toNat + 1) c.data c.strb

/-- The beats of a complete burst, from the buffers that hold them. -/
theorem Incoming.holdsBeats {x : Incoming p} {d : Buf buffSize} {strb : Fin p.nstb → BitVec 64}
    (hlen : x.beats.length = x.aw.iSAwlen.toNat + 1)
    (hfit : (x.aw.iSAwlen.toNat + 1) * p.stbw ≤ buffSize)
    (hd : HoldsWords d (x.beats.map Prod.fst))
    (hs : Axi4SW.HoldsStrbs strb (x.beats.map Prod.snd)) :
    Axi4SW.HoldsBeats x.burst (x.aw.iSAwlen.toNat + 1) d strb where
  data := by
    intro i hi j hj
    have hlt : i < x.beats.length := by omega
    rw [hd (by rw [List.length_map, hlen]; exact hfit) i (by rw [List.length_map]; exact hlt) j hj]
    simp [burst, List.getElem?_eq_getElem hlt]
  strb := by
    intro i hi hn
    have hlt : i < x.beats.length := by omega
    rw [hs i (by rw [List.length_map]; exact hlt) hn]
    simp [burst, List.getElem?_eq_getElem hlt]

/-- The AW handshake starts a burst with no beats. -/
theorem watched_aw {s : Axi4SW.State p} {i : Axi4SW.Input p} (hr : i.iRstN = true)
    (hw : Axi4SW.ReadyWf s) (ha : Axi4SW.AwHandshake s i) :
    Watched ⟨i, []⟩ (Axi4SW.step s i) := by
  rw [(Axi4SW.step_aw hr hw ha).1]
  exact ⟨rfl, rfl, rfl, rfl, rfl, Nat.zero_le _, holdsWords_nil _,
    fun i h => absurd h (Nat.not_lt_zero i)⟩

/-- A beat more. -/
theorem Watched.snoc {x : Incoming p} {s : Axi4SW.State p} (h : Watched x s) (d : BusWord p)
    (t : BitVec p.stbw) :
    HoldsWords (s.rDataTmp.copyIn (s.rLenCnt.toNat * p.stbw) d.lane p.stbw)
        ((x.beats ++ [(d, t)]).map Prod.fst) ∧
      Axi4SW.HoldsStrbs (Axi4SW.setStrb s.rStrbTmp s.rLenCnt.toNat t)
        ((x.beats ++ [(d, t)]).map Prod.snd) := by
  have hwords := h.words.snoc d
  have hstrbs := h.strbs.snoc t
  rw [List.length_map, h.count] at hwords hstrbs
  rw [List.map_append, List.map_append]
  exact ⟨hwords, hstrbs⟩

/-- A cycle of a burst that is coming in. -/
theorem Watched.step {x : Incoming p} {s : Axi4SW.State p} {i : Axi4SW.Input p} (h : Watched x s)
    (hr : i.iRstN = true) (hw : Axi4SW.ReadyWf s) (hna : ¬Axi4SW.AwHandshake s i) :
    InStep (watch (some x) s i).1 (Axi4SW.step s i) ∧
      List.Forall₂ CallOf (watch (some x) s i).2 (Axi4SW.cReq s i) := by
  have hcount := h.count
  have hle := h.le
  have hlen : s.rLen.toNat = x.aw.iSAwlen.toNat := congrArg _ h.len
  have hwatch : watch (some x) s i = if (x.beats ++ Axi4SW.wHandshake s i).length
      = x.aw.iSAwlen.toNat + 1
      then (none, [Incoming.burst { x with beats := x.beats ++ Axi4SW.wHandshake s i }])
      else (some { x with beats := x.beats ++ Axi4SW.wHandshake s i }, []) := if_neg hna
  rw [hwatch]
  cases hv : i.iSWvalid with
  | false =>
    obtain ⟨hstep, hquiet⟩ := Axi4SW.step_gap hr hw h.state hv
    rw [hstep, hquiet.w, hquiet.call, List.append_nil, if_neg (by omega)]
    exact ⟨h, List.Forall₂.nil⟩
  | true =>
    obtain ⟨hwords, hstrbs⟩ := h.snoc i.iSWdata i.iSWstrb
    by_cases heq : s.rLenCnt = s.rLen
    · -- the last beat
      obtain ⟨hstep, hbeat, _, hcall⟩ := Axi4SW.step_last hr hw h.state hv heq
      have hlast : (x.beats ++ [(i.iSWdata, i.iSWstrb)]).length = x.aw.iSAwlen.toNat + 1 := by
        rw [List.length_append, hcount, heq, hlen]
        rfl
      rw [hstep, hbeat, hcall, if_pos hlast]
      refine ⟨by simp [InStep], List.Forall₂.cons ⟨h.addr, h.size, h.len, fun hfit => ?_⟩ .nil⟩
      exact Incoming.holdsBeats hlast hfit hwords hstrbs
    · obtain ⟨hstep, hbeat, _, hcall⟩ := Axi4SW.step_beat hr hw h.state hv heq
      obtain ⟨hcnt, hlt⟩ := toNat_succ_of_ne hle heq
      have hlength : (x.beats ++ [(i.iSWdata, i.iSWstrb)]).length = s.rLenCnt.toNat + 1 := by
        rw [List.length_append, hcount]
        rfl
      rw [hstep, hbeat, hcall, if_neg (by omega)]
      refine ⟨⟨h.state, h.addr, h.size, h.len, ?_, ?_, hwords, hstrbs⟩, List.Forall₂.nil⟩
      · rw [hcnt]
        exact hlength
      · rw [hcnt]
        exact hlt

/-- **One cycle**: what is watched stays in step with the write slave, and its calls are for the
bursts that are complete. -/
theorem watch_step {w : Option (Incoming p)} {s : Axi4SW.State p} {i : Axi4SW.Input p}
    (h : InStep w s) (hr : i.iRstN = true) (hw : Axi4SW.ReadyWf s) :
    InStep (watch w s i).1 (Axi4SW.step s i) ∧
      List.Forall₂ CallOf (watch w s i).2 (Axi4SW.cReq s i) := by
  by_cases ha : Axi4SW.AwHandshake s i
  · have hwatch : watch w s i = (some ⟨i, []⟩, []) := if_pos ha
    rw [hwatch, (Axi4SW.step_aw hr hw ha).2.call]
    exact ⟨watched_aw hr hw ha, List.Forall₂.nil⟩
  · cases w with
    | some x => exact Watched.step h hr hw ha
    | none =>
      have hwatch : watch none s i = (none, []) := if_neg ha
      rw [hwatch]
      cases hs : s.rWriteState with
      | idle =>
        obtain ⟨hstep, hquiet⟩ := Axi4SW.step_idle hr hw hs ha
        rw [hstep, hquiet.call]
        exact ⟨h, List.Forall₂.nil⟩
      | data => exact absurd hs h
      | response =>
        obtain ⟨hstep, _, _, hcall⟩ := Axi4SW.step_response hr hw hs
        rw [hstep, hcall]
        refine ⟨?_, List.Forall₂.nil⟩
        show Axi4SW.State.rWriteState _ ≠ _
        split <;> simp [hs]

/-! ## The operations of a run -/

/-- The read burst whose address is taken in an event. -/
def readBursts (s : State p) : Event p → List (Axi4SR.ReqReadCall p)
  | .edge e =>
    if Axi4SR.ArHandshake s.ip.sr (srInput s.ip e.inp) then
      [⟨e.inp.iSAraddr, e.inp.iSArsize, e.inp.iSArlen, e.inp.iSArid⟩]
    else []
  | _ => []

/-- What is coming in on the write channels after an event. -/
def watchEvent (w : Option (Incoming p)) (s : State p) : Event p → Option (Incoming p)
  | .edge e => (watch w s.ip.sw (swInput s.ip e.inp)).1
  | _ => w

/-- The operations of an event. -/
def dmaOps (w : Option (Incoming p)) (s : State p) : Event p → List (DmaOp p)
  | .edge e =>
    let ws := (watch w s.ip.sw (swInput s.ip e.inp)).2.map DmaOp.write
    let rs := (readBursts s (.edge e)).map DmaOp.read
    if e.writeFirst then ws ++ rs else rs ++ ws
  | .interrupt d _ => (reqInterruptCalls s.ip d).map DmaOp.intr
  | _ => []

/-- The operations of a run. -/
def dmaLog : Option (Incoming p) → List (State p × Event p) → List (DmaOp p)
  | _, [] => []
  | w, c :: tr => dmaOps w c.1 c.2 ++ dmaLog (watchEvent w c.1 c.2) tr

/-- In reset the HDL master offers no address, as AXI wants it. -/
def NoAddressInReset (s : State p) : Event p → Prop
  | .edge e => s.ip.edges < 100 → e.inp.iSArvalid = false ∧ e.inp.iSAwvalid = false
  | _ => True

theorem NoAddressInReset.read {e : Event p} (h : NoAddressInReset s e) : NoReadInReset s e := by
  cases e with
  | edge x => exact fun hlt => (h hlt).1
  | _ => trivial

/-- The frame of an operation. -/
def Implements (op : DmaOp p) (f : ACCData) : Prop :=
  match op with
  | .write b => f.op = .write ∧ f.address = b.addr ∧
      f.dataSize = burstSize b.size.toNat b.len.toNat ∧
      (b.Legal → ∃ old : Nat → Byte, ∀ m < buffSize, f.data.get m = overlay b.strobedBytes old m)
  | .read c => IsFrameOf c f
  | .intr v => f.op = .intr ∧ f.vector = v

theorem cReqWrite_header {n busw width len : Nat} {stack f : ACCData} {addr : BitVec 64}
    {data : Buf buffSize} {strb : Fin n → BitVec 64}
    (h : cReqWrite busw stack addr width len data strb = some f) :
    f.op = .write ∧ f.address = addr ∧ f.dataSize = burstSize width len := by
  obtain ⟨st, _, rfl⟩ := Option.map_eq_some_iff.mp h
  exact ⟨rfl, rfl, rfl⟩

/-- The frame of a call is the frame of its burst. -/
theorem implements_write {b : Axi4SW.Burst p} {c : Axi4SW.ReqWriteCall p} (h : CallOf b c)
    {stack f : ACCData}
    (hf : cReqWrite p.stbw stack c.addr c.width.toNat c.len.toNat c.data c.strb = some f) :
    Implements (.write b) f := by
  obtain ⟨hop, haddr, hsize⟩ := cReqWrite_header hf
  refine ⟨hop, haddr.trans h.addr, by rw [hsize, h.width, h.len], fun hb => ?_⟩
  obtain ⟨d, hframe, hd⟩ := cReqWrite_spec stack c.addr c.width.toNat c.len.toNat c.data c.strb
    (by rw [h.len]; exact hb.len_lt_nstb) (by rw [h.len]; exact hb.fits)
  rw [hframe] at hf
  cases hf
  refine ⟨stack.data.get, fun m hm => ?_⟩
  rw [hd m hm, h.len, packed_of_holdsBeats hb.len_lt_nstb (h.beats hb.fits)]

/-- After the first edge, and before it with a quiet master, the calls are the bursts. -/
theorem readCalls_eq {e : Event p} (hw : SlavesWf s.ip) (hq : NoReadInReset s e) :
    readCalls s e = readBursts s e := by
  cases e with
  | edge x =>
    show reqReadCalls s.ip x.inp = if Axi4SR.ArHandshake s.ip.sr (srInput s.ip x.inp) then _ else []
    unfold reqReadCalls
    by_cases h0 : s.ip.edges = 0
    · have hlow := hq (by omega)
      rw [if_pos h0, if_neg]
      rintro ⟨hv, _⟩
      exact absurd (hlow.symm.trans hv) (by simp)
    · rw [if_neg h0, Axi4SR.cReq_eq hw.sr]
      rfl
  | _ => rfl

/-- What is watched, and the write slave, between two events. -/
structure Watching (w : Option (Incoming p)) (s : State p) : Prop where
  wf : SlavesWf s.ip
  ready : Axi4SW.ReadyWf s.ip.sw
  inStep : InStep w s.ip.sw

theorem watching_init (mem : Mem) : Watching none (init (p := p) mem) :=
  ⟨slavesWf_init, Axi4SW.readyWf_reset, by simp [InStep, init, Axi4Ip.init, Axi4SW.reset]⟩

/-- One edge, for the write channels: the calls are for the bursts that are complete. -/
theorem Watching.edge {w : Option (Incoming p)} {e : Edge p} (h : Watching w s)
    (hquiet : NoAddressInReset s (.edge e)) (hstep : s.edge conf e = some s') :
    Axi4SW.ReadyWf s'.ip.sw ∧ InStep (watch w s.ip.sw (swInput s.ip e.inp)).1 s'.ip.sw ∧
      List.Forall₂ CallOf (watch w s.ip.sw (swInput s.ip e.inp)).2 (reqWriteCalls s.ip e.inp) := by
  obtain ⟨_, _, _, _, _, _, _, _, _, sock, hclock⟩ := State.edge_eq_some hstep
  obtain ⟨v, _, _, hip⟩ := clock_eq_some hclock
  by_cases hedges : s.ip.edges < 100
  · obtain ⟨_, hsw⟩ := h.wf.reset hedges
    have hsw' : s'.ip.sw = Axi4SW.reset := by rw [hip]; exact (next_of_reset hedges e.inp v).2.2.2
    have hidle : s.ip.sw.rWriteState = .idle := by rw [hsw]; rfl
    have hnone : w = none := by
      cases w with
      | none => rfl
      | some x => exact absurd (h.inStep.state.symm.trans hidle) (by simp)
    have hna : ¬Axi4SW.AwHandshake s.ip.sw (swInput s.ip e.inp) := by
      rintro ⟨hv, _⟩
      exact absurd ((hquiet hedges).2.symm.trans hv) (by simp)
    have hwatch : watch none s.ip.sw (swInput s.ip e.inp) = (none, []) := if_neg hna
    have hcalls : reqWriteCalls s.ip e.inp = [] := by
      unfold reqWriteCalls
      rw [Axi4SW.cReq_of_idle hidle, ite_self]
    rw [hnone, hwatch, hcalls, hsw']
    exact ⟨Axi4SW.readyWf_reset, by simp [InStep, Axi4SW.reset], List.Forall₂.nil⟩
  · have hr : (swInput s.ip e.inp).iRstN = true := aresetn_eq_true.mpr (by omega)
    obtain ⟨hin, hcalls⟩ := watch_step h.inStep hr h.ready
    have hsw' : s'.ip.sw = Axi4SW.step s.ip.sw (swInput s.ip e.inp) := by rw [hip]; rfl
    have heq : reqWriteCalls s.ip e.inp = Axi4SW.cReq s.ip.sw (swInput s.ip e.inp) :=
      if_neg (by omega)
    rw [hsw', heq]
    exact ⟨h.ready.of_step hr, hin, hcalls⟩

/-- **One step**: its requests are the frames of its operations, in the same order. -/
theorem Watching.step {w : Option (Incoming p)} {e : Event p} (h : Watching w s)
    (hquiet : NoAddressInReset s e) (hstep : Cosim.step conf warnMs s e = some s') :
    Watching (watchEvent w s e) s' ∧ List.Forall₂ Implements (dmaOps w s e) (issued s e) := by
  have hwf := (b_step h.wf hstep).1
  cases e with
  | edge x =>
    obtain ⟨hready, hin, hcalls⟩ := h.edge hquiet hstep
    refine ⟨⟨hwf, hready, hin⟩, ?_⟩
    obtain ⟨_, reqs, _, hreqs, _⟩ := State.edge_eq_some hstep
    have hissued : issued s (.edge x) = reqs := by simp [issued, hreqs]
    obtain ⟨ws, hws, rfl⟩ := Option.map_eq_some_iff.mp hreqs
    have hwrites : List.Forall₂ Implements
        ((watch w s.ip.sw (swInput s.ip x.inp)).2.map DmaOp.write) ws := by
      rw [List.forall₂_map_left_iff]
      exact forall₂_mapM hcalls hws fun _ _ _ hc hf => implements_write hc hf
    have hreads : List.Forall₂ Implements ((readBursts s (.edge x)).map DmaOp.read)
        (reqReadFrames x.stack.reqRead s.ip x.inp) := by
      rw [List.forall₂_map_left_iff, ← readCalls_eq h.wf hquiet.read]
      exact isFrameOf_event s (.edge x)
    rw [hissued]
    show List.Forall₂ Implements (if x.writeFirst then _ else _) _
    split
    · exact List.rel_append hwrites hreads
    · exact List.rel_append hreads hwrites
  | interrupt d stack =>
    cases hstep
    refine ⟨⟨hwf, h.ready, h.inStep⟩, ?_⟩
    show List.Forall₂ Implements ((reqInterruptCalls s.ip d).map DmaOp.intr)
      ((reqInterruptCalls s.ip d).map (cReqInterrupt stack))
    rw [List.forall₂_map_left_iff, List.forall₂_map_right_iff]
    exact List.forall₂_same.mpr fun v _ => ⟨rfl, rfl⟩
  | _ =>
    obtain ⟨hip, _⟩ := step_other (by simp) hstep
    exact ⟨⟨hwf, by rw [hip]; exact h.ready, by rw [hip]; exact h.inStep⟩, List.Forall₂.nil⟩

/-- **The requests of a run are the frames of its operations.** -/
theorem implements_run {w : Option (Incoming p)} {tr : List (State p × Event p)}
    (h : Run conf warnMs s tr s') (hw : Watching w s)
    (hquiet : ∀ c ∈ tr, NoAddressInReset c.1 c.2) :
    List.Forall₂ Implements (dmaLog w tr) (events issued tr) := by
  induction h generalizing w with
  | nil => exact List.Forall₂.nil
  | cons hstep _ ih =>
    obtain ⟨hnext, hops⟩ := hw.step (hquiet _ List.mem_cons_self) hstep
    exact List.rel_append hops (ih hnext fun c hc => hquiet c (List.mem_cons_of_mem _ hc))

end QemuHdlSim.Cosim
