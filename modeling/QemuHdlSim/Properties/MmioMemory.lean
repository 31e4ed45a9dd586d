import QemuHdlSim.System.MmioPhases

/-!
# The MMIO path refines a byte memory

What a guest access means is said on a byte memory (`Access.specMem`, `Access.specResult`): a
write stores its bytes at the AXI address of the access, a read returns the little-endian value
of the bytes there. `mmio_refines` says that the closed loop does just that, for any sequence of
accesses, whatever the variables of `axi4_ip` and the registers of the masters held before, and
whatever the DMA side does meanwhile.
-/

namespace QemuHdlSim

open Infra Axi4Ip Loop

variable {p : BusParams}

/-! ## What an access means -/

/-- The BAR, address and size of an access. -/
def Access.bar : Access → Fin 6
  | .read num _ _ => num
  | .write num _ _ _ => num

def Access.addr : Access → BitVec 64
  | .read _ addr _ => addr
  | .write _ addr _ _ => addr

def Access.size : Access → BitVec 32
  | .read _ _ size => size
  | .write _ _ _ size => size

/-- The access is one QEMU makes: a BAR that is there, in range, aligned, of a size it allows. -/
structure Access.Valid (conf : ACCConf) (a : Access) : Prop where
  bar : (conf.bar a.bar).isValid = true
  inRange : a.addr.toNat + a.size.toNat ≤ (conf.bar a.bar).size.toNat
  size : ∃ j ≤ 3, a.size.toNat = 2 ^ j
  aligned : a.addr.toNat % a.size.toNat = 0

/-- The AXI address of the access. -/
def Access.axiAddr (conf : ACCConf) (a : Access) : BitVec 64 :=
  a.addr + (conf.bar a.bar).offset

/-- The memory after the access. -/
def Access.specMem (conf : ACCConf) (mem : Mem) (a : Access) : Mem :=
  match a with
  | .read _ _ _ => mem
  | .write _ _ val _ => mem.store (a.axiAddr conf).toNat (leByte val) a.size.toNat

/-- What the access returns. -/
def Access.specResult (conf : ACCConf) (mem : Mem) (a : Access) : Option (BitVec 64) :=
  match a with
  | .read _ _ _ =>
    some (BitVec.ofNat 64 (leVal (fun k => mem ((a.axiAddr conf).toNat + k)) a.size.toNat))
  | .write _ _ _ _ => none

/-- The results of a sequence of accesses. -/
def specResults (conf : ACCConf) : Mem → List Access → List (Option (BitVec 64))
  | _, [] => []
  | mem, a :: as => a.specResult conf mem :: specResults conf (a.specMem conf mem) as

/-- The edges between the one that polls an access and the first one that may answer it. -/
def Access.latency : Access → Nat
  | .read _ _ _ => 2
  | .write _ _ _ _ => 3

/-- Over the edges `es` the poller reports the request, and the RAM then sends the response. -/
structure Schedule (a : Access) (es : List (Env p)) : Prop where
  fits : ∀ e ∈ es, e.other.Fits p.stbw
  shape : ∃ before poll mid rest, es = before ++ poll :: (mid ++ rest) ∧
    (∀ e ∈ before, e.pollsRequest = false) ∧ poll.pollsRequest = true ∧
    mid.length = a.latency ∧ ∃ e ∈ rest, e.respond = true

/-! ## Addresses -/

/-- The bytes of a valid access lie in one bus word. -/
theorem Access.Valid.in_word {conf : ACCConf} {a : Access} (h : a.Valid conf)
    (hbus : 3 ≤ p.log2Stbw) (hoff : (conf.bar a.bar).offset.toNat % p.stbw = 0) :
    (a.axiAddr conf).toNat % p.stbw + a.size.toNat ≤ p.stbw := by
  obtain ⟨j, hj, hsize⟩ := h.size
  have hdvd : 2 ^ j ∣ p.stbw := Nat.pow_dvd_pow 2 (by omega)
  have haddr : 2 ^ j ∣ a.addr.toNat := Nat.dvd_of_mod_eq_zero (hsize ▸ h.aligned)
  have hoffset : 2 ^ j ∣ (conf.bar a.bar).offset.toNat :=
    Nat.dvd_trans hdvd (Nat.dvd_of_mod_eq_zero hoff)
  have haxi : 2 ^ j ∣ (a.axiAddr conf).toNat := by
    rw [axiAddr, BitVec.toNat_add]
    exact (Nat.dvd_mod_iff (Nat.pow_dvd_pow 2 (by omega))).mpr (Nat.dvd_add haddr hoffset)
  let b : Axi.Burst := ⟨(a.axiAddr conf).toNat, j, 0⟩
  have halign : b.Aligned := (Nat.div_mul_cancel haxi).symm
  have hle := halign.lane_add_bytes_le hdvd p.stbw_pos 0
  rw [hsize]
  exact hle

/-- Inside one bus word, an address is its word and its lane. -/
theorem mem_window_iff {w x n a : Nat} (hle : x % w + n ≤ w) :
    (x ≤ a ∧ a < x + n) ↔ a / w = x / w ∧ x % w ≤ a % w ∧ a % w < x % w + n := by
  have hx := Nat.div_add_mod' x w
  have ha := Nat.div_add_mod' a w
  constructor
  · rintro ⟨h1, h2⟩
    have hdiv : a / w = x / w := by
      refine Nat.div_eq_of_lt_le (by omega) ?_
      rw [Nat.succ_mul]
      omega
    rw [hdiv] at ha
    exact ⟨hdiv, by omega, by omega⟩
  · rintro ⟨hdiv, h1, h2⟩
    rw [hdiv] at ha
    exact ⟨by omega, by omega⟩

/-! ## What `C_poll` makes of a request -/

theorem Access.request_bar (a : Access) (txid : BitVec 64) :
    (a.request txid).barNum.toNat = a.bar.val := by
  have h : a.bar.val < 6 := a.bar.isLt
  cases a <;> simp [request, mmioReadReq, mmioWriteReq, bar] at h ⊢ <;> omega

/-- The offset `C_poll` adds is that of the access. -/
theorem Access.request_conf (conf : ACCConf) (a : Access) (txid : BitVec 64)
    (h : (a.request txid).barNum.toNat < 6) :
    conf.bar ⟨(a.request txid).barNum.toNat, h⟩ = conf.bar a.bar :=
  congrArg conf.bar (Fin.ext (a.request_bar txid))

/-- A read request: the address and the length; the data and the strobes stay. -/
theorem cPollQemuReq_read (conf : ACCConf) (num : Fin 6) (addr : BitVec 64) {size : BitVec 32}
    {busw : Nat} (hsize : size.toNat ≤ busw) (txid : BitVec 64) (v : PollVars) :
    ∃ v', cPollQemuReq busw conf (Access.request txid (.read num addr size)) v = some v' ∧
      v'.reqType = .mRd ∧ v'.addr = addr + (conf.bar num).offset ∧ v'.len = 0 := by
  have hbar : (Access.request txid (.read num addr size)).barNum.toNat < 6 := by
    rw [Access.request_bar]
    exact num.isLt
  refine ⟨_, cPollQemuReq_of_read hbar rfl, rfl, ?_, ?_⟩
  · show addr + _ = _
    rw [Access.request_conf]
    rfl
  · show BitVec.ofNat 32 (axiLen busw size.toNat) = 0
    rw [axiLen_of_le hsize]
    rfl

/-- A write request: strobes and data start at the lane of the address. -/
theorem cPollQemuReq_write (conf : ACCConf) (num : Fin 6) (addr val : BitVec 64)
    {size : BitVec 32} {busw : Nat} (hsize : size.toNat ≤ busw) (hsize8 : size.toNat ≤ 8)
    (hbusw : 0 < busw ∧ busw ≤ 64) (txid : BitVec 64) (v : PollVars) :
    let off := (addr + (conf.bar num).offset).toNat % busw
    ∃ v', cPollQemuReq busw conf (Access.request txid (.write num addr val size)) v = some v' ∧
      v'.reqType = .mWr ∧ v'.addr = addr + (conf.bar num).offset ∧ v'.len = 0 ∧
      v'.strb = BitVec.ofNat 64 (2 ^ size.toNat - 1) <<< off ∧
      ∀ k < 8, v'.data.get (off + k) = leByte val k := by
  intro off
  have hbuf := buffSize_eq
  have hoff : off < busw := Nat.mod_lt _ hbusw.1
  have hbar : (Access.request txid (.write num addr val size)).barNum.toNat < 6 := by
    rw [Access.request_bar]
    exact num.isLt
  have hlt : (Access.request txid (.write num addr val size)).dataSize.toNat < 31 :=
    Nat.lt_of_le_of_lt hsize8 (by omega)
  have haddr : (Access.request txid (.write num addr val size)).address + (conf.bar
      ⟨(Access.request txid (.write num addr val size)).barNum.toNat, hbar⟩).offset
        = addr + (conf.bar num).offset := by
    rw [Access.request_conf]
    rfl
  have heq := cPollQemuReq_of_write conf v hbar rfl hlt
    ⟨hbusw.1, by omega⟩
  simp only [haddr] at heq
  refine ⟨_, heq, rfl, rfl, ?_, rfl, ?_⟩
  · show BitVec.ofNat 32 (axiLen busw size.toNat) = 0
    rw [axiLen_of_le hsize]
    rfl
  · intro k hk
    show (Buf.copyIn _ off _ _).get (off + k) = _
    rw [Buf.get_copyIn _ _ _ _ (by omega), if_pos ⟨by omega, by omega⟩, Nat.zero_add,
      Nat.add_sub_cancel_left]
    show (Buf.copyIn _ 0 _ 8).get k = _
    rw [Buf.get_copyIn _ _ _ _ (by omega), if_pos ⟨by omega, by omega⟩, Nat.sub_zero]

/-! ## What the bytes are -/

/-- The strobes of a write are the lanes of its bytes. -/
theorem strb_getLsbD {size off j w : Nat} (hj : j < w) (hw : w ≤ 64) :
    ((BitVec.ofNat 64 (2 ^ size - 1) <<< off).setWidth w).getLsbD j = true ↔
      off ≤ j ∧ j < off + size := by
  rw [BitVec.getLsbD_setWidth, BitVec.getLsbD_shiftLeft, BitVec.getLsbD_ofNat,
    Nat.testBit_two_pow_sub_one]
  simp only [Bool.and_eq_true, decide_eq_true_eq, Bool.not_eq_true', decide_eq_false_iff_not]
  omega

/-- The strobed bytes of the bus word are the bytes of the access. -/
theorem storeWord_eq {m : Mem} {x : BitVec 64} {data : Buf buffSize} {strb : BitVec p.stbw}
    {size : Nat} {val : BitVec 64} (hin : x.toNat % p.stbw + size ≤ p.stbw)
    (hstrb : ∀ j < p.stbw, strb.getLsbD j = true ↔
      x.toNat % p.stbw ≤ j ∧ j < x.toNat % p.stbw + size)
    (hdata : ∀ k < size, data.get (x.toNat % p.stbw + k) = leByte val k) :
    storeWord m x data strb = m.store x.toNat (leByte val) size := by
  funext a
  have hlt : a % p.stbw < p.stbw := Nat.mod_lt _ p.stbw_pos
  have hiff : (a / p.stbw = x.toNat / p.stbw ∧ strb.getLsbD (a % p.stbw) = true) ↔
      x.toNat ≤ a ∧ a < x.toNat + size := by
    rw [hstrb _ hlt, mem_window_iff hin]
  unfold storeWord Mem.store
  by_cases h : x.toNat ≤ a ∧ a < x.toNat + size
  · rw [if_pos (hiff.mpr h), if_pos h]
    obtain ⟨hdiv, hlane⟩ := hiff.mpr h
    have hx := Nat.div_add_mod' x.toNat p.stbw
    have ha := Nat.div_add_mod' a p.stbw
    rw [hdiv] at ha
    rw [← hdata (a - x.toNat) (by omega)]
    congr 1
    omega
  · rw [if_neg (fun hc => h (hiff.mp hc)), if_neg h]

/-- A supported size decodes that many bytes. -/
theorem mmioReadDecode_eq {size : BitVec 32} {f : ACCData} (h : ∃ j ≤ 3, size.toNat = 2 ^ j) :
    mmioReadDecode size f = BitVec.ofNat 64 (leVal f.data.get size.toNat) := by
  obtain ⟨j, hj, hsize⟩ := h
  have hcases : j = 0 ∨ j = 1 ∨ j = 2 ∨ j = 3 := by omega
  unfold mmioReadDecode
  rcases hcases with rfl | rfl | rfl | rfl <;> rw [hsize] <;> rfl

/-! ## One access -/

section

variable {conf : ACCConf} {m : Mem}

/-- From the call of an access to its answer. -/
def Access.Done (conf : ACCConf) (m : Mem) (a : Access) (l : Loop p) : Prop :=
  ∃ f, Quiet 100 (a.specMem conf m) [] [f] l ∧
    a.result (some ⟨sizeofACCData, f⟩) = a.specResult conf m

/-- The poll of an access and what follows it, for a read. -/
theorem read_polled {num : Fin 6} {addr : BitVec 64} {size : BitVec 32} {txid : BitVec 64}
    {poll : Env p} {es : List (Env p)} (hbus : 3 ≤ p.log2Stbw)
    (hoff : ∀ k, (conf.bar k).offset.toNat % p.stbw = 0)
    (hvalid : (Access.read num addr size).Valid conf)
    (hfits : ∀ e ∈ es, e.other.Fits p.stbw) (hpoll : poll.pollsRequest = true)
    (hes : ∃ mid rest, es = mid ++ rest ∧ mid.length = 2 ∧ ∃ e ∈ rest, e.respond = true) :
    Leads (edge conf) (Quiet 100 m [Access.request txid (.read num addr size)] [])
      (poll :: es) (Access.Done conf m (.read num addr size)) := by
  have hin := hvalid.in_word hbus (hoff _)
  have hsize : size.toNat ≤ p.stbw := by
    have : size.toNat = (Access.read num addr size).size.toNat := rfl
    omega
  obtain ⟨mid, rest, rfl, hlen, hresp⟩ := hes
  obtain ⟨e₁, e₂, rfl⟩ := List.length_eq_two.mp hlen
  refine Leads.cons (Q := ReadPolled m ((Access.read num addr size).axiAddr conf)) ?_ ?_
  · refine Leads.single fun l h => ?_
    obtain ⟨v, hv, htype, haddr, hlen'⟩ := cPollQemuReq_read conf num addr hsize txid
      l.ip.vars
    obtain ⟨l', hedge, rfl, hphase⟩ := h.polled hpoll hv
    rw [htype] at hphase
    exact ⟨l', hedge, hphase, haddr, hlen'⟩
  · intro l h
    obtain ⟨l', hrun, f, hquiet, hf⟩ := read_leads hfits hresp l h
    refine ⟨l', hrun, f, hquiet, ?_⟩
    show some (if sizeofACCData < sizeofACCData then 0 else mmioReadDecode size f) = _
    have hdecode : mmioReadDecode size f = BitVec.ofNat 64 (leVal f.data.get size.toNat) :=
      mmioReadDecode_eq hvalid.size
    rw [if_neg (Nat.lt_irrefl _), hdecode]
    exact congrArg (fun n => some (BitVec.ofNat 64 n))
      (leVal_congr fun k hk => hf k (Nat.lt_of_lt_of_le (Nat.add_lt_add_left hk _) hin))

/-- The poll of an access and what follows it, for a write. -/
theorem write_polled {num : Fin 6} {addr val : BitVec 64} {size : BitVec 32} {txid : BitVec 64}
    {poll : Env p} {es : List (Env p)} (hbus : 3 ≤ p.log2Stbw)
    (hoff : ∀ k, (conf.bar k).offset.toNat % p.stbw = 0)
    (hvalid : (Access.write num addr val size).Valid conf)
    (hfits : ∀ e ∈ es, e.other.Fits p.stbw) (hpoll : poll.pollsRequest = true)
    (hes : ∃ mid rest, es = mid ++ rest ∧ mid.length = 3 ∧ ∃ e ∈ rest, e.respond = true) :
    Leads (edge conf) (Quiet 100 m [Access.request txid (.write num addr val size)] [])
      (poll :: es) (Access.Done conf m (.write num addr val size)) := by
  have hin := hvalid.in_word hbus (hoff _)
  have hsize : size.toNat ≤ p.stbw := by
    have : size.toNat = (Access.write num addr val size).size.toNat := rfl
    omega
  have hsize8 : size.toNat ≤ 8 := by
    obtain ⟨j, hj, hs⟩ := hvalid.size
    have hle : size.toNat ≤ 2 ^ 3 := Nat.le_trans (Nat.le_of_eq hs)
      (Nat.pow_le_pow_right (by decide) hj)
    omega
  obtain ⟨mid, rest, rfl, hlen, hresp⟩ := hes
  obtain ⟨e₁, e₂, e₃, rfl⟩ := List.length_eq_three.mp hlen
  intro l h
  obtain ⟨v, hv, htype, haddr, hlen', hstrb, hdata⟩ := cPollQemuReq_write conf num addr val
    hsize hsize8 ⟨p.stbw_pos, p.stbw_le⟩ txid l.ip.vars
  obtain ⟨l₁, hedge, hvars, hphase⟩ := h.polled hpoll hv
  rw [htype] at hphase
  subst hvars
  have hpolled : WritePolled m ((Access.write num addr val size).axiAddr conf) l₁.ip.vars.data
      (l₁.ip.vars.strb.setWidth p.stbw) l₁ := ⟨hphase, haddr, hlen', rfl, rfl⟩
  obtain ⟨l', hrun, f, hquiet⟩ := write_leads hfits hresp l₁ hpolled
  refine ⟨l', ?_, f, ?_, rfl⟩
  · rw [runM, hedge]
    exact hrun
  · -- the word stored is the access of the specification: its strobes are the lanes in `size`
    have hstore : storeWord m ((Access.write num addr val size).axiAddr conf) l₁.ip.vars.data
        (l₁.ip.vars.strb.setWidth p.stbw)
        = (Access.write num addr val size).specMem conf m := by
      refine storeWord_eq hin ?_ (fun k hk => hdata k (Nat.lt_of_lt_of_le hk hsize8))
      intro j hj
      rw [hstrb]
      exact strb_getLsbD hj p.stbw_le
    rw [hstore] at hquiet
    exact hquiet

/-- **One access refines the memory.** -/
theorem access_refines {a : Access} {es : List (Env p)} {l : Loop p} (hbus : 3 ≤ p.log2Stbw)
    (hoff : ∀ k, (conf.bar k).offset.toNat % p.stbw = 0) (hvalid : a.Valid conf)
    (hes : Schedule a es) (txid : BitVec 64) (h : Quiet 100 m [] [] l) :
    ∃ l', l.access conf txid a es = some (l', a.specResult conf m) ∧
      Quiet 100 (a.specMem conf m) [] [] l' := by
  obtain ⟨hfits, before, poll, mid, rest, rfl, hbefore, hpoll, hlen, hresp⟩ := hes
  have hfits₁ : ∀ e ∈ before, e.other.Fits p.stbw := fun e he => hfits e (by simp [he])
  have hfits₂ : ∀ e ∈ mid ++ rest, e.other.Fits p.stbw := fun e he =>
    hfits e (List.mem_append_right _ (List.mem_cons_of_mem _ he))
  have hdone : Leads (edge conf) (Quiet 100 m [a.request txid] [])
      (before ++ poll :: (mid ++ rest)) (a.Done conf m) := by
    refine Leads.append (quiet_stay hfits₁ hbefore) ?_
    cases a with
    | read num addr size =>
      exact read_polled hbus hoff hvalid hfits₂ hpoll ⟨mid, rest, rfl, hlen, hresp⟩
    | write num addr val size =>
      exact write_polled hbus hoff hvalid hfits₂ hpoll ⟨mid, rest, rfl, hlen, hresp⟩
  have hcalled : Quiet 100 m [a.request txid] []
      { l with qemuReq := l.qemuReq ++ [a.request txid] } :=
    { h with req := by rw [h.req]; rfl }
  obtain ⟨l', hrun, f, hquiet, hres⟩ := hdone _ hcalled
  refine ⟨{ l' with qemuResp := [] }, ?_, { hquiet with resp := rfl }⟩
  unfold access
  rw [hrun, Option.bind_some]
  simp only [hquiet.resp, hres]

/--
**The MMIO path refines a byte memory.** From a quiet loop with memory `m`, whatever is left over
in its registers and variables, every sequence of valid accesses is answered; the results are
those of the byte memory, and so is the memory of the RAM afterwards.
-/
theorem mmio_refines (hbus : 3 ≤ p.log2Stbw)
    (hoff : ∀ k, (conf.bar k).offset.toNat % p.stbw = 0) (ops : List (Access × List (Env p)))
    (hvalid : ∀ o ∈ ops, o.1.Valid conf) (hes : ∀ o ∈ ops, Schedule o.1 o.2) (txid : BitVec 64)
    (l : Loop p) (h : Quiet 100 m [] [] l) :
    ∃ l', Loop.run conf txid l ops = some (l', specResults conf m (ops.map Prod.fst)) ∧
      Quiet 100 ((ops.map Prod.fst).foldl (Access.specMem conf) m) [] [] l' := by
  induction ops generalizing txid l m with
  | nil => exact ⟨l, rfl, h⟩
  | cons o ops ih =>
    obtain ⟨a, es⟩ := o
    obtain ⟨l₁, haccess, h₁⟩ := access_refines hbus hoff (hvalid _ List.mem_cons_self)
      (hes _ List.mem_cons_self) (txid + 1) h
    obtain ⟨l', hrun, h'⟩ := ih (fun o ho => hvalid o (List.mem_cons_of_mem _ ho))
      (fun o ho => hes o (List.mem_cons_of_mem _ ho)) (txid + 1) l₁ h₁
    refine ⟨l', ?_, h'⟩
    rw [Loop.run, haccess, Option.bind_some, hrun]
    rfl

end

/-! ## A write and a read that overlap -/

/-- The poller reports the request, and the RAM answers at once. -/
def readyEnv : Env bus64 where
  pollsRequest := true
  other := .none
  respond := true
  dma := readyInput
  stack := ACCData.zero

/-- Two bytes inside a bus word, and then the whole word. -/
def overlapping : List (Access × List (Env bus64)) :=
  [(.write bar2 0x102 0xBBAA 2, List.replicate 5 readyEnv),
    (.read bar2 0x100 8, List.replicate 4 readyEnv)]

theorem overlapping_valid : ∀ o ∈ overlapping, o.1.Valid defaultConf := by
  intro o ho
  simp only [overlapping, List.mem_cons, List.not_mem_nil, or_false] at ho
  rcases ho with rfl | rfl
  · exact ⟨rfl, by decide, ⟨1, by decide, rfl⟩, rfl⟩
  · exact ⟨rfl, by decide, ⟨3, by decide, rfl⟩, rfl⟩

theorem overlapping_schedule : ∀ o ∈ overlapping, Schedule o.1 o.2 := by
  intro o ho
  have hfits : ∀ n, ∀ e ∈ List.replicate n readyEnv, e.other.Fits bus64.stbw := by
    intro n e he
    rw [List.eq_of_mem_replicate he]
    trivial
  simp only [overlapping, List.mem_cons, List.not_mem_nil, or_false] at ho
  rcases ho with rfl | rfl
  · exact ⟨hfits 5, [], readyEnv, List.replicate 3 readyEnv, [readyEnv], rfl, by simp, rfl, rfl,
      readyEnv, by simp, rfl⟩
  · exact ⟨hfits 4, [], readyEnv, List.replicate 2 readyEnv, [readyEnv], rfl, by simp, rfl, rfl,
      readyEnv, by simp, rfl⟩

/-- The read sees the two bytes between the zeros that were there. -/
theorem mmio_refines_overlapping :
    ∃ l', Loop.run defaultConf 0
        (⟨{ init with edges := 100 }, Ram.idle (fun _ => 0), [], []⟩ : Loop bus64) overlapping
      = some (l', [none, some 0xBBAA0000]) := by
  have hquiet : Quiet 100 (fun _ => 0) [] []
      (⟨{ init with edges := 100 }, Ram.idle (fun _ => 0), [], []⟩ : Loop bus64) :=
    { quiet_init _ with edges := Nat.le_refl _ }
  obtain ⟨l', hrun, _⟩ := mmio_refines (by decide) (by decide) overlapping
    overlapping_valid overlapping_schedule 0 _ hquiet
  refine ⟨l', hrun.trans ?_⟩
  have hres : specResults defaultConf (fun _ => 0) (overlapping.map Prod.fst)
      = [none, some 0xBBAA0000] := by decide
  rw [hres]

end QemuHdlSim
