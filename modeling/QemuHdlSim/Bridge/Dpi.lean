import QemuHdlSim.Bridge.Acc
import QemuHdlSim.Infra.Loop

/-!
# The C side of the bridge (`dpi-pcie.c`)

The functions the HDL modules call through DPI. A function that touches an array out of range,
or shifts by too much, has undefined behaviour in C; here it is `none`.

Frames are built on the stack and not cleared (the `memset` is commented out), so every sender
takes the `ACCData` that happens to lie there as `stack` and only overwrites the fields the C
code assigns.

The outputs of `C_poll` are variables of `axi4_ip`: a branch that does not assign one leaves the
value it had.
-/

namespace QemuHdlSim

open Infra

/-! ## `log2c` -/

/-- `while (x >>= 1) log++`. A 64-bit word is zero after 64 shifts. -/
def log2cLoop : Nat → BitVec 64 → BitVec 8 → BitVec 8
  | 0, _, log => log
  | fuel + 1, x, log =>
    if x >>> 1 = 0 then log else log2cLoop fuel (x >>> 1) (log + 1)

/-- `log2c`; `x & x - 1` is `x & (x - 1)`. -/
def log2c (x : BitVec 64) : BitVec 8 := log2cLoop 64 x (if x &&& (x - 1) = 0 then 0 else 1)

/-! ## `C_poll` -/

/-- What `zpoller_wait` found: nothing, or a socket with the frame at its head. -/
inductive PollSock where
  | none
  | initsock
  | qemuReq (frame : ACCData)
  | hdlResp (frame : ACCData)

/-- The variables of `axi4_ip` that `C_poll` writes through its pointers. -/
structure PollVars where
  reqType : QEMUOp
  addr : BitVec 64
  len : BitVec 32
  size : BitVec 32
  strb : BitVec 64
  data : Buf buffSize

/-- The variables before the first `C_poll`. -/
def PollVars.zero : PollVars where
  reqType := .noop
  addr := 0
  len := 0
  size := 0
  strb := 0
  data := fun _ => 0

/-- The number of beats minus one of a `size`-byte access on a `busw`-byte bus. -/
def axiLen (busw size : Nat) : Nat :=
  if busw < size then (if size % busw ≠ 0 then size / busw else size / busw - 1) else 0

theorem axiLen_of_le {busw size : Nat} (h : size ≤ busw) : axiLen busw size = 0 := by
  unfold axiLen
  rw [if_neg (by omega)]

/-- The `qemu_req` branch of `C_poll`. -/
def cPollQemuReq (busw : Nat) (conf : ACCConf) (f : ACCData) (v : PollVars) : Option PollVars :=
  if h : f.barNum.toNat < 6 then
    let addr := f.address + (conf.bar ⟨f.barNum.toNat, h⟩).offset
    let size := f.dataSize.toNat
    let alignOffset := addr.toNat % busw
    let len := BitVec.ofNat 32 (axiLen busw size)
    let axiSize := (log2c (f.dataSize.setWidth 64)).setWidth 32
    match f.op with
    -- the strobes and the data stay as an earlier frame left them
    | .read => some { v with reqType := .mRd, addr := addr, len := len, size := axiSize }
    | _ =>
      -- `(1 << size) - 1` is computed in `int`
      if size < 31 then
        (v.data.memcpy? alignOffset f.data 0 (buffSize - alignOffset)).map fun d =>
          { reqType := .mWr, addr := addr, len := len, size := axiSize,
            strb := BitVec.ofNat 64 (2 ^ size - 1) <<< alignOffset, data := d }
      else none
  else none

/-- A read request: the data and the strobes stay. -/
theorem cPollQemuReq_of_read {busw : Nat} {conf : ACCConf} {f : ACCData} {v : PollVars}
    (hbar : f.barNum.toNat < 6) (hop : f.op = .read) :
    cPollQemuReq busw conf f v = some { v with
      reqType := .mRd
      addr := f.address + (conf.bar ⟨f.barNum.toNat, hbar⟩).offset
      len := BitVec.ofNat 32 (axiLen busw f.dataSize.toNat)
      size := (log2c (f.dataSize.setWidth 64)).setWidth 32 } := by
  simp only [cPollQemuReq, hop]
  rw [dif_pos hbar]

/-- A write request: the data and the strobes start at the lane of the address. -/
theorem cPollQemuReq_of_write {busw : Nat} (conf : ACCConf) {f : ACCData} (v : PollVars)
    (hbar : f.barNum.toNat < 6) (hop : f.op = .write) (hsize : f.dataSize.toNat < 31)
    (hbusw : 0 < busw ∧ busw ≤ buffSize) :
    let addr := f.address + (conf.bar ⟨f.barNum.toNat, hbar⟩).offset
    let off := addr.toNat % busw
    cPollQemuReq busw conf f v = some {
      reqType := .mWr
      addr := addr
      len := BitVec.ofNat 32 (axiLen busw f.dataSize.toNat)
      size := (log2c (f.dataSize.setWidth 64)).setWidth 32
      strb := BitVec.ofNat 64 (2 ^ f.dataSize.toNat - 1) <<< off
      data := v.data.copyIn off (fun j => f.data.get (0 + j)) (buffSize - off) } := by
  intro addr off
  have hoff : off < busw := Nat.mod_lt _ hbusw.1
  have hcopy : v.data.memcpy? off f.data 0 (buffSize - off) = some _ :=
    Buf.memcpy?_eq_some _ _ (by omega) (by omega)
  simp only [cPollQemuReq, hop]
  rw [dif_pos hbar, if_pos hsize]
  show Option.map _ (v.data.memcpy? off f.data 0 (buffSize - off)) = _
  rw [hcopy]
  rfl

/-- The request that is handed on, whatever the frame is. -/
theorem cPollQemuReq_eq_some {busw : Nat} {conf : ACCConf} {f : ACCData} {v v' : PollVars}
    (h : cPollQemuReq busw conf f v = some v') :
    v'.reqType = (if f.op = .read then .mRd else .mWr) ∧
      v'.len = BitVec.ofNat 32 (axiLen busw f.dataSize.toNat) ∧
      v'.size = (log2c (f.dataSize.setWidth 64)).setWidth 32 := by
  -- the guards of the branch, one by one
  simp only [cPollQemuReq] at h
  split at h
  · split at h
    · next hop =>
      cases h
      exact ⟨(if_pos hop).symm, rfl, rfl⟩
    · next hop =>
      split at h
      · obtain ⟨d, _, rfl⟩ := Option.map_eq_some_iff.mp h
        exact ⟨(if_neg hop).symm, rfl, rfl⟩
      · exact absurd h (by simp)
  · exact absurd h (by simp)

/-- The `hdl_resp` branch of `C_poll`. -/
def cPollHdlResp (busw : Nat) (f : ACCData) (v : PollVars) : Option PollVars :=
  let size := f.dataSize.toNat
  let alignOffset := f.address.toNat % busw
  (v.data.memcpy? alignOffset f.data 0 size).map fun d => { v with reqType := .sRd, data := d }

theorem cPollHdlResp_eq {busw : Nat} {f : ACCData} {v : PollVars}
    (h : f.address.toNat % busw + f.dataSize.toNat ≤ buffSize) :
    cPollHdlResp busw f v = some { v with
      reqType := .sRd
      data := v.data.copyIn (f.address.toNat % busw) f.data.get f.dataSize.toNat } := by
  simp only [cPollHdlResp]
  rw [Buf.memcpy?_eq_some _ _ h (by omega)]
  simp only [Nat.zero_add, Option.map_some]

/-- `C_poll`: the new variables, and the frame sent on `initsock2` if one was. -/
def cPoll (busw : Nat) (conf : ACCConf) (sock : PollSock) (v : PollVars) :
    Option (PollVars × Option ACCConf) :=
  match sock with
  | .none => some ({ v with reqType := .noop }, none)
  | .initsock => some ({ v with reqType := .noop }, some conf)
  | .qemuReq f => (cPollQemuReq busw conf f v).map fun v' => (v', none)
  | .hdlResp f => (cPollHdlResp busw f v).map fun v' => (v', none)

/-- What `C_poll` reports, for what it found. -/
theorem cPoll_reqType {busw : Nat} {conf : ACCConf} {sock : PollSock} {v v' : PollVars}
    {r : Option ACCConf} (h : cPoll busw conf sock v = some (v', r)) :
    v'.reqType = match sock with
      | .none => .noop
      | .initsock => .noop
      | .qemuReq f => if f.op = .read then .mRd else .mWr
      | .hdlResp _ => .sRd := by
  cases sock with
  | none =>
    cases h
    rfl
  | initsock =>
    cases h
    rfl
  | hdlResp f =>
    obtain ⟨w, hw, heq⟩ := Option.map_eq_some_iff.mp h
    cases heq
    obtain ⟨d, _, rfl⟩ := Option.map_eq_some_iff.mp hw
    rfl
  | qemuReq f =>
    obtain ⟨w, hw, heq⟩ := Option.map_eq_some_iff.mp h
    cases heq
    exact (cPollQemuReq_eq_some hw).1

/-! ## Requests and responses of the HDL side -/

/-- The byte count `(len + 1) * (1 << width)` of a burst, as the `uint32_t` of a frame. -/
def burstSize (width len : Nat) : BitVec 32 := BitVec.ofNat 32 ((len + 1) * 2 ^ width)

/-- A burst that fits the buffer does not overflow the `uint32_t`. -/
theorem burstSize_toNat {width len : Nat} (h : (len + 1) * 2 ^ width ≤ buffSize) :
    (burstSize width len).toNat = (len + 1) * 2 ^ width := by
  unfold burstSize
  rw [BitVec.toNat_ofNat]
  exact Nat.mod_eq_of_lt (Nat.lt_of_le_of_lt h (by decide))

/-- `C_req_read`. -/
def cReqRead (stack : ACCData) (addr : BitVec 64) (width len : Nat) (id : BitVec 32) : ACCData :=
  { stack with dataSize := burstSize width len, address := addr, op := .read, id := id }

/-- `C_resp_read`. -/
def cRespRead (busw : Nat) (stack : ACCData) (addr : BitVec 64) (data : Buf buffSize) :
    Option ACCData :=
  let alignOffset := addr.toNat % busw
  (stack.data.memcpy? 0 data alignOffset (buffSize - alignOffset)).map fun d =>
    { stack with data := d }

/-- The frame `C_resp_read` sends: the data from the lane of the address on. -/
def respReadFrame (busw : Nat) (stack : ACCData) (addr : BitVec 64) (data : Buf buffSize) :
    ACCData :=
  { stack with
    data := stack.data.copyIn 0 (fun j => data.get (addr.toNat % busw + j))
      (buffSize - addr.toNat % busw) }

/-- The copy starts inside the bus word, so it never leaves the buffer. -/
theorem cRespRead_eq {busw : Nat} (h : 0 < busw ∧ busw ≤ buffSize) (stack : ACCData)
    (addr : BitVec 64) (data : Buf buffSize) :
    cRespRead busw stack addr data = some (respReadFrame busw stack addr data) := by
  have hlt : addr.toNat % busw < busw := Nat.mod_lt _ h.1
  simp only [cRespRead]
  rw [Buf.memcpy?_eq_some _ _ (by omega) (by omega)]
  rfl

theorem respReadFrame_get {busw : Nat} {stack : ACCData} {addr : BitVec 64} {data : Buf buffSize}
    {k : Nat} (hk : addr.toNat % busw + k < buffSize) :
    (respReadFrame busw stack addr data).data.get k = data.get (addr.toNat % busw + k) := by
  unfold respReadFrame
  rw [Buf.get_copyIn _ _ _ _ (by omega), if_pos ⟨by omega, by omega⟩, Nat.sub_zero]

/-- `C_resp_write`: the frame is whatever lies on the stack. -/
def cRespWrite (stack : ACCData) : ACCData := stack

/-- The variables of the packing loops of `C_req_write`: `acc.data`, `k` and `strb[i]`. -/
structure PackState where
  acc : Buf buffSize
  k : Nat
  strb : BitVec 64

/-- One iteration of the inner loop:
`if (strb[i] & 1) acc.data[k++] = data[i*BUSW+j]; strb[i] >>= 1`. -/
def packLane (busw : Nat) (data : Buf buffSize) (i j : Nat) (st : PackState) :
    Option PackState :=
  if st.strb.getLsbD 0 then
    (data.get? (i * busw + j)).bind fun x =>
      (st.acc.set? st.k x).map fun acc => { acc := acc, k := st.k + 1, strb := st.strb >>> 1 }
  else some { st with strb := st.strb >>> 1 }

/-- One iteration of the outer loop, over the lanes of beat `i`. -/
def packBeat {n : Nat} (busw : Nat) (data : Buf buffSize) (strb : Fin n → BitVec 64) (i : Nat)
    (st : PackState) : Option PackState :=
  if h : i < n then loopM (packLane busw data i) busw { st with strb := strb ⟨i, h⟩ } else none

/-- `C_req_write`. -/
def cReqWrite {n : Nat} (busw : Nat) (stack : ACCData) (addr : BitVec 64) (width len : Nat)
    (data : Buf buffSize) (strb : Fin n → BitVec 64) : Option ACCData :=
  (loopM (packBeat busw data strb) (len + 1) ⟨stack.data, 0, 0⟩).map fun st =>
    -- the size is that of the burst, however many lanes were strobed
    { stack with dataSize := burstSize width len, address := addr, op := .write, data := st.acc }

theorem cReqWrite_op {n busw width len : Nat} {stack f : ACCData} {addr : BitVec 64}
    {data : Buf buffSize} {strb : Fin n → BitVec 64}
    (h : cReqWrite busw stack addr width len data strb = some f) : f.op = .write := by
  obtain ⟨st, _, rfl⟩ := Option.map_eq_some_iff.mp h
  rfl

/-- `C_req_interrupt`. -/
def cReqInterrupt (stack : ACCData) (vector : BitVec 32) : ACCData :=
  { stack with op := .intr, vector := vector }

end QemuHdlSim
