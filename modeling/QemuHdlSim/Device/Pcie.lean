import QemuHdlSim.Bridge.Acc

/-!
# The QEMU device (`accelerator_pcie.c`)

The frames the MMIO callbacks send and how a read decodes its answer, and the handler that
serves the requests of the HDL side.

`serveFrame` is one iteration of the loop of `handle_hdl_request`: the new guest memory, the
frame sent on `hdl_resp` and the `msix_notify` call, if any. A `data_size` beyond the frame's
buffer makes `cpu_physical_memory_read` or `_write` leave the frame, which is `none`.
-/

namespace QemuHdlSim

open Infra

/-! ## MMIO callbacks -/

/-- The request frame of `mmio_write_bar##num`. -/
def mmioWriteReq (num : BitVec 8) (addr val : BitVec 64) (size : BitVec 32) (txid : BitVec 64) :
    ACCData :=
  { ACCData.zero with
    id := txid.setWidth 32
    barNum := num
    address := addr
    data := ACCData.zero.data.copyIn 0 (leByte val) 8
    op := .write
    dataSize := size }

/-- The request frame of `mmio_read_bar##num`. -/
def mmioReadReq (num : BitVec 8) (addr : BitVec 64) (size : BitVec 32) (txid : BitVec 64) :
    ACCData :=
  { ACCData.zero with
    id := txid.setWidth 32
    barNum := num
    address := addr
    op := .read
    dataSize := size }

/-- The `switch (size)` of `mmio_read_bar##num` on the answer; an unsupported size reads 0. -/
def mmioReadDecode (size : BitVec 32) (f : ACCData) : BitVec 64 :=
  match size.toNat with
  | 1 => BitVec.ofNat 64 (leVal f.data.get 1)
  | 2 => BitVec.ofNat 64 (leVal f.data.get 2)
  | 4 => BitVec.ofNat 64 (leVal f.data.get 4)
  | 8 => BitVec.ofNat 64 (leVal f.data.get 8)
  | _ => 0

/-! ## `handle_hdl_request` -/

/-- What serving one frame does. -/
structure Served where
  mem : Mem
  resp : List ACCData
  notify : List (BitVec 32)

/-- One iteration of the loop of `handle_hdl_request`, on the frame it received. -/
def serveFrame (mem : Mem) (f : ACCData) : Option Served :=
  let addr := f.address.toNat
  let size := f.dataSize.toNat
  match f.op with
  | .read =>
    if size ≤ buffSize then
      -- the frame itself is sent back, with the bytes read over its data (`ZFRAME_REUSE`)
      some ⟨mem, [{ f with data := f.data.copyIn 0 (fun k => mem (addr + k)) size }], []⟩
    else none
  | .write =>
    if size ≤ buffSize then some ⟨mem.store addr f.data.get size, [], []⟩ else none
  -- the vector is not compared with anything
  | .intr => some ⟨mem, [], [f.vector]⟩
  | .noop => some ⟨mem, [], []⟩
  | .init => some ⟨mem, [], []⟩

/-- What the device did to its surroundings: guest memory, `hdl_resp`, interrupts. -/
structure Host where
  mem : Mem
  hdlResp : List ACCData
  notified : List (BitVec 32)

/-- The effect of one served frame. -/
def Host.apply (h : Host) (r : Served) : Host where
  mem := r.mem
  hdlResp := h.hdlResp ++ r.resp
  notified := h.notified ++ r.notify

/-- `handle_hdl_request` with the frames `q` queued on `hdl_req`: it drains the queue. -/
def handleHdlRequest (h : Host) : List ACCData → Option Host
  | [] => some h
  | f :: q => (serveFrame h.mem f).bind fun r => handleHdlRequest (h.apply r) q

theorem serveFrame_write {mem : Mem} {f : ACCData} (hop : f.op = .write)
    (hs : f.dataSize.toNat ≤ buffSize) :
    serveFrame mem f
      = some ⟨mem.store f.address.toNat f.data.get f.dataSize.toNat, [], []⟩ := by
  unfold serveFrame
  rw [hop]
  exact if_pos hs

theorem serveFrame_read {mem : Mem} {f : ACCData} (hop : f.op = .read)
    (hs : f.dataSize.toNat ≤ buffSize) :
    serveFrame mem f = some ⟨mem, [{ f with
      data := f.data.copyIn 0 (fun k => mem (f.address.toNat + k)) f.dataSize.toNat }], []⟩ := by
  unfold serveFrame
  rw [hop]
  exact if_pos hs

theorem serveFrame_intr {mem : Mem} {f : ACCData} (hop : f.op = .intr) :
    serveFrame mem f = some ⟨mem, [], [f.vector]⟩ := by
  unfold serveFrame
  rw [hop]

theorem serveFrame_other {mem : Mem} {f : ACCData} (hop : f.op = .noop ∨ f.op = .init) :
    serveFrame mem f = some ⟨mem, [], []⟩ := by
  unfold serveFrame
  rcases hop with h | h <;> rw [h]

@[simp] theorem handleHdlRequest_nil (h : Host) : handleHdlRequest h [] = some h := rfl

theorem handleHdlRequest_cons (h : Host) (f : ACCData) (q : List ACCData) :
    handleHdlRequest h (f :: q)
      = (serveFrame h.mem f).bind fun r => handleHdlRequest (h.apply r) q := rfl

/-- Draining a queue is draining its front and then the rest. -/
theorem handleHdlRequest_append (h : Host) (q q' : List ACCData) :
    handleHdlRequest h (q ++ q') = (handleHdlRequest h q).bind (handleHdlRequest · q') := by
  induction q generalizing h with
  | nil => rfl
  | cons f q ih =>
    rw [List.cons_append, handleHdlRequest_cons, handleHdlRequest_cons]
    cases serveFrame h.mem f with
    | none => rfl
    | some r => exact ih (h.apply r)

/-! ## What a served queue leaves behind -/

/-- The frame is a `READ`. -/
def ACCData.isRead (f : ACCData) : Bool := decide (f.op = .read)

/-- The frame is a `WRITE`. -/
def ACCData.isWrite (f : ACCData) : Bool := decide (f.op = .write)

/-- The frame is an `INTR`. -/
def ACCData.isIntr (f : ACCData) : Bool := decide (f.op = .intr)

/-- A `WRITE` to a block with `x` in it. -/
def ACCData.Covers (f : ACCData) (x : Nat) : Prop :=
  f.op = .write ∧ f.address.toNat ≤ x ∧ x < f.address.toNat + f.dataSize.toNat

/-- The bytes a `READ` or `WRITE` moves fit the frame. -/
def ACCData.Fits (f : ACCData) : Prop :=
  f.op = .read ∨ f.op = .write → f.dataSize.toNat ≤ buffSize

/-- The answer to a `READ` when the guest memory is `mem`. -/
def readAnswer (mem : Mem) (f : ACCData) : ACCData :=
  { f with data := f.data.copyIn 0 (fun k => mem (f.address.toNat + k)) f.dataSize.toNat }

/-- What serving a frame can do. -/
theorem serveFrame_cases {mem : Mem} {f : ACCData} {r : Served} (h : serveFrame mem f = some r) :
    (f.op = .read ∧ f.dataSize.toNat ≤ buffSize ∧ r = ⟨mem, [readAnswer mem f], []⟩) ∨
      (f.op = .write ∧ f.dataSize.toNat ≤ buffSize ∧
        r = ⟨mem.store f.address.toNat f.data.get f.dataSize.toNat, [], []⟩) ∨
      (f.op = .intr ∧ r = ⟨mem, [], [f.vector]⟩) ∨
      ((f.op = .noop ∨ f.op = .init) ∧ r = ⟨mem, [], []⟩) := by
  cases hop : f.op with
  | read =>
    by_cases hs : f.dataSize.toNat ≤ buffSize
    · rw [serveFrame_read hop hs] at h
      cases h
      exact Or.inl ⟨rfl, hs, rfl⟩
    · simp [serveFrame, hop, hs] at h
  | write =>
    by_cases hs : f.dataSize.toNat ≤ buffSize
    · rw [serveFrame_write hop hs] at h
      cases h
      exact Or.inr (Or.inl ⟨rfl, hs, rfl⟩)
    · simp [serveFrame, hop, hs] at h
  | intr =>
    rw [serveFrame_intr hop] at h
    cases h
    exact Or.inr (Or.inr (Or.inl ⟨rfl, rfl⟩))
  | noop =>
    rw [serveFrame_other (Or.inl hop)] at h
    cases h
    exact Or.inr (Or.inr (Or.inr ⟨Or.inl rfl, rfl⟩))
  | init =>
    rw [serveFrame_other (Or.inr hop)] at h
    cases h
    exact Or.inr (Or.inr (Or.inr ⟨Or.inr rfl, rfl⟩))

/-- A frame that fits is served. -/
theorem serveFrame_of_fits (mem : Mem) {f : ACCData} (h : f.Fits) :
    ∃ r, serveFrame mem f = some r := by
  cases hop : f.op with
  | read => exact ⟨_, serveFrame_read hop (h (Or.inl hop))⟩
  | write => exact ⟨_, serveFrame_write hop (h (Or.inr hop))⟩
  | intr => exact ⟨_, serveFrame_intr hop⟩
  | noop => exact ⟨_, serveFrame_other (Or.inl hop)⟩
  | init => exact ⟨_, serveFrame_other (Or.inr hop)⟩

/-- A served frame adds one response for a `READ` and one `msix_notify` for an `INTR`. -/
theorem serveFrame_counts {mem : Mem} {f : ACCData} {r : Served}
    (h : serveFrame mem f = some r) :
    r.resp.length = [f].countP ACCData.isRead ∧
      r.notify = ([f].filter ACCData.isIntr).map ACCData.vector := by
  rcases serveFrame_cases h with ⟨hop, _, rfl⟩ | ⟨hop, _, rfl⟩ | ⟨hop, rfl⟩ | ⟨hop | hop, rfl⟩ <;>
    simp [ACCData.isRead, ACCData.isIntr, hop]

/-- A byte no served `WRITE` covers stays. -/
theorem serveFrame_mem {mem : Mem} {f : ACCData} {r : Served} (h : serveFrame mem f = some r)
    {x : Nat} (hx : ¬f.Covers x) : r.mem x = mem x := by
  rcases serveFrame_cases h with ⟨_, _, rfl⟩ | ⟨hop, _, rfl⟩ | ⟨_, rfl⟩ | ⟨_, rfl⟩
  · rfl
  · exact Mem.store_out fun hin => hx ⟨hop, hin⟩
  · rfl
  · rfl

theorem handleHdlRequest_cons_eq_some {h h' : Host} {f : ACCData} {q : List ACCData}
    (hq : handleHdlRequest h (f :: q) = some h') :
    ∃ r, serveFrame h.mem f = some r ∧ handleHdlRequest (h.apply r) q = some h' :=
  Option.bind_eq_some_iff.mp hq

theorem handleHdlRequest_append_eq_some {h h' : Host} {q q' : List ACCData}
    (hq : handleHdlRequest h (q ++ q') = some h') :
    ∃ m, handleHdlRequest h q = some m ∧ handleHdlRequest m q' = some h' := by
  rw [handleHdlRequest_append] at hq
  exact Option.bind_eq_some_iff.mp hq

/-- The responses and the interrupts of a served queue are added at the end, in order. -/
theorem handleHdlRequest_counts {h h' : Host} {q : List ACCData}
    (hq : handleHdlRequest h q = some h') :
    (∃ fs, h'.hdlResp = h.hdlResp ++ fs ∧ fs.length = q.countP ACCData.isRead) ∧
      h'.notified = h.notified ++ (q.filter ACCData.isIntr).map ACCData.vector := by
  induction q generalizing h with
  | nil =>
    cases hq
    exact ⟨⟨[], by simp, rfl⟩, by simp⟩
  | cons f q ih =>
    obtain ⟨r, hr, hrest⟩ := handleHdlRequest_cons_eq_some hq
    obtain ⟨⟨fs, hresp, hlen⟩, hnotified⟩ := ih hrest
    obtain ⟨hresp₁, hnotify₁⟩ := serveFrame_counts hr
    constructor
    · refine ⟨r.resp ++ fs, by rw [hresp, Host.apply, List.append_assoc], ?_⟩
      rw [List.length_append, hresp₁, hlen, ← List.countP_append, List.singleton_append]
    · rw [hnotified, Host.apply, hnotify₁, List.append_assoc, ← List.map_append,
        ← List.filter_append, List.singleton_append]

/-- **The answer to a `READ`** in a served queue: at the place its number among the `READ`s
says, with the memory the frames before it left. -/
theorem handleHdlRequest_response {h h' : Host} {q q' : List ACCData} {f : ACCData}
    (hq : handleHdlRequest h (q ++ f :: q') = some h') (hop : f.op = .read) :
    ∃ m, handleHdlRequest h q = some m ∧
      h'.hdlResp[h.hdlResp.length + q.countP ACCData.isRead]? = some (readAnswer m.mem f) := by
  obtain ⟨m, hm, hrest⟩ := handleHdlRequest_append_eq_some hq
  obtain ⟨r, hr, hrest⟩ := handleHdlRequest_cons_eq_some hrest
  obtain ⟨⟨fs, hresp, hlen⟩, _⟩ := handleHdlRequest_counts hm
  obtain ⟨⟨fs', hresp', _⟩, _⟩ := handleHdlRequest_counts hrest
  refine ⟨m, hm, ?_⟩
  rcases serveFrame_cases hr with ⟨_, _, rfl⟩ | ⟨hop', _⟩ | ⟨hop', _⟩ | ⟨hop' | hop', _⟩
  · have hpos : h.hdlResp.length + q.countP ACCData.isRead = m.hdlResp.length := by
      rw [hresp, List.length_append, hlen]
    rw [hresp', Host.apply, hpos]
    simp
  all_goals exact absurd (hop.symm.trans hop') (by decide)

theorem handleHdlRequest_mem {h h' : Host} {q : List ACCData}
    (hq : handleHdlRequest h q = some h') {x : Nat} (hx : ∀ f ∈ q, ¬f.Covers x) :
    h'.mem x = h.mem x := by
  induction q generalizing h with
  | nil =>
    cases hq
    rfl
  | cons f q ih =>
    obtain ⟨r, hr, hrest⟩ := handleHdlRequest_cons_eq_some hq
    rw [ih hrest (fun g hg => hx g (List.mem_cons_of_mem _ hg))]
    exact serveFrame_mem hr (hx f List.mem_cons_self)

/-- **The last `WRITE` of a byte is what the memory has.** -/
theorem handleHdlRequest_written {h h' : Host} {q q' : List ACCData} {w : ACCData}
    (hq : handleHdlRequest h (q ++ w :: q') = some h') {x : Nat} (hw : w.Covers x)
    (hx : ∀ f ∈ q', ¬f.Covers x) : h'.mem x = w.data.get (x - w.address.toNat) := by
  obtain ⟨m, _, hrest⟩ := handleHdlRequest_append_eq_some hq
  obtain ⟨r, hr, hrest⟩ := handleHdlRequest_cons_eq_some hrest
  obtain ⟨hop, hin⟩ := hw
  rw [handleHdlRequest_mem hrest hx]
  rcases serveFrame_cases hr with ⟨hop', _⟩ | ⟨_, _, rfl⟩ | ⟨hop', _⟩ | ⟨hop' | hop', _⟩
  · exact absurd (hop.symm.trans hop') (by decide)
  · exact Mem.store_in hin
  all_goals exact absurd (hop.symm.trans hop') (by decide)

end QemuHdlSim
