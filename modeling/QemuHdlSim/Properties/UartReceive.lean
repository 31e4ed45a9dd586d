import QemuHdlSim.Device.Serial
import QemuHdlSim.Infra.Lists
import QemuHdlSim.Properties.UartRead

/-!
# What a read of `RX_FIFO` returns

The character backend delivers bytes one at a time, and `serial_rx` sends each as a frame of one
byte. `C_uart_rx` reads a word of four bytes out of that frame. So no read that finds a frame is
right (`uartReceive_iff`): three of its bytes lie behind the frame. The low bytes are right, though:
they are what the backend delivered, in order and each once.
-/

namespace QemuHdlSim.AxiLiteSR

open Infra Uart Serial

/-- A frame `serial_rx` sends for what the backend delivers in one call. -/
def FromBackend (f : Frame) : Prop := ∃ buf : List Byte, buf.length = serialCanRx ∧ f = serialRx buf

/-- What a read comes to. -/
inductive Asked where
  /-- `RX_FIFO`, with a frame on `uart_rx`. -/
  | found (f : Frame)
  /-- `RX_FIFO`, with no frame. -/
  | empty
  /-- Another register. -/
  | other

/-- The read of this cycle, if there is one. -/
def asked (s : State) (c : Cycle) : List Asked :=
  if c.inp.iSArvalid then
    if c.inp.reg = some .rxFifo then
      match s.uartRx ++ c.arrives with
      | f :: _ => [.found f]
      | [] => [.empty]
    else [.other]
  else []

/-- The reads of a run that were answered, each with the data of its R handshake. -/
def answers (tr : Trace) : List (Asked × Option (BitVec 32)) :=
  (events asked tr).zip (events rHandshake tr)

/-- The frame a read found. -/
def Asked.frame? : Asked → Option Frame
  | .found f => some f
  | _ => none

/-- The data of an answer to a read that found a frame. -/
def foundWord? (x : Asked × Option (BitVec 32)) : Option (BitVec 32) := x.1.frame?.bind fun _ => x.2

/-- The data words returned by the reads that found a frame. -/
def foundWords (tr : Trace) : List (BitVec 32) := (answers tr).filterMap foundWord?

/-- The bytes the backend delivered before the run and in it. -/
def delivered (uartRx : List Frame) (tr : Trace) : List Byte :=
  (uartRx ++ events (fun _ c => c.arrives) tr).flatten

/-- Reads of `RX_FIFO` return what the backend delivered. -/
structure Receives (bytes : List Byte) (tr : Trace) : Prop where
  /-- `C_uart_rx` reads no byte outside the frame. -/
  inFrame : ∀ c ∈ tr, ∀ f ∈ popped c.1 c.2, ∀ k < 4, k < f.length
  /-- The words are the bytes, zero-extended, in order and each once. -/
  words : foundWords tr <+: bytes.map fun b => b.setWidth 32
  /-- A read that finds no frame does not return again what an earlier read returned. -/
  fresh : ∀ pre w post, answers tr = pre ++ (.empty, w) :: post →
    ∀ f w', (Asked.found f, w') ∈ pre → w ≠ w'

/-! ## The answers -/

/-- The read of this cycle with what it will be answered with. -/
def reads (s : State) (c : Cycle) : List (Asked × Option (BitVec 32)) :=
  (asked s c).zip (arHandshake s c)

/-- Every address is a read. -/
theorem length_asked (s : State) (c : Cycle) : (asked s c).length = (arHandshake s c).length := by
  unfold asked arHandshake
  cases c.inp.iSArvalid with
  | false => rfl
  | true =>
    simp only [if_true]
    split
    · split <;> rfl
    · rfl

theorem map_fst_reads (tr : Trace) : (events reads tr).map Prod.fst = events asked tr := by
  unfold events
  rw [List.map_flatMap]
  refine List.flatMap_congr fun c _ => ?_
  exact List.map_fst_zip (Nat.le_of_eq (length_asked c.1 c.2))

theorem map_snd_reads (tr : Trace) : (events reads tr).map Prod.snd = events arHandshake tr := by
  unfold events
  rw [List.map_flatMap]
  refine List.flatMap_congr fun c _ => ?_
  exact List.map_snd_zip (Nat.le_of_eq (length_asked c.1 c.2).symm)

/-- A read that finds a frame takes it, and is answered with its word. -/
theorem reads_spec (s : State) (c : Cycle) :
    ((reads s c).filterMap fun x => x.1.frame?) = popped s c ∧
      ∀ x ∈ reads s c, ∀ f, x.1 = .found f → x.2 = some (frameWord c.inp.rx.behind f) := by
  unfold reads asked arHandshake popped
  cases c.inp.iSArvalid with
  | false => simp
  | true =>
    by_cases hreg : c.inp.reg = some .rxFifo
    · cases hq : s.uartRx ++ c.arrives with
      | nil => simp [hreg, Asked.frame?]
      | cons f rest => simp [hreg, Asked.frame?, readReg, cUartRx]
    · simp [hreg, Asked.frame?]

theorem fromBackend_eq {f : Frame} (h : FromBackend f) : ∃ b, f = [b] := by
  obtain ⟨buf, hlen, rfl⟩ := h
  exact List.length_eq_one_iff.mp hlen

section Runs

variable {sRdata : BitVec 32} {uartRx : List Frame} {tr : Trace} {s' : State}

/-- The answers are the reads, in order, as far as they were answered. -/
theorem prefix_of_answers (h : Run (afterReset sRdata uartRx) tr s')
    (ha : ∀ c ∈ tr, Answerable c.1 c.2) : answers tr <+: events reads tr := by
  unfold answers
  rw [← map_fst_reads]
  refine zip_prefix ?_
  rw [map_snd_reads, (protocol_of_answerable h ha).answered]
  exact List.prefix_append _ _

/-- Frames are taken off the queue in the order they arrive. -/
theorem popped_run {s : State} (h : Run s tr s') :
    s.uartRx ++ events (fun _ c => c.arrives) tr = events popped tr ++ s'.uartRx :=
  h.1.conserve (P := fun _ _ => True) trivial (fun _ _ => trivial)
    fun s c _ _ _ hb => ⟨trivial, hb ▸ (popped_step s c).1⟩

/-- The frames the reads found are those that were taken off the queue, -/
theorem found_reads (tr : Trace) :
    (events reads tr).filterMap (fun x => x.1.frame?) = events popped tr := by
  unfold events
  rw [List.filterMap_flatMap]
  exact List.flatMap_congr fun c _ => (reads_spec c.1 c.2).1

/-- and so the first ones that arrived. -/
theorem prefix_of_found (h : Run (afterReset sRdata uartRx) tr s') :
    (events reads tr).filterMap (fun x => x.1.frame?)
      <+: uartRx ++ events (fun _ c => c.arrives) tr := by
  have hlaw : uartRx ++ events (fun _ c => c.arrives) tr = events popped tr ++ s'.uartRx :=
    popped_run h
  rw [found_reads, hlaw]
  exact List.prefix_append _ _

/-- The low bytes of the words are the bytes of the frames. -/
theorem low_foundWords {l : List (Asked × Option (BitVec 32))}
    (h : ∀ x ∈ l, ∀ f, x.1 = .found f → FromBackend f ∧ ∃ behind, x.2 = some (frameWord behind f)) :
    (l.filterMap foundWord?).map (fun w => w.setWidth 8)
      = (l.filterMap fun x => x.1.frame?).flatten := by
  induction l with
  | nil => rfl
  | cons x l ih =>
    have hrest := ih fun y hy => h y (List.mem_cons_of_mem _ hy)
    obtain ⟨a, w⟩ := x
    cases a with
    | empty => exact hrest
    | other => exact hrest
    | found f =>
      obtain ⟨hf, behind, hw⟩ := h _ List.mem_cons_self f rfl
      obtain ⟨b, rfl⟩ := fromBackend_eq hf
      have hword : foundWord? (.found [b], w) = some (frameWord behind [b]) := hw
      rw [List.filterMap_cons_some hword, List.map_cons, frameWord_low, hrest]
      rfl

/-- An answer to a read that found a frame has its word. -/
theorem found_answers (h : Run (afterReset sRdata uartRx) tr s')
    (ha : ∀ c ∈ tr, Answerable c.1 c.2)
    (hin : ∀ f ∈ uartRx ++ events (fun _ c => c.arrives) tr, FromBackend f) :
    ∀ x ∈ answers tr, ∀ f, x.1 = .found f →
      FromBackend f ∧ ∃ behind, x.2 = some (frameWord behind f) := by
  intro x hx f hf
  have hmem : x ∈ events reads tr := (prefix_of_answers h ha).subset hx
  refine ⟨hin f ((prefix_of_found h).subset ?_), ?_⟩
  · exact List.mem_filterMap.mpr ⟨x, hmem, by rw [hf]; rfl⟩
  · obtain ⟨c, _, hxc⟩ := List.mem_flatMap.mp hmem
    exact ⟨_, (reads_spec c.1 c.2).2 x hxc f hf⟩

/-- **The low bytes** of the words are what the backend delivered, in order and each once. -/
theorem lowBytes_prefix (h : Run (afterReset sRdata uartRx) tr s')
    (ha : ∀ c ∈ tr, Answerable c.1 c.2)
    (hin : ∀ f ∈ uartRx ++ events (fun _ c => c.arrives) tr, FromBackend f) :
    (foundWords tr).map (fun w => w.setWidth 8) <+: delivered uartRx tr := by
  unfold foundWords
  rw [low_foundWords (found_answers h ha hin)]
  exact (((prefix_of_answers h ha).filterMap _).trans (prefix_of_found h)).flatten

/-- Where no read finds a frame there is nothing to be wrong. -/
theorem receives_of_none (h : Run (afterReset sRdata uartRx) tr s')
    (ha : ∀ c ∈ tr, Answerable c.1 c.2) (hnone : ∀ c ∈ tr, popped c.1 c.2 = [])
    (bytes : List Byte) : Receives bytes tr := by
  have hno : ∀ x ∈ answers tr, ∀ f, x.1 ≠ .found f := by
    intro x hx f hf
    obtain ⟨c, hc, hxc⟩ := List.mem_flatMap.mp ((prefix_of_answers h ha).subset hx)
    have hmem : f ∈ popped c.1 c.2 := by
      rw [← (reads_spec c.1 c.2).1]
      exact List.mem_filterMap.mpr ⟨x, hxc, by rw [hf]; rfl⟩
    rw [hnone c hc] at hmem
    exact absurd hmem List.not_mem_nil
  refine ⟨fun c hc f hf => ?_, ?_, fun pre w post heq f w' hmem => ?_⟩
  · rw [hnone c hc] at hf
    exact absurd hf List.not_mem_nil
  · have hwords : foundWords tr = [] := by
      refine List.filterMap_eq_nil_iff.mpr fun x hx => ?_
      unfold foundWord?
      cases hx1 : x.1 with
      | found f => exact absurd hx1 (hno x hx f)
      | empty => rfl
      | other => rfl
    rw [hwords]
    exact List.nil_prefix
  · refine absurd rfl (hno (.found f, w') ?_ f)
    rw [heq]
    exact List.mem_append_left _ hmem

/--
**When reads return what was delivered.** In any run after reset in which every read is answered
before the next one, and every frame is one the backend delivered: exactly when no read finds a
frame. What is right in every such run are the low bytes.
-/
theorem uartReceive_iff (h : Run (afterReset sRdata uartRx) tr s')
    (ha : ∀ c ∈ tr, Answerable c.1 c.2)
    (hin : ∀ f ∈ uartRx ++ events (fun _ c => c.arrives) tr, FromBackend f) :
    (Receives (delivered uartRx tr) tr ↔ ∀ c ∈ tr, popped c.1 c.2 = []) ∧
      (foundWords tr).map (fun w => w.setWidth 8) <+: delivered uartRx tr := by
  refine ⟨⟨fun hreceives c hc => ?_, fun hnone => receives_of_none h ha hnone _⟩,
    lowBytes_prefix h ha hin⟩
  refine List.eq_nil_iff_forall_not_mem.mpr fun f hf => ?_
  -- a frame of one byte has no second one
  have hmem : f ∈ uartRx ++ events (fun _ c => c.arrives) tr := by
    refine (prefix_of_found h).subset (List.mem_filterMap.mpr ?_)
    have hpop := (reads_spec c.1 c.2).1
    rw [← hpop] at hf
    obtain ⟨x, hx, hxf⟩ := List.mem_filterMap.mp hf
    exact ⟨x, List.mem_flatMap.mpr ⟨c, hc, hx⟩, hxf⟩
  obtain ⟨b, rfl⟩ := fromBackend_eq (hin f hmem)
  exact absurd (hreceives.inFrame c hc _ hf 1 (by decide)) (by simp)

end Runs

/-! ## Two reads of one byte -/

/-- A read of `RX_FIFO` (or none), when `0xFF` lies behind a frame and the caller otherwise gets
`unwritten`. -/
def rxCycle (arvalid : Bool) (unwritten : BitVec 32) (arrives : List Frame) : Cycle where
  inp := {
    iRstN := true
    iSAraddr := 0x0
    iSArvalid := arvalid
    iSRready := true
    iStat := 5
    rx := ⟨fun _ => 0xFF, unwritten⟩ }
  arrives := arrives

/-- A byte arrives and is read, and there is a second read; its caller keeps what it had. -/
def twoReads : List Cycle :=
  [rxCycle true 0 [serialRx [0x41]], rxCycle true 0xFFFFFF41 [], rxCycle false 0 []]

theorem answerable_twoReads :
    ∀ c ∈ traceOf step (afterReset 0 []) twoReads, Answerable c.1 c.2 := by
  simp [twoReads, traceOf, Answerable, rxCycle, Input.reg]
  decide

theorem fromBackend_twoReads :
    ∀ f ∈ [] ++ events (fun _ c => c.arrives) (traceOf step (afterReset 0 []) twoReads),
      FromBackend f := by
  simp [twoReads, traceOf, rxCycle, FromBackend, serialRx, serialCanRx]

/-- There is nothing yet when it is read; the byte arrives then. -/
def earlyRead : List Cycle := [rxCycle true 0 [], rxCycle false 0 [serialRx [0x41]]]

theorem uartReceive_earlyRead :
    Receives (delivered [] (traceOf step (afterReset 0 []) earlyRead))
        (traceOf step (afterReset 0 []) earlyRead) ∧
      delivered [] (traceOf step (afterReset 0 []) earlyRead) = [0x41] ∧
      (foundWords (traceOf step (afterReset 0 []) twoReads)).map (fun w => w.setWidth 8)
        <+: [0x41] := by
  refine ⟨(uartReceive_iff (.of_traceOf (by simp [earlyRead, rxCycle]) _) ?_ ?_).1.mpr ?_,
    by decide, (uartReceive_iff (.of_traceOf (by simp [twoReads, rxCycle]) _) answerable_twoReads
      fromBackend_twoReads).2⟩
  · simp [earlyRead, traceOf, Answerable, rxCycle, Input.reg]
    decide
  · simp [earlyRead, traceOf, rxCycle, FromBackend, serialRx, serialCanRx]
  · intro c hc
    simp only [earlyRead, traceOf, List.mem_cons, List.not_mem_nil, or_false] at hc
    rcases hc with rfl | rfl <;> rfl

/-- **The byte `0x41` is read** with three bytes from behind the frame, and then once more. -/
theorem not_receives_twoReads :
    (∀ c ∈ traceOf step (afterReset 0 []) twoReads, Answerable c.1 c.2) ∧
      delivered [] (traceOf step (afterReset 0 []) twoReads) = [0x41] ∧
      events rHandshake (traceOf step (afterReset 0 []) twoReads)
        = [some 0xFFFFFF41, some 0xFFFFFF41] ∧
      ¬Receives (delivered [] (traceOf step (afterReset 0 []) twoReads))
        (traceOf step (afterReset 0 []) twoReads) := by
  refine ⟨answerable_twoReads, by decide, by decide, fun h => ?_⟩
  exact absurd (h.inFrame (afterReset 0 [], rxCycle true 0 [serialRx [0x41]]) List.mem_cons_self
    [0x41] (by decide) 1 (by decide)) (by decide)

end QemuHdlSim.AxiLiteSR
