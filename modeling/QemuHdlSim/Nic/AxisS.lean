import QemuHdlSim.Bridge.Acc
import QemuHdlSim.Infra.Path
import QemuHdlSim.Infra.Stream

/-!
# The stream slave (`axis_s.sv`)

One step is one rising clock edge; every register samples values from before the edge.
`s_axis_tready` is constantly high, so every cycle with `tvalid` is a transfer. `COMBO_SEND` looks
at a beat only when some lane is kept; it writes the kept bytes behind those it has, and on `tlast`
it hands what it has to `C_send_packet`.

* `Collects` — the bytes of the packet so far are in the buffer, as long as they fit it
* `Tracks` — what the registers know of the packet that is not through
* `step_law`, `run_law` — what is handed over are the packets of the stream without the beats that
  keep no lane
-/

namespace QemuHdlSim.AxisS

open Infra Infra.Stream

variable {w : Nat}

/-- `r_state`. -/
inductive RecvState where
  | idle
  | data
  deriving DecidableEq, Repr

/-- The registers; also the `n_*` values of the next edge. -/
structure Regs where
  state : RecvState
  len : BitVec 8
  dataTmp : Buf buffSize
  size : BitVec 32

/-- The inputs of one cycle. -/
structure Input (w : Nat) where
  aresetn : Bool
  tvalid : Bool
  beat : Beat w

/-- The arguments of `C_send_packet`. -/
structure SendCall where
  id : BitVec 32
  len : BitVec 32
  data : Buf buffSize

/-- The registers after a reset, which leaves `r_data_tmp` as it is. -/
def afterReset (d : Buf buffSize) : Regs := ⟨.idle, 0, d, 0⟩

/-- `n_data_tmp` and `n_size`. -/
structure Store where
  data : Buf buffSize
  size : BitVec 32

/-- The body of the loop over the lanes. -/
def storeLane (b : Beat w) (s : Store) (i : Nat) : Store :=
  if b.keep.getLsbD i then ⟨s.data.set s.size.toNat (b.lane i), s.size + 1⟩ else s

/-- The loop over the lanes. -/
def storeBeat (b : Beat w) (s : Store) : Store := (List.range w).foldl (storeLane b) s

/-- `n_data_tmp` and `n_size` before the beat is looked at. -/
def Regs.store (r : Regs) : Store := ⟨r.dataTmp, if r.state = .idle then 0 else r.size⟩

/-- The beat that `COMBO_SEND` looks at in this cycle. -/
def Input.taken (i : Input w) : Bool := i.tvalid && decide (i.beat.keep ≠ 0)

/-- `COMBO_SEND`: the `n_*` values and `send_pkt`. -/
def comboSend (r : Regs) (i : Input w) : Regs × Bool :=
  let nLen := if r.state = .idle then 0 else r.len
  -- a beat that keeps no lane is not looked at, and so neither is its `tlast`
  if i.taken then
    let s := storeBeat i.beat r.store
    if i.beat.last then (⟨.idle, nLen, s.data, s.size⟩, true)
    else (⟨.data, r.len + 1, s.data, s.size⟩, false)
  else (⟨r.state, nLen, r.store.data, r.store.size⟩, false)

/-- `FF_SEND`. -/
def step (r : Regs) (i : Input w) : Regs :=
  if i.aresetn then (comboSend r i).1 else ⟨.idle, 0, r.dataTmp, 0⟩

/-- `DPI`: the call of this cycle, if there is one. -/
def calls (r : Regs) (i : Input w) : List SendCall :=
  if (comboSend r i).2 then [⟨0, (comboSend r i).1.size, (comboSend r i).1.dataTmp⟩] else []

/-- The beat that is transferred in this cycle, if there is one. -/
def Input.beats (i : Input w) : List (Beat w) := if i.tvalid then [i.beat] else []

/-- The indices of `n_data_tmp` that this cycle writes. -/
def storeIndices (r : Regs) (i : Input w) : List Nat :=
  if i.taken then
    events (fun (s : Store) j => if i.beat.keep.getLsbD j then [s.size.toNat] else [])
      (traceOf (storeLane i.beat) r.store (List.range w))
  else []

/-- The bytes the callee finds. -/
def SendCall.payload (c : SendCall) : List Byte := (List.range c.len.toNat).map c.data.get

theorem SendCall.length_payload (c : SendCall) : c.payload.length = c.len.toNat := by
  simp [SendCall.payload]

/-! ## The buffer -/

/-- The buffer has the bytes `l`, as long as they fit it. -/
def Collects (s : Store) (l : List Byte) : Prop :=
  l.length ≤ buffSize → s.size.toNat = l.length ∧ (List.range l.length).map s.data.get = l

/-- One byte more. -/
theorem Collects.snoc {s : Store} {l : List Byte} (h : Collects s l) (x : Byte) :
    Collects ⟨s.data.set s.size.toNat x, s.size + 1⟩ (l ++ [x]) := by
  have hb := buffSize_eq
  intro hle
  rw [List.length_append, List.length_singleton] at hle
  obtain ⟨hsize, hdata⟩ := h (by omega)
  rw [List.length_append, List.length_singleton]
  constructor
  · rw [BitVec.toNat_add, hsize, show (1 : BitVec 32).toNat = 1 from rfl,
      Nat.mod_eq_of_lt (by omega)]
  · -- the bytes before it are where they were
    have hold : (List.range l.length).map (s.data.set s.size.toNat x).get = l := by
      conv => rhs; rw [← hdata]
      refine List.map_congr_left fun k hk => ?_
      have hlt := List.mem_range.mp hk
      rw [Buf.get_set _ _ _ _ (by omega), if_neg (by omega)]
    rw [List.range_succ, List.map_append, hold, List.map_singleton, hsize,
      Buf.get_set _ _ _ _ (by omega), if_pos rfl]

theorem Collects.foldl_storeLane (b : Beat w) (lanes : List Nat) {s : Store} {l : List Byte}
    (h : Collects s l) :
    Collects (lanes.foldl (storeLane b) s)
      (l ++ lanes.filterMap fun j => if b.keep.getLsbD j then some (b.lane j) else none) := by
  induction lanes generalizing s l with
  | nil => simpa using h
  | cons j lanes ih =>
    rw [List.foldl_cons]
    unfold storeLane
    cases hk : b.keep.getLsbD j with
    | false =>
      rw [if_neg (by simp), List.filterMap_cons_none (by simp [hk])]
      exact ih h
    | true =>
      rw [if_pos rfl, List.filterMap_cons_some (b := b.lane j) (by simp [hk])]
      have hnext := ih (h.snoc (b.lane j))
      rwa [List.append_assoc, List.singleton_append] at hnext

/-- **A beat puts its bytes behind those that are there.** -/
theorem Collects.storeBeat {s : Store} {l : List Byte} (h : Collects s l) (b : Beat w) :
    Collects (storeBeat b s) (l ++ b.bytes) := h.foldl_storeLane b (List.range w)

/-! ## The packet that is not through -/

/-- The registers know the beats `rest`. -/
structure Tracks (r : Regs) (rest : List (Beat w)) : Prop where
  idle : r.state = .idle ↔ rest = []
  collects : Collects r.store (payload rest)

theorem tracks_afterReset (d : Buf buffSize) : Tracks (w := w) (afterReset d) [] where
  idle := iff_of_true rfl rfl
  collects := fun _ => ⟨rfl, rfl⟩

/-- The call hands over the packet `q`, if that fits the buffer. -/
def SendCall.Hands (c : SendCall) (q : List (Beat w)) : Prop :=
  (Stream.payload q).length ≤ buffSize → c.payload = Stream.payload q

/-- A cycle without a beat, or with one that keeps no lane. -/
theorem step_of_not_taken {r : Regs} {i : Input w} {rest : List (Beat w)} (hr : i.aresetn = true)
    (ht : i.taken = false) (h : Tracks r rest) : Tracks (step r i) rest ∧ calls r i = [] := by
  have hstep : step r i = ⟨r.state, if r.state = .idle then 0 else r.len, r.store.data,
      r.store.size⟩ := by
    simp [step, comboSend, hr, ht]
  have hstore : (step r i).store = r.store := by
    rw [hstep]
    unfold Regs.store
    by_cases hs : r.state = .idle
    · simp [hs]
    · simp [hs]
  refine ⟨⟨?_, ?_⟩, by simp [calls, comboSend, ht]⟩
  · rw [hstep]
    exact h.idle
  · rw [hstore]
    exact h.collects

/-- A beat inside a packet. -/
theorem step_of_open {r : Regs} {i : Input w} {rest : List (Beat w)} (hr : i.aresetn = true)
    (ht : i.taken = true) (hl : i.beat.last = false) (h : Tracks r rest) :
    Tracks (step r i) (rest ++ [i.beat]) ∧ calls r i = [] := by
  have hstep : step r i = ⟨.data, r.len + 1, (storeBeat i.beat r.store).data,
      (storeBeat i.beat r.store).size⟩ := by
    simp [step, comboSend, hr, ht, hl]
  refine ⟨⟨?_, ?_⟩, by simp [calls, comboSend, ht, hl]⟩
  · rw [hstep]
    simp
  · rw [hstep, payload_snoc]
    exact h.collects.storeBeat i.beat

/-- **The last beat of a packet**: what was collected is handed over. -/
theorem step_of_last {r : Regs} {i : Input w} {rest : List (Beat w)} (hr : i.aresetn = true)
    (ht : i.taken = true) (hl : i.beat.last = true) (h : Tracks r rest) :
    Tracks (w := w) (step r i) [] ∧
      ∃ c : SendCall, calls r i = [c] ∧ c.id = 0 ∧ c.Hands (rest ++ [i.beat]) := by
  have hcall : calls r i = [⟨0, (storeBeat i.beat r.store).size,
      (storeBeat i.beat r.store).data⟩] := by
    simp [calls, comboSend, ht, hl]
  constructor
  · have hidle : (step r i).state = .idle := by simp [step, comboSend, hr, ht, hl]
    refine ⟨iff_of_true hidle rfl, fun _ => ⟨?_, rfl⟩⟩
    unfold Regs.store
    rw [if_pos hidle]
    rfl
  · refine ⟨_, hcall, rfl, fun hle => ?_⟩
    rw [payload_snoc] at hle ⊢
    obtain ⟨hsize, hdata⟩ := h.collects.storeBeat i.beat hle
    unfold SendCall.payload
    rw [hsize]
    exact hdata

/-! ## Runs -/

/-- The stream without the beats that keep no lane. -/
def kept (bs : List (Beat w)) : List (Beat w) := bs.filter fun b => decide (b.keep ≠ 0)

/-- The kept part of what a cycle transfers is the beat that it looks at. -/
theorem kept_beats (bs : List (Beat w)) (i : Input w) :
    kept (bs ++ i.beats) = kept bs ++ (if i.taken then [i.beat] else []) := by
  unfold kept Input.beats Input.taken
  rw [List.filter_append]
  cases hv : i.tvalid with
  | false => simp
  | true =>
    by_cases hk : i.beat.keep = 0#w
    · simp [hk]
    · simp [hk]

/--
**The step law**: the packets of the kept stream that a cycle completes are those that its calls
hand over.
-/
theorem step_law {r : Regs} {i : Input w} {bs : List (Beat w)} (hr : i.aresetn = true)
    (h : Tracks r (parse (kept bs)).rest) :
    Tracks (step r i) (parse (kept (bs ++ i.beats))).rest ∧
      ∃ ps, (parse (kept (bs ++ i.beats))).packets = (parse (kept bs)).packets ++ ps ∧
        List.Forall₂ SendCall.Hands (calls r i) ps := by
  rw [kept_beats]
  cases ht : i.taken with
  | false =>
    obtain ⟨htracks, hcalls⟩ := step_of_not_taken hr ht h
    simp only [Bool.false_eq_true, if_false, List.append_nil]
    exact ⟨htracks, [], (List.append_nil _).symm, by rw [hcalls]; exact List.Forall₂.nil⟩
  | true =>
    rw [if_pos rfl, parse_snoc]
    unfold Parsed.push
    cases hl : i.beat.last with
    | false =>
      obtain ⟨htracks, hcalls⟩ := step_of_open hr ht hl h
      exact ⟨htracks, [], (List.append_nil _).symm, by rw [hcalls]; exact List.Forall₂.nil⟩
    | true =>
      obtain ⟨htracks, c, hcalls, _, hhands⟩ := step_of_last hr ht hl h
      refine ⟨htracks, _, rfl, ?_⟩
      rw [hcalls]
      exact List.Forall₂.cons hhands List.Forall₂.nil

/-- **The run law.** -/
theorem run_law {r r' : Regs} {tr : List (Regs × Input w)} (bs : List (Beat w))
    (hrun : ClockedRun step (fun i => i.aresetn = true) r tr r')
    (h : Tracks r (parse (kept bs)).rest) :
    Tracks r' (parse (kept (bs ++ events (fun _ i => i.beats) tr))).rest ∧
      ∃ ps, (parse (kept (bs ++ events (fun _ i => i.beats) tr))).packets
          = (parse (kept bs)).packets ++ ps ∧
        List.Forall₂ SendCall.Hands (events calls tr) ps := by
  induction tr generalizing r bs with
  | nil =>
    cases hrun.1
    rw [events_nil, List.append_nil]
    exact ⟨h, [], (List.append_nil _).symm, List.Forall₂.nil⟩
  | cons c tr ih =>
    obtain ⟨rfl, hr, hrest⟩ := hrun.cons_inv
    obtain ⟨hstep, ps, hps, hcalls⟩ := step_law hr h
    obtain ⟨htracks, ps', hps', hcalls'⟩ := ih _ hrest hstep
    rw [List.append_assoc] at htracks hps'
    rw [events_cons, events_cons]
    refine ⟨htracks, ps ++ ps', ?_, List.rel_append hcalls hcalls'⟩
    rw [hps', hps, List.append_assoc]

end QemuHdlSim.AxisS
