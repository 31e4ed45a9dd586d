import QemuHdlSim.System.Cosim

/-!
# The vectors of the interrupts

`axi4_s_i` makes a vector of the one-hot data word at each rising `cfg_interrupt_msix_int`, the
`INTR` frame carries it over `hdl_req`, and `handle_hdl_request` passes it to `msix_notify`. The
number of vectors that `msix_init` was told of comes from the same configuration, but nothing on
the way compares the two, and a word that is not one-hot has the vector `32'hFFFFFFFF`.

* `notified_run` — the notifications are the vectors of the first so many words, in order
* `validVectors_of_words` — they are all registered when the words are one-hot, at a position below
  the number of vectors
-/

namespace QemuHdlSim.Cosim

open Infra Axi4Ip

variable {p : BusParams} {conf : ACCConf} {warnMs : Int}

/-- The data words at the rising edges of `cfg_interrupt_msix_int` out of reset. -/
def words (s : State p) : Event p → List (BitVec 32)
  | .interrupt d _ => if s.ip.aresetn then [d] else []
  | _ => []

/-- One bit is set, at a position below `n`. -/
def OneHotBelow (n : Nat) (d : BitVec 32) : Prop := ∃ k < 32, k < n ∧ d = BitVec.twoPow 32 k

/-- What the guest may expect of the interrupts of a run, when `n` vectors are registered. -/
structure ValidVectors (n : Nat) (tr : List (State p × Event p)) (s : State p) : Prop where
  /-- `msix_notify` asserts this of its argument. -/
  below : ∀ v ∈ s.notified, v.toNat < n
  /-- The notification of a one-hot word is its position. -/
  position : ∀ (j k : Nat), (events words tr)[j]? = some (BitVec.twoPow 32 k) → k < 32 → k < n →
    j < s.notified.length → s.notified[j]? = some (BitVec.ofNat 32 k)
  /-- There is one notification for each word, and none besides, once `hdl_req` is drained. -/
  once : s.notified.length ≤ (events words tr).length ∧
    (s.hdlReq.taken = s.hdlReq.sent.length → s.notified.length = (events words tr).length)

/-! ## Vectors -/

theorem vector_twoPow {k : Nat} (h : k < 32) : vector (BitVec.twoPow 32 k) = BitVec.ofNat 32 k := by
  have hall : ∀ k ∈ List.range 32, vector (BitVec.twoPow 32 k) = BitVec.ofNat 32 k := by decide
  exact hall k (List.mem_range.mpr h)

/-- A registered vector is that of a one-hot word. -/
theorem vector_lt_iff {n : Nat} (hn : n ≤ 2048) (d : BitVec 32) :
    (vector d).toNat < n ↔ OneHotBelow n d := by
  constructor
  · intro hlt
    unfold vector at hlt
    split at hlt
    · next k hfind =>
      have hk := List.mem_range.mp (List.mem_of_find?_eq_some hfind)
      have hd := List.find?_some hfind
      rw [BitVec.toNat_ofNat, Nat.mod_eq_of_lt (by omega)] at hlt
      exact ⟨k, hk, hlt, by simpa using hd⟩
    · -- the catch-all value
      rw [show (0xFFFFFFFF : BitVec 32).toNat = 4294967295 from rfl] at hlt
      omega
  · rintro ⟨k, hk, hkn, rfl⟩
    rw [vector_twoPow hk, BitVec.toNat_ofNat, Nat.mod_eq_of_lt (by omega)]
    exact hkn

/-! ## Frames -/

/-- An edge issues no `INTR`. -/
theorem Edge.requests_intr {e : Edge p} {t : Axi4Ip.State p} {reqs : List ACCData}
    (h : e.requests t = some reqs) : reqs.filter ACCData.isIntr = [] := by
  obtain ⟨ws, hws, rfl⟩ := Option.map_eq_some_iff.mp h
  have hwrites : ∀ f ∈ ws, ¬ACCData.isIntr f = true := by
    intro f hf
    obtain ⟨c, _, hc⟩ := (mapM_eq_some hws).2 f hf
    simp [ACCData.isIntr, cReqWrite_op hc]
  have hreads : ∀ f ∈ reqReadFrames e.stack.reqRead t e.inp, ¬ACCData.isIntr f = true := by
    intro f hf
    obtain ⟨c, _, rfl⟩ := List.mem_map.mp hf
    simp [ACCData.isIntr, cReqRead]
  refine List.filter_eq_nil_iff.mpr fun f hf => ?_
  split at hf
  · rcases List.mem_append.mp hf with hf | hf
    · exact hwrites f hf
    · exact hreads f hf
  · rcases List.mem_append.mp hf with hf | hf
    · exact hreads f hf
    · exact hwrites f hf

/-- The vectors a step issues are those of its words. -/
theorem issued_vectors (s : State p) (e : Event p) :
    ((issued s e).filter ACCData.isIntr).map ACCData.vector = (words s e).map vector := by
  cases e with
  | edge x =>
    simp only [issued, words]
    cases hreqs : x.requests s.ip with
    | none => rfl
    | some reqs =>
      rw [Option.getD_some, Edge.requests_intr hreqs]
      rfl
  | interrupt d stack =>
    simp only [issued, words, State.interruptFrames, reqInterruptCalls]
    cases s.ip.aresetn with
    | false => rfl
    | true => rfl
  | _ => rfl

/--
**The notifications of a run** are the vectors of the first so many words, and of all of them once
`hdl_req` is drained.
-/
theorem notified_run {mem : Mem} {tr : List (State p × Event p)} {s : State p}
    (h : Run conf warnMs (init mem) tr s) :
    s.notified = ((events words tr).map vector).take s.notified.length ∧
      s.notified.length ≤ (events words tr).length ∧
      (s.hdlReq.taken = s.hdlReq.sent.length →
        s.notified.length = (events words tr).length) := by
  have hvectors : (s.hdlReq.sent.filter ACCData.isIntr).map ACCData.vector
      = (events words tr).map vector := by
    rw [sent_run h]
    unfold events
    rw [List.filter_flatMap, List.map_flatMap, List.map_flatMap]
    exact List.flatMap_congr fun c _ => issued_vectors c.1 c.2
  have hnotified : s.notified
      = ((s.hdlReq.sent.take s.hdlReq.taken).filter ACCData.isIntr).map ACCData.vector :=
    (handleHdlRequest_counts (executed_run h)).2
  have hprefix : s.notified <+: (events words tr).map vector := by
    rw [hnotified, ← hvectors]
    exact ((List.take_prefix _ _).filter _).map _
  refine ⟨List.prefix_iff_eq_take.mp hprefix, ?_, fun hdrained => ?_⟩
  · have hle := hprefix.length_le
    rwa [List.length_map] at hle
  · rw [hnotified, hdrained, List.take_length, hvectors, List.length_map]

/-! ## Any run -/

/-- What decides are the words whose requests were served. -/
theorem validVectors_iff_served {mem : Mem} {tr : List (State p × Event p)} {s : State p}
    (h : Run conf warnMs (init mem) tr s) (hn : conf.msixVecNum.toNat ≤ 2048) :
    ValidVectors conf.msixVecNum.toNat tr s ↔
      ∀ d ∈ (events words tr).take s.notified.length, OneHotBelow conf.msixVecNum.toNat d := by
  obtain ⟨hnotified, hlen⟩ := notified_run h
  rw [← List.map_take] at hnotified
  constructor
  · rintro ⟨hbelow, _, _⟩ d hd
    refine (vector_lt_iff hn d).mp (hbelow _ ?_)
    rw [hnotified]
    exact List.mem_map_of_mem hd
  · intro hwords
    refine ⟨fun v hv => ?_, fun j k hj hk _ hlt => ?_, hlen⟩
    · rw [hnotified] at hv
      obtain ⟨d, hd, rfl⟩ := List.mem_map.mp hv
      exact (vector_lt_iff hn d).mpr (hwords d hd)
    · rw [hnotified, List.getElem?_map, List.getElem?_take_of_lt hlt, hj, Option.map_some,
        vector_twoPow hk]

/--
**When the vectors are valid.** In a run from time zero with at most 2048 vectors: if every data
word at a rising edge out of reset has one bit set, at a position below the number of vectors, then
every notification is of a registered vector and every word has its one notification. Once
`hdl_req` is drained, that is only if.
-/
theorem validVectors_of_words {mem : Mem} {tr : List (State p × Event p)} {s : State p}
    (h : Run conf warnMs (init mem) tr s) (hn : conf.msixVecNum.toNat ≤ 2048) :
    ((∀ d ∈ events words tr, OneHotBelow conf.msixVecNum.toNat d) →
      ValidVectors conf.msixVecNum.toNat tr s) ∧
    (s.hdlReq.taken = s.hdlReq.sent.length → ValidVectors conf.msixVecNum.toNat tr s →
      ∀ d ∈ events words tr, OneHotBelow conf.msixVecNum.toNat d) := by
  rw [validVectors_iff_served h hn]
  constructor
  · intro hall d hd
    exact hall d (List.mem_of_mem_take hd)
  · intro hdrained hserved d hd
    rw [(notified_run h).2.2 hdrained, List.take_length] at hserved
    exact hserved d hd

/-- The reset, and then an interrupt with the word `d` and the handler. -/
def interruptEvents (d : BitVec 32) : List (Event bus64) :=
  List.replicate 100 (edgeOf .none readyInput) ++
    [.interrupt d ACCData.zero, .deliver .hdlReq, .activate, .iterate]

theorem run_interrupt (d : BitVec 32) :
    ∃ tr s, Run defaultConf 0 (init fun _ => 0) tr s ∧ tr.map Prod.snd = interruptEvents d ∧
      s.notified = [vector d] ∧ s.hdlReq.taken = s.hdlReq.sent.length := by
  have hrun : ∃ s, runM (step defaultConf 0) (init fun _ => 0) (interruptEvents d) = some s ∧
      s.notified = [vector d] ∧ s.hdlReq.taken = s.hdlReq.sent.length := by
    rw [interruptEvents, runM_append, run_reset _ 100 (Nat.le_refl _)]
    exact ⟨_, rfl, rfl, rfl⟩
  obtain ⟨s, hrun, hnotified, hdrained⟩ := hrun
  obtain ⟨tr, hpath, hevents⟩ := path_of_runM hrun
  exact ⟨tr, s, hpath, hevents, hnotified, hdrained⟩

/-- The third of three vectors. -/
theorem validVectors_of_words_third : ∃ tr s, Run defaultConf 0 (init fun _ => 0) tr s ∧
    tr.map Prod.snd = interruptEvents 4 ∧ s.notified = [2] ∧ ValidVectors 3 tr s := by
  obtain ⟨tr, s, hrun, hevents, hnotified, hdrained⟩ := run_interrupt 4
  refine ⟨tr, s, hrun, hevents, hnotified, (validVectors_of_words hrun (by decide)).1 ?_⟩
  intro d hd
  obtain ⟨hvectors, _, hlen⟩ := notified_run hrun
  rw [hlen hdrained, ← List.map_take, List.take_length, hnotified] at hvectors
  have hmem : vector d ∈ [vector 4] := by
    rw [hvectors]
    exact List.mem_map_of_mem hd
  refine (vector_lt_iff (by decide) d).mp ?_
  rw [List.mem_singleton.mp hmem]
  decide

/-- Two bits at once: the vector is `32'hFFFFFFFF`. -/
theorem not_validVectors_two_bits : ∃ tr s, Run defaultConf 0 (init fun _ => 0) tr s ∧
    tr.map Prod.snd = interruptEvents 3 ∧ s.notified = [0xFFFFFFFF] ∧
    ¬ValidVectors defaultConf.msixVecNum.toNat tr s := by
  obtain ⟨tr, s, hrun, hevents, hnotified, _⟩ := run_interrupt 3
  refine ⟨tr, s, hrun, hevents, hnotified, ?_⟩
  rintro ⟨hbelow, _, _⟩
  have hlt := hbelow (vector 3) (by rw [hnotified]; exact List.mem_cons_self)
  revert hlt
  decide

end QemuHdlSim.Cosim
