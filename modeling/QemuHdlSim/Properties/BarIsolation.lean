import QemuHdlSim.Properties.PowerOn

/-!
# Each BAR is a memory of its own

The HDL side adds the offset of the BAR to an address, and that is all that tells the BARs apart on
the AXI bus. If the parameters give them windows that do not overlap, then what an access of one
BAR returns depends on the accesses of this BAR alone.

* `specResults_bar` — for the byte memory
* `barIsolation` — for any run from power on
-/

namespace QemuHdlSim.Cosim

open Infra Axi4Ip

variable {p : BusParams} {conf : ACCConf} {warnMs : Int} {mem m m' : Mem}

/-- The windows of the BARs on the AXI bus, as the parameters have them. -/
structure IpParams.Apart (q : IpParams) : Prop where
  /-- A window does not wrap around. -/
  fits : ∀ i, q.bar i ≠ 0 → (q.barOffset i).toNat + 2 ^ (q.barSize i).toNat ≤ 2 ^ 64
  disjoint : ∀ i j, i ≠ j → q.bar i ≠ 0 → q.bar j ≠ 0 →
    (q.barOffset i).toNat + 2 ^ (q.barSize i).toNat ≤ (q.barOffset j).toNat ∨
      (q.barOffset j).toNat + 2 ^ (q.barSize j).toNat ≤ (q.barOffset i).toNat

/-- The windows of the BARs in the configuration. -/
structure Apart (conf : ACCConf) : Prop where
  fits : ∀ i, (conf.bar i).isValid = true →
    (conf.bar i).offset.toNat + (conf.bar i).size.toNat ≤ 2 ^ 64
  disjoint : ∀ i j, i ≠ j → (conf.bar i).isValid = true → (conf.bar j).isValid = true →
    (conf.bar i).offset.toNat + (conf.bar i).size.toNat ≤ (conf.bar j).offset.toNat ∨
      (conf.bar j).offset.toNat + (conf.bar j).size.toNat ≤ (conf.bar i).offset.toNat

theorem apart_of_setup {q : IpParams} (hconf : q.setup = some conf) (h : IpParams.Apart q) :
    Apart conf := by
  obtain ⟨_, _, _, _, hbar⟩ := setup_eq_some hconf
  have hvalid : ∀ i, (conf.bar i).isValid = true → q.bar i ≠ 0 := by
    intro i hi
    rw [(hbar i).1] at hi
    exact bne_iff_ne.mp hi
  constructor
  · intro i hi
    rw [(hbar i).2.1, (hbar i).2.2]
    exact h.fits i (hvalid i hi)
  · intro i j hij hi hj
    rw [(hbar i).2.1, (hbar i).2.2, (hbar j).2.1, (hbar j).2.2]
    exact h.disjoint i j hij (hvalid i hi) (hvalid j hj)

/-! ## Where an access goes -/

/-- The bytes of an access lie in the window of its BAR. -/
theorem axiAddr_mem (h : Apart conf) {a : Access} (ha : a.Valid conf) :
    (conf.bar a.bar).offset.toNat ≤ (a.axiAddr conf).toNat ∧
      (a.axiAddr conf).toNat + a.size.toNat
        ≤ (conf.bar a.bar).offset.toNat + (conf.bar a.bar).size.toNat := by
  have hrange := ha.inRange
  have hfits := h.fits a.bar ha.bar
  have hpos : 0 < a.size.toNat := by
    obtain ⟨j, _, hsize⟩ := ha.size
    rw [hsize]
    exact Nat.two_pow_pos j
  have haddr : (a.axiAddr conf).toNat = a.addr.toNat + (conf.bar a.bar).offset.toNat := by
    rw [Access.axiAddr, BitVec.toNat_add]
    exact Nat.mod_eq_of_lt (by omega)
  omega

/-- The two memories agree in the window of a BAR. -/
def SameBar (conf : ACCConf) (i : Fin 6) (m m' : Mem) : Prop :=
  Mem.Same (conf.bar i).offset.toNat (conf.bar i).size.toNat m m'

/-- An access of the BAR returns the same in both, and does the same to both. -/
theorem SameBar.own {a : Access} (hapart : Apart conf) (ha : a.Valid conf)
    (h : SameBar conf a.bar m m') :
    a.specResult conf m = a.specResult conf m' ∧
      SameBar conf a.bar (a.specMem conf m) (a.specMem conf m') := by
  obtain ⟨hlo, hhi⟩ := axiAddr_mem hapart ha
  cases a with
  | read num addr size =>
    refine ⟨?_, h⟩
    have hbytes := leVal_congr (n := size.toNat)
      (f := fun k => m (((Access.read num addr size).axiAddr conf).toNat + k))
      (g := fun k => m' (((Access.read num addr size).axiAddr conf).toNat + k)) fun k hk =>
        h _ (Nat.le_add_right_of_le hlo) (Nat.lt_of_lt_of_le (Nat.add_lt_add_left hk _) hhi)
    unfold Access.specResult
    exact congrArg (fun v => some (BitVec.ofNat 64 v)) hbytes
  | write num addr val size => exact ⟨rfl, h.store⟩

/-- An access of another BAR leaves the window alone. -/
theorem SameBar.other {a : Access} {i : Fin 6} (hapart : Apart conf) (ha : a.Valid conf)
    (hi : (conf.bar i).isValid = true) (hne : a.bar ≠ i) (h : SameBar conf i m m') :
    SameBar conf i (a.specMem conf m) m' := by
  obtain ⟨hlo, hhi⟩ := axiAddr_mem hapart ha
  have hdisjoint : (a.axiAddr conf).toNat + a.size.toNat ≤ (conf.bar i).offset.toNat ∨
      (conf.bar i).offset.toNat + (conf.bar i).size.toNat ≤ (a.axiAddr conf).toNat := by
    rcases hapart.disjoint a.bar i hne ha.bar hi with hle | hle
    · exact Or.inl (Nat.le_trans hhi hle)
    · exact Or.inr (Nat.le_trans hle hlo)
  cases a with
  | read num addr size => exact h
  | write num addr val size => exact h.store_disjoint hdisjoint

/-! ## The accesses of one BAR -/

/-- What the accesses of the BAR returned, if `rs` is what all of them did. -/
def ofBar (i : Fin 6) (as : List Access) (rs : List (Option (BitVec 64))) :
    List (Option (BitVec 64)) :=
  ((as.zip rs).filter fun x => x.1.bar == i).map Prod.snd

/-- **In the byte memory** a BAR is a memory of its own. -/
theorem specResults_bar (hapart : Apart conf) {i : Fin 6} (hi : (conf.bar i).isValid = true)
    {as : List Access} (hvalid : ∀ a ∈ as, a.Valid conf) (h : SameBar conf i m m') :
    ofBar i as (specResults conf m as) = specResults conf m' (as.filter fun a => a.bar == i) := by
  induction as generalizing m m' with
  | nil => rfl
  | cons a as ih =>
    have ha := hvalid a List.mem_cons_self
    have hrest : ∀ b ∈ as, b.Valid conf := fun b hb => hvalid b (List.mem_cons_of_mem _ hb)
    unfold ofBar
    rw [specResults, List.zip_cons_cons]
    by_cases hbar : a.bar = i
    · subst hbar
      obtain ⟨hres, hmem⟩ := h.own hapart ha
      rw [List.filter_cons_of_pos (by simp), List.filter_cons_of_pos (by simp), List.map_cons,
        specResults, hres]
      exact congrArg (_ :: ·) (ih hrest hmem)
    · rw [List.filter_cons_of_neg (by simpa using hbar),
        List.filter_cons_of_neg (by simpa using hbar)]
      exact ih hrest (h.other hapart ha hi hbar)

/-- A BAR that is not there is not accessed. -/
theorem ofBar_of_not_valid {i : Fin 6} (hi : (conf.bar i).isValid ≠ true) {as : List Access}
    (hvalid : ∀ a ∈ as, a.Valid conf) (rs : List (Option (BitVec 64))) :
    ofBar i as rs = [] ∧ (as.filter fun a => a.bar == i) = [] := by
  have hother : ∀ a ∈ as, ¬(a.bar == i) = true := by
    intro a ha hbar
    rw [← beq_iff_eq.mp hbar] at hi
    exact hi (hvalid a ha).bar
  have hzip : ((as.zip rs).filter fun x => x.1.bar == i) = [] :=
    List.filter_eq_nil_iff.mpr fun x hx => hother x.1 (List.of_mem_zip hx).1
  exact ⟨by rw [ofBar, hzip, List.map_nil], List.filter_eq_nil_iff.mpr hother⟩

/-! ## Any run from power on -/

/-- The accesses of the run that have returned. -/
def returned (warnMs : Int) (tr : List (Boot p × BootEvent p)) : List Access :=
  (events Sys.calls (Boot.sysTrace tr)).take
    (events (Sys.results warnMs) (Boot.sysTrace tr)).length

/-- **Each BAR is a memory of its own**: what its accesses return is what they return when no other
BAR is accessed. In any run from power on, if the windows do not overlap. -/
theorem barIsolation {q : IpParams} (hconf : q.setup = some conf) (hapart : IpParams.Apart q)
    (hbus : 3 ≤ p.log2Stbw) (hoff : ∀ k, (q.barOffset k).toNat % p.stbw = 0)
    {tr : List (Boot p × BootEvent p)} {b : Boot p}
    (h : Boot.Run conf warnMs (Boot.init mem m) tr b) (hok : ∀ c ∈ tr, c.2.Receives warnMs)
    (i : Fin 6) :
    ofBar i (returned warnMs tr) (events (Sys.results warnMs) (Boot.sysTrace tr))
      = specResults conf m ((returned warnMs tr).filter fun a => a.bar == i) := by
  have hmmio := (servingRun_boot hbus (setup_offsets hconf hoff) h hok).seesMemory
  have hvalid : ∀ a ∈ returned warnMs tr, a.Valid conf := fun a ha =>
    calls_valid h a (List.mem_of_mem_take ha)
  rw [hmmio.results]
  by_cases hi : (conf.bar i).isValid = true
  · exact specResults_bar (apart_of_setup hconf hapart) hi hvalid fun _ _ _ => rfl
  · obtain ⟨hnone, hfilter⟩ := ofBar_of_not_valid hi hvalid
      (specResults conf m (returned warnMs tr))
    rw [hfilter]
    exact hnone

/-! ## The same address in two BARs -/

/-- A write at an address of BAR 0, and a read at that address of BAR 2. -/
def bothBars : List (BootEvent bus64) :=
  [.sys (sysEvent (.call (.write bar0 0x100 0xBBAA 8))), .sys (sysEvent (.deliver .qemuReq)),
    .sys (sysEdge .qemuReq readyInput), .sys (sysEdge .none readyInput),
    .sys (sysEdge .none readyInput), .sys (sysEdge .none readyInput),
    .sys (sysEdge .none readyInput), .sys (sysEvent (.deliver .qemuResp)),
    .sys (sysEvent (.recv recvReady)), .sys (sysEvent (.call (.read bar2 0x100 8))),
    .sys (sysEvent (.deliver .qemuReq)), .sys (sysEdge .qemuReq readyInput),
    .sys (sysEdge .none readyInput), .sys (sysEdge .none readyInput),
    .sys (sysEdge .none readyInput), .sys (sysEvent (.deliver .qemuResp)),
    .sys (sysEvent (.recv recvReady))]

theorem IpParams.apart_default : IpParams.Apart IpParams.default := ⟨by decide, by decide⟩

/-- The read does not see the write. -/
theorem barIsolation_bothBars :
    ∃ (tr : List (Boot bus64 × BootEvent bus64)) (b : Boot bus64),
      Boot.Run defaultConf 0 (Boot.init (fun _ => 0) fun _ => 0) tr b ∧
      returned 0 tr = [.write bar0 0x100 0xBBAA 8, .read bar2 0x100 8] ∧
      ofBar bar2 (returned 0 tr) (events (Sys.results 0) (Boot.sysTrace tr)) = [some 0] := by
  have hrun : ∃ b, runM (Boot.step defaultConf 0) (plugged 100) bothBars = some b := ⟨_, rfl⟩
  obtain ⟨b, hrun⟩ := hrun
  have hall := (path_traceM run_resetEvents).append (path_traceM hrun)
  have hreceives : bothBars.all bootReceives = true := rfl
  have hbars := barIsolation setup_default IpParams.apart_default (by decide) (by decide) hall
    (fun c hc => by
      rcases List.mem_append.mp hc with hc | hc
      · exact receives_resetEvents _ (snd_mem_of_traceM hc)
      · have he := List.all_eq_true.mp hreceives _ (snd_mem_of_traceM hc)
        exact receives_of_bootReceives he) bar2
  obtain ⟨hcalls, hresults⟩ := events_resetEvents
  have hreturned : returned 0 (traceM (Boot.step defaultConf 0) (Boot.init (fun _ => 0) fun _ => 0)
      resetEvents ++ traceM (Boot.step defaultConf 0) (plugged 100) bothBars)
      = [.write bar0 0x100 0xBBAA 8, .read bar2 0x100 8] := by
    rw [returned, Boot.sysTrace_append, events_append, events_append, hcalls, hresults]
    rfl
  refine ⟨_, b, hall, hreturned, hbars.trans ?_⟩
  rw [hreturned]
  decide

end QemuHdlSim.Cosim
