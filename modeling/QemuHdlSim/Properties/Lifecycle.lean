import QemuHdlSim.Device.Lifecycle
import QemuHdlSim.Properties.MsixVectors

/-!
# Plugging and unplugging the device again and again

`acc_pcie_exit` leaves `serial_rx`, `serial_tx` and all three fd handlers. So a sequence of plugs
and unplugs releases everything exactly when it has no unplug (`lifecycle_iff`): after one, port
`NPU_COSIM_PORT + 8` is taken, and the next `acc_pcie_realize` fails its assertions.
-/

namespace QemuHdlSim.Lifecycle

open Infra Msix

variable {σ : Type} {h : Host σ} {w w' : World σ}

inductive Op where
  | realize
  | exit
  deriving DecidableEq, Repr

/-- A plug comes when no device is plugged, an unplug when one is; `none` when the process ends. -/
def step (h : Host σ) (w : World σ) : Op → Option (World σ)
  | .realize => if w.dev.isNone then (accPcieRealize h w).toOption else none
  | .exit => w.dev.map fun d => accPcieExit h d w

/-- A sequence of plugs and unplugs, with the process at each. -/
abbrev Run (h : Host σ) (w : World σ) (tr : List (World σ × Op)) (w' : World σ) : Prop :=
  Path (fun a op b => step h a op = some b) w tr w'

/-- The states of a run. -/
def states (tr : List (World σ × Op)) (w' : World σ) : List (World σ) := tr.map Prod.fst ++ [w']

/-- No device of this type was plugged yet. -/
structure Fresh (w : World σ) : Prop where
  dev : w.dev = none
  handlers : w.handlers = []

/-- Nothing that `acc_pcie_realize` set up for the device `d` is left. -/
structure Released (d : ACCPCIeState σ) (w : World σ) : Prop where
  sockets : ∀ f id, d.socks f = some id → ¬w.zmq.Live id
  handlers : ∀ x ∈ w.handlers, x.device ≠ d.id

/-- Every handler is one of the plugged device, and its socket is live. -/
def Safe (w : World σ) : Prop :=
  ∀ x ∈ w.handlers, ∃ d id, w.dev = some d ∧ x.device = d.id ∧
    d.socks x.ioRead.sock = some id ∧ w.zmq.Live id

/-- The run releases everything. -/
structure Clean (h : Host σ) (tr : List (World σ × Op)) (w' : World σ) : Prop where
  released : ∀ v d, (v, Op.exit) ∈ tr → v.dev = some d → Released d (accPcieExit h d v)
  /-- Every plug after an unplug passes the assertions. -/
  passes : ∀ tr₁ v tr₂, tr = tr₁ ++ (v, Op.exit) :: tr₂ → ∀ u ∈ states tr₂ w', u.dev = none →
    accPcieRealize h u ≠ .error .assertFailed
  safe : ∀ v ∈ states tr w', Safe v

/-- A plug that succeeds. -/
theorem step_realize (hstep : step h w .realize = some w') :
    w.dev = none ∧ accPcieRealize h w = .ok w' := by
  have hif : (if w.dev.isNone then (accPcieRealize h w).toOption else none) = some w' := hstep
  split at hif
  · rename_i hnone
    refine ⟨Option.isNone_iff_eq_none.mp hnone, ?_⟩
    cases hreal : accPcieRealize h w with
    | error e =>
      rw [hreal] at hif
      exact absurd hif (by simp [Except.toOption])
    | ok v =>
      rw [hreal] at hif
      cases hif
      rfl
  · exact absurd hif (by simp)

/-- An unplug. -/
theorem step_exit (hstep : step h w .exit = some w') :
    ∃ d, w.dev = some d ∧ w' = accPcieExit h d w := by
  obtain ⟨d, hd, heq⟩ := Option.map_eq_some_iff.mp hstep
  exact ⟨d, hd, heq.symm⟩

/-! ## The three states -/

/-- The device `d` is plugged. -/
structure Plugged (h : Host σ) (port : Int) (d : ACCPCIeState σ) (w : World σ) : Prop where
  hasPort : h.port = some port
  dev : w.dev = some d
  attached : Attached port w.zmq d.socks
  noneNull : ∀ f, d.socks f ≠ none
  handlers : OfDevice d.id w.handlers
  serialTx : ∃ fd, ⟨fd, .serialTx, d.id⟩ ∈ w.handlers

/-- A device was unplugged. -/
structure Stuck (h : Host σ) (port : Int) (w : World σ) : Prop where
  hasPort : h.port = some port
  dev : w.dev = none
  taken : w.zmq.Taken (port + 8)

theorem Realized.plugged {port : Int} {d : ACCPCIeState σ} (hr : Realized h port w w' d)
    (hw : w.handlers = []) : Plugged h port d w' := by
  have hattached : Attached port (openAll port w.zmq).1 (openAll port w.zmq).2 :=
    openAll_spec port w.zmq
  rw [← hr.opened] at hattached
  refine ⟨hr.hasPort, hr.dev, hattached, hr.noneNull, ?_, serialTx_of_listen hr.handlers⟩
  refine ofDevice_of_listen hr.handlers ?_
  rw [hw]
  exact fun x hx => absurd hx List.not_mem_nil

/-- The handlers of a plugged device are safe. -/
theorem Plugged.safe {port : Int} {d : ACCPCIeState σ} (hp : Plugged h port d w) : Safe w := by
  intro x hx
  obtain ⟨id, hid⟩ := Option.ne_none_iff_exists'.mp (hp.noneNull x.ioRead.sock)
  exact ⟨d, id, hp.dev, hp.handlers x hx, hid, _, (hp.attached.holds _ id hid).2, rfl⟩

/-- **What an unplug leaves**: `serial_rx` is live, and the port it is bound to is taken. -/
theorem Plugged.exit {port : Int} {d : ACCPCIeState σ} (hp : Plugged h port d w) :
    Stuck h port (accPcieExit h d w) ∧ ¬Released d (accPcieExit h d w) := by
  have hexit : Exited h port d w (accPcieExit h d w) := exit_spec hp.attached
  obtain ⟨id, hid⟩ := Option.ne_none_iff_exists'.mp (hp.noneNull .serialRx)
  obtain ⟨_, hlive⟩ := hexit.left .serialRx (by decide) id hid
  exact ⟨⟨hp.hasPort, hexit.dev, _, hlive, rfl⟩,
    fun hr => hr.sockets .serialRx id hid ⟨_, hlive, rfl⟩⟩

/-- A device that is not plugged any more keeps its handlers. -/
theorem Plugged.handlers_left {port : Int} {d : ACCPCIeState σ} (hp : Plugged h port d w) :
    (accPcieExit h d w).handlers = w.handlers ∧ ¬Safe (accPcieExit h d w) := by
  have hexit : Exited h port d w (accPcieExit h d w) := exit_spec hp.attached
  obtain ⟨fd, hmem⟩ := hp.serialTx
  refine ⟨hexit.handlers, fun hsafe => ?_⟩
  obtain ⟨d', _, hdev, _⟩ := hsafe _ (by rw [hexit.handlers]; exact hmem)
  exact absurd (hexit.dev.symm.trans hdev) (by simp)

theorem Stuck.realize {port : Int} (hs : Stuck h port w) :
    accPcieRealize h w = .error .assertFailed :=
  realize_of_taken (f := .serialRx) hs.hasPort rfl hs.taken

/-- No step is left. -/
theorem Stuck.no_step {port : Int} (hs : Stuck h port w) (op : Op) : step h w op ≠ some w' := by
  intro hstep
  cases op with
  | realize =>
    obtain ⟨_, hok⟩ := step_realize hstep
    exact absurd (hs.realize.symm.trans hok) (by simp)
  | exit =>
    obtain ⟨d, hd, _⟩ := step_exit hstep
    exact absurd (hs.dev.symm.trans hd) (by simp)

/-! ## Runs -/

/-- Where a run is: before a plug, in one, or after an unplug. -/
def Where (h : Host σ) (w : World σ) : Prop :=
  Fresh w ∨ (∃ port d, Plugged h port d w) ∨ ∃ port, Stuck h port w

/-- A plug leads to a plugged device. -/
theorem where_realize (hw : Where h w) (hstep : step h w .realize = some w') :
    ∃ port d, Plugged h port d w' := by
  obtain ⟨hdev, hok⟩ := step_realize hstep
  rcases hw with hfresh | ⟨port, d, hp⟩ | ⟨port, hs⟩
  · obtain ⟨port, d, hr⟩ := realize_eq_ok hok
    exact ⟨port, d, hr.plugged hfresh.handlers⟩
  · exact absurd (hp.dev.symm.trans hdev) (by simp)
  · exact absurd hstep (hs.no_step .realize)

/-- An unplug is one of a plugged device. -/
theorem where_exit (hw : Where h w) (hstep : step h w .exit = some w') :
    ∃ port d, Plugged h port d w ∧ w' = accPcieExit h d w := by
  obtain ⟨d', hd', rfl⟩ := step_exit hstep
  rcases hw with hfresh | ⟨port, d, hp⟩ | ⟨port, hs⟩
  · exact absurd (hfresh.dev.symm.trans hd') (by simp)
  · have heq : d = d' := Option.some.inj (hp.dev.symm.trans hd')
    exact ⟨port, d, hp, by rw [heq]⟩
  · exact absurd hstep (hs.no_step .exit)

theorem where_step {op : Op} (hw : Where h w) (hstep : step h w op = some w') : Where h w' := by
  cases op with
  | realize => exact Or.inr (Or.inl (where_realize hw hstep))
  | exit =>
    obtain ⟨port, d, hp, rfl⟩ := where_exit hw hstep
    exact Or.inr (Or.inr ⟨port, hp.exit.1⟩)

theorem where_mem {tr : List (World σ × Op)} (hrun : Run h w tr w') (hw : Fresh w) :
    (∀ c ∈ tr, Where h c.1) ∧ Where h w' :=
  ⟨hrun.invariant_mem (P := fun _ _ => True) (Or.inl hw) (fun _ _ => trivial)
      fun _ _ _ ha _ hab => where_step ha hab,
    hrun.invariant (P := fun _ _ => True) (Or.inl hw) (fun _ _ => trivial)
      fun _ _ _ ha _ hab => where_step ha hab⟩

/-- **After an unplug** the run is at its end. -/
theorem stuck_of_exit {tr₁ tr₂ : List (World σ × Op)} {v : World σ}
    (hrun : Run h w (tr₁ ++ (v, Op.exit) :: tr₂) w') (hw : Fresh w) :
    ∃ port d, Plugged h port d v ∧ tr₂ = [] ∧ w' = accPcieExit h d v ∧ Stuck h port w' := by
  obtain ⟨u, _, hafter⟩ := hrun.append_inv
  obtain ⟨u', rfl, hstep, hrest⟩ := hafter.cons_inv
  have hwhere := (where_mem hrun hw).1 _ (List.mem_append_right _ List.mem_cons_self)
  obtain ⟨port, d, hp, rfl⟩ := where_exit hwhere hstep
  have hstuck := hp.exit.1
  cases hrest with
  | nil => exact ⟨port, d, hp, rfl, rfl, hstuck⟩
  | cons hnext _ => exact absurd hnext (hstuck.no_step _)

/-- A run with no unplug has only safe handlers. -/
theorem safe_of_no_exit {tr : List (World σ × Op)} (hrun : Run h w tr w') (hw : Fresh w)
    (hno : ∀ c ∈ tr, c.2 ≠ .exit) : ∀ v ∈ states tr w', Safe v := by
  -- the device was not plugged yet, or it still is
  have hstep : ∀ (a : World σ) (op : Op) (b : World σ),
      (Fresh a ∨ ∃ port d, Plugged h port d a) → op ≠ .exit → step h a op = some b →
        Fresh b ∨ ∃ port d, Plugged h port d b := by
    intro a op b ha hop hab
    cases op with
    | realize =>
      exact Or.inr (where_realize (ha.imp id Or.inl) hab)
    | exit => exact absurd rfl hop
  have hsafe : ∀ v : World σ, (Fresh v ∨ ∃ port d, Plugged h port d v) → Safe v := by
    rintro v (hfresh | ⟨port, d, hp⟩)
    · intro x hx
      rw [hfresh.handlers] at hx
      exact absurd hx List.not_mem_nil
    · exact hp.safe
  intro v hv
  rcases List.mem_append.mp hv with hv | hv
  · obtain ⟨c, hc, rfl⟩ := List.mem_map.mp hv
    exact hsafe _ (hrun.invariant_mem (Or.inl hw) hno hstep c hc)
  · rw [List.mem_singleton.mp hv]
    exact hsafe _ (hrun.invariant (Or.inl hw) hno hstep)

/-- **A run with an unplug** does not release everything. -/
theorem not_clean_of_exit {tr : List (World σ × Op)} {c : World σ × Op} (hrun : Run h w tr w')
    (hw : Fresh w) (hc : c ∈ tr) (hexit : c.2 = .exit) :
    ¬Clean h tr w' ∧ w'.dev = none ∧ ¬Safe w' ∧
      accPcieRealize h w' = .error .assertFailed := by
  obtain ⟨v, op⟩ := c
  cases hexit
  obtain ⟨tr₁, tr₂, rfl⟩ := List.append_of_mem hc
  obtain ⟨port, d, hp, rfl, rfl, hstuck⟩ := stuck_of_exit hrun hw
  exact ⟨fun hclean => hp.exit.2 (hclean.released v d hc hp.dev), hstuck.dev,
    hp.handlers_left.2, hstuck.realize⟩

/--
**The device lifecycle.** In every sequence of plugs and unplugs everything is released exactly
when there is no unplug. After one a handler of the device that is gone can run, and no plug
succeeds again.
-/
theorem lifecycle_iff (h : Host σ) {w w' : World σ} {tr : List (World σ × Op)}
    (hrun : Run h w tr w') (hw : Fresh w) :
    (Clean h tr w' ↔ ∀ c ∈ tr, c.2 ≠ .exit) ∧
      ∀ c ∈ tr, c.2 = .exit →
        w'.dev = none ∧ ¬Safe w' ∧ accPcieRealize h w' = .error .assertFailed := by
  refine ⟨⟨fun hclean c hc hexit => ?_, fun hno => ?_⟩, fun c hc hexit => ?_⟩
  · exact (not_clean_of_exit hrun hw hc hexit).1 hclean
  · refine ⟨fun v d hv _ => absurd rfl (hno _ hv), fun tr₁ v tr₂ htr => ?_,
      safe_of_no_exit hrun hw hno⟩
    subst htr
    exact absurd rfl (hno _ (List.mem_append_right _ List.mem_cons_self))
  · exact (not_clean_of_exit hrun hw hc hexit).2

/-! ## One plug and one unplug -/

/-- A process on port 5000, whose sockets have their own numbers as fds. -/
def host : Host Table where
  port := some 5000
  conf := defaultConf
  q := table
  msix := ⟨0, false, fun _ => 0⟩
  fd := some

/-- Nothing was done in it yet. -/
def empty : World Table where
  zmq := ⟨[], 0, fun _ hs => absurd hs List.not_mem_nil⟩
  handlers := []
  nics := []
  chrs := []
  dev := none
  gone := []
  nextDev := 0

theorem fresh_empty : Fresh empty := ⟨rfl, rfl⟩

theorem run_unplug : ∃ tr w', Run host empty tr w' ∧ tr.map Prod.snd = [.realize, .exit] :=
  ⟨_, _, Path.cons (i := .realize) rfl (Path.cons (i := .exit) rfl (Path.nil _)), rfl⟩

theorem lifecycle_unplug : ∃ tr w', tr.map Prod.snd = [.realize, .exit] ∧
    (Clean host tr w' ↔ ∀ c ∈ tr, c.2 ≠ .exit) ∧
      ∀ c ∈ tr, c.2 = .exit →
        w'.dev = none ∧ ¬Safe w' ∧ accPcieRealize host w' = .error .assertFailed := by
  obtain ⟨tr, w', hrun, hops⟩ := run_unplug
  exact ⟨tr, w', hops, lifecycle_iff host hrun fresh_empty⟩

/-- The device is plugged and unplugged once, and cannot be plugged again. -/
theorem not_clean_unplug : ∃ tr w', Run host empty tr w' ∧ tr.map Prod.snd = [.realize, .exit] ∧
    ¬Clean host tr w' ∧ accPcieRealize host w' = .error .assertFailed := by
  obtain ⟨tr, w', hrun, hops⟩ := run_unplug
  have hmem : Op.exit ∈ tr.map Prod.snd := by
    rw [hops]
    decide
  obtain ⟨c, hc, hexit⟩ := List.mem_map.mp hmem
  obtain ⟨hnot, _, _, hfail⟩ := not_clean_of_exit hrun fresh_empty hc hexit
  exact ⟨tr, w', hrun, hops, hnot, hfail⟩

end QemuHdlSim.Lifecycle
