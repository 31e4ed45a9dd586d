import QemuHdlSim.Device.Msix
import QemuHdlSim.Infra.Sockets

/-!
# Plugging and unplugging the device (`accelerator_pcie.c`)

`accPcieRealize` and `accPcieExit` on the process: its live sockets, the fd handlers of QEMU's main
loop that have a device of this type, the NICs and character handlers that refer to one. An
endpoint is its TCP port.

* `openAll_spec` — what `acc_pcie_realize` opens when no opening fails
* `openAll_of_taken` — a port that is taken makes an opening fail
* `realize_eq_ok` — what a realize that comes to its end has done
* `exit_spec` — what `acc_pcie_exit` leaves
-/

namespace QemuHdlSim.Lifecycle

open Infra Msix

variable {σ : Type}

/-- The sockets of `ACCPCIeState`, in the order `acc_pcie_realize` opens them. -/
inductive Sock where
  | qemuReq
  | qemuResp
  | hdlReq
  | hdlResp
  | nicReq
  | nicResp
  | serialRx
  | serialTx
  deriving DecidableEq, Repr

/-- `SEND_SOCK` or `RECV_SOCK`, and what is added to the port. -/
def Sock.endpoint : Sock → Attach × Int
  | .qemuReq => (.bind, 0)
  | .qemuResp => (.connect, 1)
  | .hdlReq => (.connect, 2)
  | .hdlResp => (.bind, 3)
  | .nicReq => (.bind, 4)
  | .nicResp => (.connect, 5)
  | .serialRx => (.bind, 8)
  | .serialTx => (.connect, 9)

def opened : List Sock :=
  [.qemuReq, .qemuResp, .hdlReq, .hdlResp, .nicReq, .nicResp, .serialRx, .serialTx]

/-- The sockets `acc_pcie_exit` destroys, in its order. -/
def destroyed : List Sock := [.hdlReq, .hdlResp, .qemuReq, .qemuResp, .nicReq, .nicResp]

/-- The functions registered for an fd. -/
inductive FdRead where
  | handleHdlRequest
  | netTxPacket
  | serialTx
  deriving DecidableEq, Repr

/-- The socket whose fd it is registered for, and which it reads. -/
def FdRead.sock : FdRead → Sock
  | .handleHdlRequest => .hdlReq
  | .netTxPacket => .nicResp
  | .serialTx => .serialTx

/-- In the order they are registered. -/
def registered : List FdRead := [.handleHdlRequest, .netTxPacket, .serialTx]

/-- An fd handler of the main loop; `device` is its `opaque`. -/
structure FdHandler where
  fd : Nat
  ioRead : FdRead
  device : Nat
  deriving DecidableEq, Repr

/-- `qemu_set_fd_handler`: an fd has one handler. -/
def qemuSetFdHandler (hs : List FdHandler) (x : FdHandler) : List FdHandler :=
  x :: hs.filter fun y => y.fd != x.fd

/-- The socket pointers of a device; `none` is `NULL`. -/
abbrev Socks := Sock → Option Nat

def Socks.set (k : Socks) (f : Sock) (v : Option Nat) : Socks := fun g => if g = f then v else k g

/-- `ACCPCIeState`; `id` stands for its address. -/
structure ACCPCIeState (σ : Type) where
  id : Nat
  /-- `config[PCI_COMMAND]` -/
  command : BitVec 8
  /-- The type and the size of each BAR that was registered. -/
  bars : Fin 6 → Option (BitVec 8 × BitVec 64)
  socks : Socks
  msix : σ

/-- What the device finds at every plug. -/
structure Host (σ : Type) where
  /-- `NPU_COSIM_PORT` as `atoi` reads it; `none` when it is unset or empty. -/
  port : Option Int
  conf : ACCConf
  q : MsixCore σ
  /-- The MSI-X state of a new `PCIDevice`. -/
  msix : σ
  /-- `zmq_getsockopt(ZMQ_FD)` -/
  fd : Nat → Option Nat

/-- The process. -/
structure World (σ : Type) where
  zmq : Sockets Int
  handlers : List FdHandler
  /-- The devices that the NICs refer to. -/
  nics : List Nat
  /-- The devices that the handlers of a character backend refer to. -/
  chrs : List Nat
  /-- The device that is plugged. -/
  dev : Option (ACCPCIeState σ)
  /-- The devices that are not any more, as `acc_pcie_exit` left them. -/
  gone : List (ACCPCIeState σ)
  nextDev : Nat

/-- How `acc_pcie_realize` does not come to its end. -/
inductive Fail where
  | errp (text : String)
  | assertFailed
  | exit (status : Nat)
  deriving DecidableEq, Repr

/-! ## The functions -/

/-- `zsock_new_push` and `zsock_new_pull`, for the socket `f`. -/
def zsockNew (port : Int) (r : Sockets Int × Socks) (f : Sock) : Sockets Int × Socks :=
  let n := r.1.create f.endpoint.1 (port + f.endpoint.2)
  (n.2, r.2.set f n.1)

/-- The openings of `acc_pcie_realize`. -/
def openAll (port : Int) (z : Sockets Int) : Sockets Int × Socks :=
  opened.foldl (zsockNew port) (z, fun _ => none)

/-- `zmq_getsockopt` and `qemu_set_fd_handler` for one socket; `none` when the first fails. -/
def listen (h : Host σ) (k : Socks) (device : Nat) (hs : List FdHandler) (fn : FdRead) :
    Option (List FdHandler) :=
  ((k fn.sock).bind h.fd).map fun fd => qemuSetFdHandler hs ⟨fd, fn, device⟩

/-- `attr`: `PCI_BASE_ADDRESS_MEM_TYPE_64` is 4, `PCI_BASE_ADDRESS_MEM_PREFETCH` is 8. -/
def barAttr (conf : ACCConf) : BitVec 8 :=
  (if conf.is64 then 4 else 0) ||| (if conf.prefetch then 8 else 0)

/-- The BARs that are registered: those the configuration has. -/
def registeredBars (conf : ACCConf) (i : Fin 6) : Option (BitVec 8 × BitVec 64) :=
  if (conf.bar i).isValid then some (barAttr conf, (conf.bar i).size) else none

/-- The device as `acc_pcie_realize` sets it up; `PCI_COMMAND_IO | PCI_COMMAND_MEMORY` is 3. -/
def newDevice (h : Host σ) (id : Nat) (k : Socks) (msix : σ) : ACCPCIeState σ where
  id := id
  command := 3
  bars := registeredBars h.conf
  socks := k
  msix := msix

/-- `acc_pcie_realize`. -/
def accPcieRealize (h : Host σ) (w : World σ) : Except Fail (World σ) :=
  match h.port with
  | none => .error (.errp "NPU_COSIM_PORT environment variable not set")
  | some port =>
    let r := openAll port w.zmq
    if ∀ f ∈ opened, r.2 f ≠ none then
      match runM (listen h r.2 w.nextDev) w.handlers registered with
      | none => .error (.exit 1)
      | some handlers =>
        match accInitMsix h.q h.conf h.msix with
        | none => .error (.exit 0)
        | some msix => .ok
          { zmq := r.1
            handlers := handlers
            nics := w.nextDev :: w.nics
            chrs := w.nextDev :: w.chrs
            dev := some (newDevice h w.nextDev r.2 msix)
            gone := w.gone
            nextDev := w.nextDev + 1 }
    else .error .assertFailed

/-- `zsock_destroy`: a `NULL` pointer is left alone. -/
def zsockDestroy (r : Sockets Int × Socks) (f : Sock) : Sockets Int × Socks :=
  match r.2 f with
  | none => r
  | some id => (r.1.destroy id, r.2.set f none)

/-- `acc_pcie_exit`, on the device `d`. -/
def accPcieExit (h : Host σ) (d : ACCPCIeState σ) (w : World σ) : World σ :=
  let r := destroyed.foldl zsockDestroy (w.zmq, d.socks)
  { w with
    zmq := r.1
    dev := none
    gone := { d with socks := r.2, msix := accCleanupMsix h.q h.conf d.msix } :: w.gone }

/-! ## Opening the sockets -/

theorem mem_opened (f : Sock) : f ∈ opened := by cases f <;> decide

theorem Socks.set_self (k : Socks) (f : Sock) (v : Option Nat) : k.set f v f = v := if_pos rfl

theorem Socks.set_of_ne (k : Socks) {f g : Sock} (v : Option Nat) (h : g ≠ f) :
    k.set f v g = k g := if_neg h

/-- What the socket `f` of a device with the sockets `k` is. -/
def Holds (port : Int) (z : Sockets Int) (k : Socks) (f : Sock) (id : Nat) : Prop :=
  k f = some id ∧ ⟨id, f.endpoint.1.bound (port + f.endpoint.2)⟩ ∈ z.live

/-- The sockets `k` are live, attached to their endpoints, and different sockets. -/
structure Attached (port : Int) (z : Sockets Int) (k : Socks) : Prop where
  holds : ∀ f id, k f = some id → Holds port z k f id
  distinct : ∀ f g id, k f = some id → k g = some id → f = g

theorem attached_zsockNew {port : Int} {r : Sockets Int × Socks} (h : Attached port r.1 r.2)
    (f : Sock) : Attached port (zsockNew port r f).1 (zsockNew port r f).2 := by
  -- the number of a new socket is none of those the device has
  have hnew : ∀ g id, r.2 g = some id → id < r.1.next :=
    fun g id hg => r.1.lt_next _ (h.holds g id hg).2
  have hset : ∀ g id, (zsockNew port r f).2 g = some id →
      g = f ∧ id = r.1.next ∧ Holds port (zsockNew port r f).1 (zsockNew port r f).2 g id ∨
        g ≠ f ∧ r.2 g = some id := by
    intro g id hg
    by_cases hgf : g = f
    · subst hgf
      have hid := (Socks.set_self _ _ _).symm.trans hg
      obtain ⟨hnext, hlive⟩ := Sockets.create_eq_some hid
      exact Or.inl ⟨rfl, hnext, hg, hlive⟩
    · exact Or.inr ⟨hgf, (Socks.set_of_ne _ _ hgf).symm.trans hg⟩
  constructor
  · intro g id hg
    rcases hset g id hg with ⟨_, _, hholds⟩ | ⟨_, hold⟩
    · exact hholds
    · exact ⟨hg, Sockets.mem_create (h.holds g id hold).2⟩
  · intro g g' id hg hg'
    rcases hset g id hg with ⟨rfl, hid, _⟩ | ⟨_, hold⟩
    · rcases hset g' id hg' with ⟨rfl, _⟩ | ⟨_, hold'⟩
      · rfl
      · exact absurd (hnew g' id hold') (by omega)
    · rcases hset g' id hg' with ⟨rfl, hid', _⟩ | ⟨_, hold'⟩
      · exact absurd (hnew g id hold) (by omega)
      · exact h.distinct g g' id hold hold'

/-- **What is opened.** -/
theorem openAll_spec (port : Int) (z : Sockets Int) :
    Attached port (openAll port z).1 (openAll port z).2 := by
  refine List.foldlRecOn (motive := fun r : Sockets Int × Socks => Attached port r.1 r.2)
    opened (zsockNew port) ?_ fun r hr f _ => attached_zsockNew hr f
  exact ⟨fun f id hf => absurd hf (by simp), fun f g id hf => absurd hf (by simp)⟩

/-- **A port that is taken** leaves the pointer `NULL`. -/
theorem openAll_of_taken {port : Int} {z : Sockets Int} {f : Sock} (hbind : f.endpoint.1 = .bind)
    (h : z.Taken (port + f.endpoint.2)) : (openAll port z).2 f = none := by
  have hrun : (openAll port z).1.Taken (port + f.endpoint.2) ∧ (openAll port z).2 f = none := by
    refine List.foldlRecOn
      (motive := fun r : Sockets Int × Socks => r.1.Taken (port + f.endpoint.2) ∧ r.2 f = none)
      opened (zsockNew port) ⟨h, rfl⟩ ?_
    rintro r ⟨htaken, hnull⟩ g _
    refine ⟨htaken.create, ?_⟩
    by_cases hfg : f = g
    · subst hfg
      show r.2.set f _ f = none
      rw [Socks.set_self, hbind]
      exact Sockets.create_of_taken htaken
    · exact (Socks.set_of_ne _ _ hfg).trans hnull
  exact hrun.2

/-! ## Closing them -/

/-- Closing a socket keeps the others. -/
theorem attached_zsockDestroy {port : Int} {r : Sockets Int × Socks} (h : Attached port r.1 r.2)
    (f : Sock) : Attached port (zsockDestroy r f).1 (zsockDestroy r f).2 := by
  unfold zsockDestroy
  cases hf : r.2 f with
  | none => exact h
  | some id =>
    have hold : ∀ g i, r.2.set f none g = some i → g ≠ f ∧ r.2 g = some i := by
      intro g i hg
      by_cases hgf : g = f
      · subst hgf
        exact absurd ((Socks.set_self _ _ _).symm.trans hg) (by simp)
      · exact ⟨hgf, (Socks.set_of_ne _ _ hgf).symm.trans hg⟩
    constructor
    · intro g i hg
      obtain ⟨hgf, hi⟩ := hold g i hg
      refine ⟨hg, Sockets.mem_destroy.mpr ⟨(h.holds g i hi).2, ?_⟩⟩
      -- two fields do not hold one socket
      rintro rfl
      exact hgf (h.distinct g f i hi hf)
    · intro g g' i hg hg'
      exact h.distinct g g' i (hold g i hg).2 (hold g' i hg').2

theorem zsockDestroy_of_ne {r : Sockets Int × Socks} {f g : Sock} (h : g ≠ f) :
    (zsockDestroy r f).2 g = r.2 g := by
  unfold zsockDestroy
  cases r.2 f with
  | none => rfl
  | some id => exact Socks.set_of_ne _ _ h

/-- A socket that is not live stays so. -/
theorem live_of_zsockDestroy {r : Sockets Int × Socks} {f : Sock} {id : Nat}
    (h : (zsockDestroy r f).1.Live id) : r.1.Live id := by
  unfold zsockDestroy at h
  cases hf : r.2 f with
  | none =>
    rw [hf] at h
    exact h
  | some i =>
    rw [hf] at h
    obtain ⟨s, hs, hid⟩ := h
    exact ⟨s, (Sockets.mem_destroy.mp hs).1, hid⟩

theorem not_live_zsockDestroy {r : Sockets Int × Socks} {f : Sock} {id : Nat}
    (h : r.2 f = some id) : ¬(zsockDestroy r f).1.Live id := by
  unfold zsockDestroy
  rw [h]
  rintro ⟨s, hs, hid⟩
  exact (Sockets.mem_destroy.mp hs).2 hid

/-- The sockets a device is left with when those of `fs` are closed. -/
structure Closed (fs : List Sock) (port : Int) (k : Socks) (r : Sockets Int × Socks) : Prop where
  attached : Attached port r.1 r.2
  kept : ∀ f, f ∉ fs → r.2 f = k f
  closed : ∀ f ∈ fs, ∀ id, k f = some id → ¬r.1.Live id

theorem closed_zsockDestroy {port : Int} (fs : List Sock) {r : Sockets Int × Socks}
    (h : Attached port r.1 r.2) : Closed fs port r.2 (fs.foldl zsockDestroy r) := by
  induction fs generalizing r with
  | nil => exact ⟨h, fun _ _ => rfl, fun f hf => absurd hf List.not_mem_nil⟩
  | cons g fs ih =>
    obtain ⟨hattached, hkept, hclosed⟩ := ih (attached_zsockDestroy h g)
    refine ⟨hattached, fun f hf => ?_, fun f hf id hid => ?_⟩
    · have hne := List.ne_of_not_mem_cons hf
      exact (hkept f (List.not_mem_of_not_mem_cons hf)).trans (zsockDestroy_of_ne hne)
    · by_cases hfg : f = g
      · subst hfg
        have hdead := not_live_zsockDestroy hid
        -- and none of the rest brings it back
        refine List.foldlRecOn (motive := fun s : Sockets Int × Socks => ¬s.1.Live id) fs
          zsockDestroy hdead fun s hs e _ hlive => hs (live_of_zsockDestroy hlive)
      · have hrest : f ∈ fs := (List.mem_cons.mp hf).resolve_left hfg
        exact hclosed f hrest id ((zsockDestroy_of_ne hfg).trans hid)

/-! ## The handlers -/

theorem listen_eq_some {h : Host σ} {k : Socks} {device : Nat} {hs hs' : List FdHandler}
    {fn : FdRead} (hl : listen h k device hs fn = some hs') :
    ∃ fd, hs' = qemuSetFdHandler hs ⟨fd, fn, device⟩ := by
  obtain ⟨fd, _, heq⟩ := Option.map_eq_some_iff.mp hl
  exact ⟨fd, heq.symm⟩

/-- Every handler is one of the device. -/
def OfDevice (device : Nat) (hs : List FdHandler) : Prop := ∀ x ∈ hs, x.device = device

/-- What is registered refers to the device. -/
theorem ofDevice_of_listen {h : Host σ} {k : Socks} {device : Nat} {hs hs' : List FdHandler}
    {fns : List FdRead} (hl : runM (listen h k device) hs fns = some hs')
    (h0 : OfDevice device hs) : OfDevice device hs' := by
  obtain ⟨tr, hpath, _⟩ := path_of_runM hl
  refine hpath.invariant (P := fun _ _ => True) h0 (fun _ _ => trivial) ?_
  intro a fn b ha _ hab x hx
  obtain ⟨fd, rfl⟩ := listen_eq_some hab
  rcases List.mem_cons.mp hx with rfl | hx
  · rfl
  · exact ha x (List.mem_filter.mp hx).1

/-- The handler that is registered last is there, whatever the fds are. -/
theorem serialTx_of_listen {h : Host σ} {k : Socks} {device : Nat} {hs hs' : List FdHandler}
    (hl : runM (listen h k device) hs registered = some hs') :
    ∃ fd, ⟨fd, .serialTx, device⟩ ∈ hs' := by
  have hsplit : registered = [.handleHdlRequest, .netTxPacket] ++ [.serialTx] := rfl
  rw [hsplit, runM_append] at hl
  obtain ⟨hs₂, _, hlast⟩ := Option.bind_eq_some_iff.mp hl
  obtain ⟨hs₃, hlisten, hnil⟩ := Option.bind_eq_some_iff.mp hlast
  cases hnil
  obtain ⟨fd, rfl⟩ := listen_eq_some hlisten
  exact ⟨fd, List.mem_cons_self⟩

/-! ## The two functions -/

/-- What `acc_pcie_realize` has done, where it set up the device `d`. -/
structure Realized (h : Host σ) (port : Int) (w w' : World σ) (d : ACCPCIeState σ) : Prop where
  hasPort : h.port = some port
  dev : w'.dev = some d
  device : ∃ msix, accInitMsix h.q h.conf h.msix = some msix ∧
    d = newDevice h w.nextDev d.socks msix
  opened : (w'.zmq, d.socks) = openAll port w.zmq
  noneNull : ∀ f, d.socks f ≠ none
  handlers : runM (listen h d.socks d.id) w.handlers registered = some w'.handlers
  nics : w'.nics = d.id :: w.nics
  chrs : w'.chrs = d.id :: w.chrs
  gone : w'.gone = w.gone

/-- **What a realize that comes to its end has done.** -/
theorem realize_eq_ok {h : Host σ} {w w' : World σ} (hw : accPcieRealize h w = .ok w') :
    ∃ port d, Realized h port w w' d := by
  unfold accPcieRealize at hw
  cases hport : h.port with
  | none =>
    rw [hport] at hw
    exact absurd hw (by simp)
  | some port =>
    rw [hport] at hw
    simp only at hw
    split at hw
    · rename_i hnull
      split at hw
      · exact absurd hw (by simp)
      · rename_i hs hlisten
        split at hw
        · exact absurd hw (by simp)
        · rename_i msix hmsix
          cases hw
          exact ⟨port, _, hport, rfl, ⟨msix, hmsix, rfl⟩, rfl, fun f => hnull f (mem_opened f),
            hlisten, rfl, rfl, rfl⟩
    · exact absurd hw (by simp)

/-- **A port that is taken**: the assertions fail. -/
theorem realize_of_taken {h : Host σ} {w : World σ} {port : Int} {f : Sock}
    (hport : h.port = some port) (hbind : f.endpoint.1 = .bind)
    (htaken : w.zmq.Taken (port + f.endpoint.2)) :
    accPcieRealize h w = .error .assertFailed := by
  unfold accPcieRealize
  rw [hport]
  have hnull : ¬∀ g ∈ opened, (openAll port w.zmq).2 g ≠ none :=
    fun hall => hall f (mem_opened f) (openAll_of_taken hbind htaken)
  exact if_neg hnull

/-- What `acc_pcie_exit` leaves of the device `d`. -/
structure Exited (h : Host σ) (port : Int) (d : ACCPCIeState σ) (w w' : World σ) : Prop where
  dev : w'.dev = none
  /-- `serial_rx` and `serial_tx` stay as they are. -/
  left : ∀ f, f ∉ destroyed → ∀ id, d.socks f = some id → Holds port w'.zmq d.socks f id
  closed : ∀ f ∈ destroyed, ∀ id, d.socks f = some id → ¬w'.zmq.Live id
  handlers : w'.handlers = w.handlers
  nics : w'.nics = w.nics
  chrs : w'.chrs = w.chrs
  gone : ∃ d', w'.gone = d' :: w.gone ∧ d'.id = d.id ∧ d'.msix = accCleanupMsix h.q h.conf d.msix

/-- **What an exit leaves.** -/
theorem exit_spec {h : Host σ} {port : Int} {d : ACCPCIeState σ} {w : World σ}
    (hd : Attached port w.zmq d.socks) : Exited h port d w (accPcieExit h d w) := by
  obtain ⟨hattached, hkept, hclosed⟩ := closed_zsockDestroy destroyed (r := (w.zmq, d.socks)) hd
  refine ⟨rfl, fun f hf id hid => ⟨hid, ?_⟩, hclosed, rfl, rfl, rfl, _, rfl, rfl, rfl⟩
  exact (hattached.holds f id ((hkept f hf).trans hid)).2

end QemuHdlSim.Lifecycle
