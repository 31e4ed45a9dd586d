import QemuHdlSim.Bridge.Dpi
import QemuHdlSim.Bridge.MasterRead
import QemuHdlSim.Bridge.MasterWrite
import QemuHdlSim.Bridge.SlaveRead
import QemuHdlSim.Bridge.SlaveWrite

/-!
# The bridge IP (`axi4_ip_mod.sv`, `axi4_s_i.sv`)

The four AXI modules, the `C_poll` process and the reset. `C_poll` runs on every edge, in reset
too; the request it found is a pulse towards one of three modules on the next edge. There is no
way for a module to hold a pulse back.

`rst_n_out` is low for the first 100 edges; since registers sample values from before the edge,
it is seen high from the 101st edge on. Before the first edge the state registers are unknown
and match no case, so no call that depends on them is made on it; it resets them.
-/

namespace QemuHdlSim.Axi4Ip

open Infra

variable {p : BusParams}

/-- The registers and variables of `axi4_ip` and of the modules in it. -/
structure State (p : BusParams) where
  /-- The rising edges so far. -/
  edges : Nat
  vars : PollVars
  reqMRvalid : Bool
  reqMWvalid : Bool
  reqSRvalid : Bool
  mr : Axi4MR.State
  mw : Axi4MW.State p
  sr : Axi4SR.State p
  sw : Axi4SW.State p

/-- The AXI inputs of one cycle. -/
structure Input (p : BusParams) where
  iMArready : Bool
  iMRdata : BusWord p
  iMRlast : Bool
  iMRvalid : Bool
  iMAwready : Bool
  iMWready : Bool
  iMBvalid : Bool
  iSArid : BitVec p.tagw
  iSAraddr : BitVec 64
  iSArlen : BitVec 8
  iSArsize : BitVec 3
  iSArvalid : Bool
  iSRready : Bool
  iSAwid : BitVec p.tagw
  iSAwaddr : BitVec 64
  iSAwlen : BitVec 8
  iSAwsize : BitVec 3
  iSAwvalid : Bool
  iSWdata : BusWord p
  iSWstrb : BitVec p.stbw
  iSWvalid : Bool
  iSBready : Bool

/-- A slave that is ready and sends nothing, and no DMA, for the examples. -/
def readyInput : Input bus64 where
  iMArready := true
  iMRdata := fun _ => 0
  iMRlast := false
  iMRvalid := false
  iMAwready := true
  iMWready := true
  iMBvalid := false
  iSArid := 0
  iSAraddr := 0
  iSArlen := 0
  iSArsize := 0
  iSArvalid := false
  iSRready := true
  iSAwid := 0
  iSAwaddr := 0
  iSAwlen := 0
  iSAwsize := 0
  iSAwvalid := false
  iSWdata := fun _ => 0
  iSWstrb := 0
  iSWvalid := false
  iSBready := true

/-- Time zero. -/
def init : State p where
  edges := 0
  vars := PollVars.zero
  reqMRvalid := false
  reqMWvalid := false
  reqSRvalid := false
  mr := Axi4MR.reset
  mw := Axi4MW.reset
  sr := Axi4SR.reset
  sw := Axi4SW.reset

/-- `o_axi_aresetn`, as the next edge samples it. -/
def State.aresetn (s : State p) : Bool := decide (100 ≤ s.edges)

/-! ## Port maps -/

/-- The inputs of `axi4_m_r_inst`. -/
def mrInput (s : State p) (i : Input p) : Axi4MR.Input p where
  iRstN := s.aresetn
  reqAddr := s.vars.addr
  reqLen := s.vars.len.setWidth 8
  reqSize := s.vars.size.setWidth 3
  reqValid := s.reqMRvalid
  iMArready := i.iMArready
  iMRdata := i.iMRdata
  iMRlast := i.iMRlast
  iMRvalid := i.iMRvalid

/-- The inputs of `axi4_m_w_inst`. -/
def mwInput (s : State p) (i : Input p) : Axi4MW.Input p where
  iRstN := s.aresetn
  reqAddr := s.vars.addr
  reqLen := s.vars.len.setWidth 8
  reqSize := s.vars.size.setWidth 3
  reqStrb := s.vars.strb.setWidth p.stbw
  reqData := s.vars.data
  reqValid := s.reqMWvalid
  iMAwready := i.iMAwready
  iMWready := i.iMWready
  iMBvalid := i.iMBvalid

/-- The inputs of `axi4_s_r_inst`. -/
def srInput (s : State p) (i : Input p) : Axi4SR.Input p where
  iRstN := s.aresetn
  reqData := s.vars.data
  reqValid := s.reqSRvalid
  iSArid := i.iSArid
  iSAraddr := i.iSAraddr
  iSArlen := i.iSArlen
  iSArsize := i.iSArsize
  iSArvalid := i.iSArvalid
  iSRready := i.iSRready

/-- The inputs of `axi4_s_w_inst`. -/
def swInput (s : State p) (i : Input p) : Axi4SW.Input p where
  iRstN := s.aresetn
  iSAwid := i.iSAwid
  iSAwaddr := i.iSAwaddr
  iSAwlen := i.iSAwlen
  iSAwsize := i.iSAwsize
  iSAwvalid := i.iSAwvalid
  iSWdata := i.iSWdata
  iSWstrb := i.iSWstrb
  iSWvalid := i.iSWvalid
  iSBready := i.iSBready

/-! ## One edge -/

/-- The state after the edge, when `C_poll` left `v` in the variables. -/
def next (s : State p) (i : Input p) (v : PollVars) : State p where
  edges := s.edges + 1
  vars := v
  -- the poll runs in reset too, and so do the pulses
  reqMRvalid := decide (v.reqType = .mRd)
  reqMWvalid := decide (v.reqType = .mWr)
  reqSRvalid := decide (v.reqType = .sRd)
  mr := Axi4MR.step s.mr (mrInput s i)
  mw := Axi4MW.step s.mw (mwInput s i)
  sr := Axi4SR.step s.sr (srInput s i)
  sw := Axi4SW.step s.sw (swInput s i)

/-- One edge on which `C_poll` finds `sock`: the new state, and the frame sent on `initsock2`. -/
def edge (conf : ACCConf) (sock : PollSock) (s : State p) (i : Input p) :
    Option (State p × Option ACCConf) :=
  (cPoll p.stbw conf sock s.vars).map fun r => (next s i r.1, r.2)

/-- What one edge meets: what `C_poll` finds, and the AXI inputs. -/
structure Cycle (p : BusParams) where
  sock : PollSock
  inp : Input p

/-- `edge` as a step: the new state. -/
def clock (conf : ACCConf) (s : State p) (c : Cycle p) : Option (State p) :=
  (edge conf c.sock s c.inp).map Prod.fst

/-- The `C_resp_read` call of this edge, if one is made. -/
def respReadCalls (s : State p) (i : Input p) : List Axi4MR.RespReadCall :=
  if s.edges = 0 then [] else Axi4MR.cReq s.mr (mrInput s i)

/-- The `C_resp_write` call of this edge, if one is made. -/
def respWriteCalls (s : State p) (i : Input p) : List Unit := Axi4MW.cResp s.mw (mwInput s i)

/-- The `C_req_read` call of this edge, if one is made. -/
def reqReadCalls (s : State p) (i : Input p) : List (Axi4SR.ReqReadCall p) :=
  if s.edges = 0 then [] else Axi4SR.cReq s.sr (srInput s i)

/-- The `C_req_write` call of this edge, if one is made. -/
def reqWriteCalls (s : State p) (i : Input p) : List (Axi4SW.ReqWriteCall p) :=
  if s.edges = 0 then [] else Axi4SW.cReq s.sw (swInput s i)

/--
The frames this edge sends on `qemu_resp`, with `stack` under the frames the C code builds. The
processes of one edge are taken in the order of their instances.
-/
def respFrames (stack : ACCData) (s : State p) (i : Input p) : Option (List ACCData) :=
  ((respReadCalls s i).mapM fun c => cRespRead p.stbw stack c.addr c.dataTmp).map fun fs =>
    fs ++ (respWriteCalls s i).map fun _ => cRespWrite stack

/-- The frames of the `C_req_read` calls of this edge. -/
def reqReadFrames (stack : ACCData) (s : State p) (i : Input p) : List ACCData :=
  (reqReadCalls s i).map fun c =>
    cReqRead stack c.addr c.width.toNat c.len.toNat (c.id.setWidth 32)

/-- The frames of the `C_req_write` calls of this edge. -/
def reqWriteFrames (stack : ACCData) (s : State p) (i : Input p) : Option (List ACCData) :=
  (reqWriteCalls s i).mapM fun c =>
    cReqWrite p.stbw stack c.addr c.width.toNat c.len.toNat c.data c.strb

/-! ## Interrupts -/

/-- `vector`: the one-hot interrupt number in binary. -/
def vector (msixData : BitVec 32) : BitVec 32 :=
  match (List.range 32).find? (fun k => msixData = BitVec.twoPow 32 k) with
  | some k => BitVec.ofNat 32 k
  -- no bit or several
  | none => 0xFFFFFFFF

/-- The `INTR` process: the `C_req_interrupt` call made on a rising `cfg_interrupt_msix_int`. -/
def reqInterruptCalls (s : State p) (msixData : BitVec 32) : List (BitVec 32) :=
  if s.aresetn then [vector msixData] else []

/-! ## What an edge does -/

theorem aresetn_eq_true {s : State p} : s.aresetn = true ↔ 100 ≤ s.edges := decide_eq_true_iff

theorem clock_eq_some {conf : ACCConf} {c : Cycle p} {s s' : State p}
    (h : clock conf s c = some s') :
    ∃ v r, cPoll p.stbw conf c.sock s.vars = some (v, r) ∧ s' = next s c.inp v := by
  obtain ⟨⟨s'', r⟩, hedge, rfl⟩ := Option.map_eq_some_iff.mp h
  obtain ⟨⟨v, r'⟩, hpoll, heq⟩ := Option.map_eq_some_iff.mp hedge
  cases heq
  exact ⟨v, r', hpoll, rfl⟩

/-- In reset every module is reset. -/
theorem next_of_reset {s : State p} (h : s.edges < 100) (i : Input p) (v : PollVars) :
    (next s i v).mr = Axi4MR.reset ∧ (next s i v).mw = Axi4MW.reset ∧
      (next s i v).sr = Axi4SR.reset ∧ (next s i v).sw = Axi4SW.reset := by
  have hr : s.aresetn = false := by
    unfold State.aresetn
    exact decide_eq_false (by omega)
  simp [next, Axi4MR.step, Axi4MW.step, Axi4SR.step, Axi4SW.step, mrInput, mwInput, srInput,
    swInput, hr]

/-- An edge in reset, when nothing was polled yet. -/
theorem next_init {k : Nat} (hk : k < 100) (i : Input p) :
    next { init with edges := k } i PollVars.zero = { init with edges := k + 1 } := by
  have hreset := next_of_reset (s := { init with edges := k }) hk i PollVars.zero
  simp only [next] at hreset ⊢
  simp only [hreset]
  rfl

/-! ## The slaves -/

/-- In reset the slaves are reset, and they are well-formed ever after. -/
structure SlavesWf (s : State p) : Prop where
  reset : s.edges < 100 → s.sr = Axi4SR.reset ∧ s.sw = Axi4SW.reset
  sr : Axi4SR.Wf s.sr
  sw : Axi4SW.Wf s.sw

theorem slavesWf_init : SlavesWf (p := p) init :=
  ⟨fun _ => ⟨rfl, rfl⟩, Axi4SR.wf_reset, Axi4SW.wf_reset⟩

/-- The B handshake of this edge, if there is one. -/
def bHandshake (s : State p) (i : Input p) : List Unit := Axi4SW.bHandshake s.sw (swInput s i)

/-- One edge keeps the slaves well-formed; the step law of the B channel, in reset and after. -/
theorem SlavesWf.next {s : State p} (h : SlavesWf s) (i : Input p) (v : PollVars) :
    SlavesWf (next s i v) ∧
      Axi4SW.owedB s.sw ++ (reqWriteCalls s i).map (fun _ => ())
        = bHandshake s i ++ Axi4SW.owedB (Axi4Ip.next s i v).sw := by
  by_cases hedges : s.edges < 100
  · -- in reset no call is made and nothing is owed
    obtain ⟨_, hsw⟩ := h.reset hedges
    obtain ⟨_, _, hsr', hsw'⟩ := next_of_reset hedges i v
    have hcalls : reqWriteCalls s i = [] := by
      unfold reqWriteCalls
      rw [hsw, Axi4SW.cReq_of_idle rfl]
      exact ite_self []
    refine ⟨⟨fun _ => ⟨hsr', hsw'⟩, by rw [hsr']; exact Axi4SR.wf_reset,
      by rw [hsw']; exact Axi4SW.wf_reset⟩, ?_⟩
    rw [hcalls, hsw', bHandshake, hsw]
    simp [Axi4SW.bHandshake, Axi4SW.owedB, Axi4SW.reset]
  · have hr : s.aresetn = true := aresetn_eq_true.mpr (by omega)
    obtain ⟨hwf, hlaw⟩ := Axi4SW.b_law (i := swInput s i) hr h.sw
    have hcalls : reqWriteCalls s i = Axi4SW.cReq s.sw (swInput s i) := if_neg (by omega)
    refine ⟨⟨fun hlt => absurd hlt (by simp only [Axi4Ip.next]; omega),
      Axi4SR.Wf.of_step (i := srInput s i) hr h.sr, hwf⟩, ?_⟩
    rw [hcalls]
    exact hlaw

/-- After the first edge an AR handshake is a `C_req_read` call. -/
theorem reqReadCalls_of_arHandshake {s : State p} {i : Input p} (h : SlavesWf s)
    (hedges : s.edges ≠ 0) (ha : Axi4SR.ArHandshake s.sr (srInput s i)) :
    reqReadCalls s i = [⟨i.iSAraddr, i.iSArsize, i.iSArlen, i.iSArid⟩] := by
  unfold reqReadCalls
  rw [if_neg hedges, Axi4SR.cReq_eq h.sr, if_pos ha]
  rfl

end QemuHdlSim.Axi4Ip
