import QemuHdlSim.Infra.Fair
import QemuHdlSim.System.Cosim

/-!
# Fair runs of the co-simulation

What the two processes rely on, and no line of either says: that the network delivers, that
`zpoller_wait` comes to every socket that has something, that a receive returns when there is a
frame, and that the main loop runs. `Fair` and `FairHandler` are these assumptions.
-/

namespace QemuHdlSim.Cosim

open Infra

variable {p : BusParams} {conf : ACCConf} {warnMs : Int} {s s' : State p}

/-- What goes through a pipe. -/
def Pipe.Frame : Pipe → Type
  | .qemuResp => ZFrame
  | _ => ACCData

/-- The pipe of that name. -/
def State.fifo (s : State p) : (pipe : Pipe) → Fifo pipe.Frame
  | .qemuReq => s.dev.qemuReq
  | .qemuResp => s.dev.qemuResp
  | .hdlReq => s.hdlReq
  | .hdlResp => s.hdlResp

/-- The pipe that a reported socket is the end of; `initsock` is the end of none of the four. -/
def PollSel.pipe : PollSel → Option Pipe
  | .qemuReq => some .qemuReq
  | .hdlResp => some .hdlResp
  | _ => Option.none

/-- The event is an edge on which `C_poll` finds `sel`. -/
def Event.Polls (sel : PollSel) (e : Event p) : Prop := ∃ x, e = .edge x ∧ x.poll = sel

/-- A run without end. -/
abbrev Always (p : BusParams) (conf : ACCConf) (warnMs : Int) :=
  Forever fun (a : State p) e b => step conf warnMs a e = some b

/-- The sockets do what they are there for. -/
structure Fair (r : Always p conf warnMs) : Prop where
  /-- What is in flight arrives. -/
  delivers : ∀ pipe, WeaklyFair (fun n => ((r.state n).fifo pipe).InFlight)
    fun n => r.input n = .deliver pipe
  /-- What is queued for the HDL side is polled. -/
  polls : ∀ sel pipe, sel.pipe = some pipe →
    WeaklyFair (fun n => ((r.state n).fifo pipe).Queued) fun n => (r.input n).Polls sel
  /-- An access for which there is an answer receives it. -/
  receives : WeaklyFair
    (fun n => (r.state n).dev.waiting.isSome = true ∧ (r.state n).dev.qemuResp.Queued)
    fun n => ∃ env, r.input n = .recv env

/-- The main loop of QEMU runs when it can. -/
structure FairHandler (r : Always p conf warnMs) : Prop where
  /-- A request that waits for the handler activates it, though accesses may come in between. -/
  activates : StronglyFair
    (fun n => (r.state n).handling = false ∧ (r.state n).dev.waiting = none ∧
      (r.state n).hdlReq.Queued)
    fun n => r.input n = .activate
  /-- The handler goes on. -/
  iterates : WeaklyFair (fun n => (step conf warnMs (r.state n) .iterate).isSome = true)
    fun n => r.input n = .iterate

/-! ## The pipes -/

/-- A poll takes from the socket it reports, if from any. -/
theorem State.poll_moves {t : State p} {sel : PollSel} {sock : PollSock}
    (h : s.poll sel = some (sock, t)) (pipe : Pipe) : (s.fifo pipe).Moves (t.fifo pipe) := by
  cases sel with
  | none =>
    cases h
    exact Fifo.Moves.refl _
  | initsock =>
    cases h
    exact Fifo.Moves.refl _
  | qemuReq =>
    obtain ⟨⟨f, q⟩, hrecv, heq⟩ := Option.map_eq_some_iff.mp h
    cases heq
    cases pipe with
    | qemuReq => exact Fifo.Moves.takes hrecv
    | _ => exact Fifo.Moves.refl _
  | hdlResp =>
    obtain ⟨⟨f, q⟩, hrecv, heq⟩ := Option.map_eq_some_iff.mp h
    cases heq
    cases pipe with
    | hdlResp => exact Fifo.Moves.takes hrecv
    | _ => exact Fifo.Moves.refl _

/-- An edge takes from what it polls, and sends. -/
theorem State.edge_moves {x : Edge p} (h : s.edge conf x = some s') (pipe : Pipe) :
    (s.fifo pipe).Moves (s'.fifo pipe) := by
  obtain ⟨⟨sock, t⟩, hpoll, h⟩ := Option.bind_eq_some_iff.mp h
  obtain ⟨r, _, h⟩ := Option.bind_eq_some_iff.mp h
  obtain ⟨resps, _, h⟩ := Option.bind_eq_some_iff.mp h
  obtain ⟨reqs, _, rfl⟩ := Option.map_eq_some_iff.mp h
  have hmoves := State.poll_moves hpoll pipe
  obtain ⟨hreq, _, _, _, hresp⟩ := State.poll_eq_some hpoll
  cases pipe with
  | qemuReq => exact hmoves
  | hdlResp => exact hmoves
  | qemuResp =>
    show s.dev.qemuResp.Moves (t.dev.qemuResp.sendAll _)
    rw [hresp]
    exact Fifo.Moves.sends _
  | hdlReq =>
    show s.hdlReq.Moves (t.hdlReq.sendAll _)
    rw [hreq]
    exact Fifo.Moves.sends _

/-- The frame that is delivered was the oldest in flight on its pipe. -/
theorem State.deliver_fifo {pipe : Pipe} (h : s.deliver pipe = some s') :
    (s.fifo pipe).deliver = some (s'.fifo pipe) ∧
      ∀ other, other ≠ pipe → s'.fifo other = s.fifo other := by
  cases pipe with
  | qemuReq =>
    obtain ⟨q, hq, rfl⟩ := Option.map_eq_some_iff.mp h
    exact ⟨hq, fun other ho => by cases other <;> first | rfl | exact absurd rfl ho⟩
  | qemuResp =>
    obtain ⟨q, hq, rfl⟩ := Option.map_eq_some_iff.mp h
    exact ⟨hq, fun other ho => by cases other <;> first | rfl | exact absurd rfl ho⟩
  | hdlReq =>
    obtain ⟨q, hq, rfl⟩ := Option.map_eq_some_iff.mp h
    exact ⟨hq, fun other ho => by cases other <;> first | rfl | exact absurd rfl ho⟩
  | hdlResp =>
    obtain ⟨q, hq, rfl⟩ := Option.map_eq_some_iff.mp h
    exact ⟨hq, fun other ho => by cases other <;> first | rfl | exact absurd rfl ho⟩

/-- **One step**, on every pipe. -/
theorem moves_step {e : Event p} (h : step conf warnMs s e = some s') (pipe : Pipe) :
    (s.fifo pipe).Moves (s'.fifo pipe) := by
  cases e with
  | edge x => exact State.edge_moves h pipe
  | interrupt d stack =>
    cases h
    cases pipe with
    | hdlReq => exact Fifo.Moves.sends _
    | _ => exact Fifo.Moves.refl _
  | deliver other =>
    obtain ⟨hdel, hrest⟩ := State.deliver_fifo h
    by_cases hp : pipe = other
    · rw [hp]
      exact Fifo.Moves.arrives hdel
    · rw [hrest pipe hp]
      exact Fifo.Moves.refl _
  | call a =>
    simp only [step] at h
    split at h
    · exact absurd h (by simp)
    · obtain ⟨d, hcall, rfl⟩ := Option.map_eq_some_iff.mp h
      obtain ⟨_, rfl⟩ := MmioState.call_eq_some hcall
      cases pipe with
      | qemuReq => exact Fifo.Moves.sends [a.request (s.dev.txid + 1)]
      | _ => exact Fifo.Moves.refl _
  | recv env =>
    obtain ⟨⟨a, r, d⟩, hrecv, rfl⟩ := Option.map_eq_some_iff.mp h
    obtain ⟨_, q, hq, rfl⟩ := MmioState.recv_eq_some hrecv
    cases pipe with
    | qemuResp =>
      rcases accZframeRecvLogged_cases hq with ⟨_, _, rfl⟩ | ⟨_, f, _, hf⟩
      · exact Fifo.Moves.refl _
      · exact Fifo.Moves.takes hf
    | _ => exact Fifo.Moves.refl _
  | activate =>
    obtain ⟨_, rfl⟩ := step_activate h
    cases pipe <;> exact Fifo.Moves.refl _
  | finish =>
    obtain ⟨_, rfl⟩ := step_finish h
    cases pipe <;> exact Fifo.Moves.refl _
  | iterate =>
    obtain ⟨_, hserve⟩ := step_iterate h
    obtain ⟨⟨f, q⟩, hq, h⟩ := Option.bind_eq_some_iff.mp hserve
    obtain ⟨r, _, rfl⟩ := Option.map_eq_some_iff.mp h
    cases pipe with
    | hdlReq => exact Fifo.Moves.takes hq
    | hdlResp => exact Fifo.Moves.sends _
    | _ => exact Fifo.Moves.refl _

variable {r : Always p conf warnMs}

/-- **What is on its way arrives**, on every pipe. -/
theorem Fair.arrives (h : Fair r) (pipe : Pipe) :
    LeadsTo (fun n => ((r.state n).fifo pipe).taken < ((r.state n).fifo pipe).sent.length)
      fun n => ((r.state n).fifo pipe).Queued := by
  refine Fifo.leadsTo_queued (fun n => moves_step (r.next n) pipe) (h.delivers pipe) fun n hn => ?_
  have hstep := r.next n
  rw [hn] at hstep
  exact (State.deliver_fifo hstep).1

end QemuHdlSim.Cosim
