import QemuHdlSim.Device.Serial
import QemuHdlSim.Infra.Path
import QemuHdlSim.Uart.SlaveWrite

/-!
# From a write of `TX_FIFO` to the character backend

`C_uart_tx` puts a frame of one byte on `uart_tx` for each call of `axilite_s_w`; `serial_tx` is the
handler of that socket. A run is any interleaving of clock edges, arrivals on the socket and calls
of the handler.

* `carries_run` — the log of the socket is what `C_uart_tx` was called with, and the backend got the
  part of it that the handler took
-/

namespace QemuHdlSim.UartTx

open Infra Uart Serial

/-- `axilite_s_w`, the socket, and what the character backend was given. -/
structure State where
  regs : AxiLiteSW.Regs
  uartTx : Fifo Frame
  chr : List Byte

/-- After a reset. -/
def init : State := ⟨AxiLiteSW.reset, Fifo.empty, []⟩

/-- What can happen. -/
inductive Event where
  /-- A rising clock edge, and what `C_uart_poll` finds. -/
  | edge (i : AxiLiteSW.Input) (dataAvailable : Bool)
  /-- The oldest frame in flight on `uart_tx` arrives. -/
  | deliver
  /-- QEMU calls the handler of the socket. -/
  | tx

/-- One step; `none` when the event cannot happen, or what happens is undefined. -/
def step (s : State) : Event → Option State
  | .edge i dataAvailable => some { s with
      regs := AxiLiteSW.step s.regs i dataAvailable
      uartTx := s.uartTx.sendAll ((AxiLiteSW.txCalls s.regs i dataAvailable).map fun b => [b]) }
  | .deliver => s.uartTx.deliver.map fun q => { s with uartTx := q }
  | .tx => (serialTx s.uartTx).map fun r => { s with uartTx := r.2, chr := s.chr ++ r.1 }

/-- A run, with the state each event happened in. -/
abbrev Run (s : State) (tr : List (State × Event)) (s' : State) : Prop :=
  Path (fun a e b => step a e = some b) s tr s'

/-- The calls of `C_uart_tx`. -/
def txCalls (s : State) : Event → List Byte
  | .edge i dataAvailable => AxiLiteSW.txCalls s.regs i dataAvailable
  | _ => []

/-- The handshakes of the bus. -/
def handshakes (s : State) : Event → List AxiLiteSW.Handshake
  | .edge i _ => AxiLiteSW.handshakes s.regs i
  | _ => []

/-- Reset is not asserted. -/
def Event.OutOfReset : Event → Prop
  | .edge i _ => i.iRstN = true
  | _ => True

/-! ## The socket -/

/-- The log of the socket and what the backend got, when `C_uart_tx` was called with `bytes`. -/
structure Carries (bytes : List Byte) (s : State) : Prop where
  sent : s.uartTx.sent = bytes.map fun b => [b]
  chr : s.chr = bytes.take s.uartTx.taken

/-- **One step more.** -/
theorem Carries.step {bytes : List Byte} {s s' : State} {e : Event} (h : Carries bytes s)
    (hstep : step s e = some s') : Carries (bytes ++ txCalls s e) s' := by
  obtain ⟨hsent, hchr⟩ := h
  cases e with
  | edge i dataAvailable =>
    cases hstep
    refine ⟨by rw [Fifo.sendAll_sent, hsent, List.map_append]; rfl, ?_⟩
    have htaken : s.uartTx.taken ≤ bytes.length := by
      have hle := s.uartTx.taken_le_sent
      rwa [hsent, List.length_map] at hle
    rw [Fifo.sendAll_taken, List.take_append_of_le_length htaken]
    exact hchr
  | deliver =>
    obtain ⟨q, hq, rfl⟩ := Option.map_eq_some_iff.mp hstep
    obtain ⟨hsame, htaken, _⟩ := Fifo.deliver_eq_some hq
    rw [show txCalls s .deliver = [] from rfl, List.append_nil]
    exact ⟨hsame.trans hsent, by rw [htaken]; exact hchr⟩
  | tx =>
    obtain ⟨⟨bs, q⟩, hr, rfl⟩ := Option.map_eq_some_iff.mp hstep
    obtain ⟨hsame, htaken⟩ := serialTx_eq_some hsent hr
    rw [show txCalls s .tx = [] from rfl, List.append_nil]
    exact ⟨hsame.trans hsent, by rw [htaken, ← hchr]⟩

/-- **A run**: the backend got the first of the bytes that were sent. -/
theorem carries_run {bytes : List Byte} {s s' : State} {tr : List (State × Event)}
    (h : Run s tr s') (h0 : Carries bytes s) : Carries (bytes ++ events txCalls tr) s' := by
  induction h generalizing bytes with
  | nil => rwa [events_nil, List.append_nil]
  | cons hstep _ ih =>
    rw [events_cons, ← List.append_assoc]
    exact ih (h0.step hstep)

end QemuHdlSim.UartTx
