import QemuHdlSim.Infra.Fifo
import QemuHdlSim.Infra.Lists
import QemuHdlSim.Uart.Dpi

/-!
# The serial port of the device (`accelerator_pcie.c`)

The character backend calls `serial_rx` with what it has received, at most as many bytes as
`serial_can_rx` says. `serial_tx` is the handler of the socket `serial_tx`: it gives the first byte
of each frame to the backend, which is taken to accept it.
-/

namespace QemuHdlSim.Serial

open Infra Uart

/-- `serial_can_rx` -/
def serialCanRx : Nat := 1

/-- `serial_rx`: the frame sent on the socket `serial_rx`. -/
def serialRx (buf : List Byte) : Frame := buf

/-- The byte `serial_tx` writes; undefined when the frame has none. -/
def frameByte? (f : Frame) : Option Byte := f.head?

/-- `serial_tx`: the bytes given to the backend, and the socket after it. -/
def serialTx (q : Fifo Frame) : Option (List Byte × Fifo Frame) :=
  q.drain? frameByte? (q.delivered - q.taken)

/-- **What the backend gets**, when every frame of the log is one byte. -/
theorem serialTx_eq_some {q q' : Fifo Frame} {bs bytes : List Byte}
    (hlog : q.sent = bytes.map fun b => [b]) (h : serialTx q = some (bs, q')) :
    q'.sent = q.sent ∧ bytes.take q'.taken = bytes.take q.taken ++ bs := by
  obtain ⟨hsent, fs, htaken, hfs⟩ := Fifo.drain?_eq_some h
  refine ⟨hsent, ?_⟩
  have hhead : ∀ (f : Frame) b, frameByte? f = some b → b = f.headD 0 := by
    intro f b hb
    rw [List.headD_eq_head?_getD, show f.head? = some b from hb]
    rfl
  have hbs := map_of_mapM (k := id) hhead hfs
  rw [List.map_id] at hbs
  rw [hsent, hlog, ← List.map_take, ← List.map_take] at htaken
  have hmap := congrArg (List.map fun f : Frame => f.headD 0) htaken
  rw [List.map_append, List.map_map, List.map_map, ← hbs] at hmap
  have hid : ((fun f : Frame => f.headD 0) ∘ fun b => [b]) = (id : Byte → Byte) := rfl
  rwa [hid, List.map_id, List.map_id] at hmap

/-- The handler then comes to its end. -/
theorem serialTx_isSome {q : Fifo Frame} {bytes : List Byte}
    (hlog : q.sent = bytes.map fun b => [b]) : ∃ r, serialTx q = some r := by
  refine Fifo.drain?_isSome (fun f hf => ?_) _
  rw [hlog] at hf
  obtain ⟨b, _, rfl⟩ := List.mem_map.mp hf
  exact ⟨b, rfl⟩

end QemuHdlSim.Serial
