import QemuHdlSim.Bridge.Dpi
import QemuHdlSim.Infra.Lists

/-!
# What `C_req_write` packs

`packed` is the list of strobed bytes of a burst, beat by beat and lane by lane, and
`cReqWrite_spec` says that the frame's data buffer is that list written over the stack: the
strobed bytes first, without gaps, and behind them whatever the stack held. The `data_size` of
the frame comes from `(len, width)` alone and is not looked at here.
-/

namespace QemuHdlSim

open Infra

/-- The strobed bytes of the first `j` lanes of beat `i`. -/
def packedLanes (bit : Nat → Nat → Bool) (byte : Nat → Byte) (w i j : Nat) : List Byte :=
  (List.range j).filterMap (fun l => if bit i l then some (byte (i * w + l)) else none)

/-- The strobed bytes of the first `n` beats. -/
def packed (bit : Nat → Nat → Bool) (byte : Nat → Byte) (w n : Nat) : List Byte :=
  (List.range n).flatMap (fun i => packedLanes bit byte w i w)

/-- The strobe of lane `j` of beat `i`, as `C_req_write` sees it. -/
def strbBit {n : Nat} (strb : Fin n → BitVec 64) (i j : Nat) : Bool :=
  if h : i < n then (strb ⟨i, h⟩).getLsbD j else false

theorem packedLanes_length_le (bit : Nat → Nat → Bool) (byte : Nat → Byte) (w i j : Nat) :
    (packedLanes bit byte w i j).length ≤ j := by
  have h := List.length_filterMap_le
    (fun l => if bit i l then some (byte (i * w + l)) else none) (List.range j)
  rw [List.length_range] at h
  exact h

theorem packedLanes_succ (bit : Nat → Nat → Bool) (byte : Nat → Byte) (w i j : Nat) :
    packedLanes bit byte w i (j + 1)
      = packedLanes bit byte w i j ++ (if bit i j then [byte (i * w + j)] else []) := by
  unfold packedLanes
  rw [List.range_succ, List.filterMap_append]
  by_cases h : bit i j <;> simp [h]

theorem packed_succ (bit : Nat → Nat → Bool) (byte : Nat → Byte) (w n : Nat) :
    packed bit byte w (n + 1) = packed bit byte w n ++ packedLanes bit byte w n w := by
  unfold packed
  rw [List.range_succ, List.flatMap_append, List.flatMap_singleton]

theorem packed_length_le (bit : Nat → Nat → Bool) (byte : Nat → Byte) (w : Nat) :
    ∀ n, (packed bit byte w n).length ≤ n * w
  | 0 => by simp [packed]
  | n + 1 => by
    rw [packed_succ, List.length_append, Nat.succ_mul]
    have h1 := packed_length_le bit byte w n
    have h2 := packedLanes_length_le bit byte w n w
    omega

/-- The state of the packing loops once the list `l` was written over `old`. -/
structure PackedInto (l : List Byte) (old : Buf buffSize) (st : PackState) : Prop where
  k : st.k = l.length
  acc : ∀ m < buffSize, st.acc.get m = overlay l old.get m

/-- One lane: the byte is appended when its strobe is set, and the next strobe comes up. -/
theorem packLane_spec {busw i j : Nat} (data : Buf buffSize) {old : Buf buffSize}
    {l : List Byte} {st : PackState} {x : BitVec 64} (hp : PackedInto l old st)
    (hs : st.strb = x >>> j) (hdata : i * busw + j < buffSize) (hk : l.length < buffSize) :
    ∃ st', packLane busw data i j st = some st' ∧ st'.strb = x >>> (j + 1) ∧
      PackedInto (l ++ (if x.getLsbD j then [data.get (i * busw + j)] else [])) old st' := by
  have hbit : st.strb.getLsbD 0 = x.getLsbD j := by
    rw [hs, BitVec.getLsbD_ushiftRight, Nat.add_zero]
  have hshift : st.strb >>> 1 = x >>> (j + 1) := by rw [hs, BitVec.shiftRight_add]
  unfold packLane
  cases hb : x.getLsbD j with
  | false =>
    rw [hbit, hb]
    exact ⟨_, if_neg (by simp), hshift, by simpa using ⟨hp.k, hp.acc⟩⟩
  | true =>
    rw [hbit, hb, if_pos rfl, Buf.get?_eq_some _ hdata, Option.bind_some,
      Buf.set?_eq_some _ _ (by rw [hp.k]; exact hk), Option.map_some]
    refine ⟨_, rfl, hshift, ?_, ?_⟩
    · simp [hp.k]
    · intro m hm
      show (Buf.set _ _ _).get m = _
      rw [Buf.get_set _ _ _ _ (by rw [hp.k]; exact hk), hp.k, if_pos rfl, overlay_snoc,
        hp.acc m hm]

/-- One beat: its strobed bytes are appended. -/
theorem packBeat_spec {n busw i : Nat} (data : Buf buffSize) {old : Buf buffSize}
    (strb : Fin n → BitVec 64) {l : List Byte} {st : PackState} (hp : PackedInto l old st)
    (hi : i < n) (hl : l.length ≤ i * busw) (hfit : (i + 1) * busw ≤ buffSize) :
    ∃ st', packBeat busw data strb i st = some st' ∧
      PackedInto (l ++ packedLanes (strbBit strb) data.get busw i busw) old st' := by
  unfold packBeat
  rw [dif_pos hi]
  rw [Nat.succ_mul] at hfit
  -- after `j` lanes the strobes are shifted by `j` and the bytes of these lanes are there
  obtain ⟨t, ht, _, hInv⟩ := loopM_spec (packLane busw data i)
    (fun j t => t.strb = strb ⟨i, hi⟩ >>> j ∧
      PackedInto (l ++ packedLanes (strbBit strb) data.get busw i j) old t)
    busw (s := { st with strb := strb ⟨i, hi⟩ })
    ⟨by simp, by simpa [packedLanes] using ⟨hp.k, hp.acc⟩⟩
    (by
      intro j t hj ⟨hs, hpt⟩
      have hlen := packedLanes_length_le (strbBit strb) data.get busw i j
      have hin : i * busw + j < buffSize := by omega
      obtain ⟨t', ht', hs', hp'⟩ := packLane_spec data hpt hs hin
        (by rw [List.length_append]; omega)
      refine ⟨t', ht', hs', ?_⟩
      have hb : strbBit strb i j = (strb ⟨i, hi⟩).getLsbD j := dif_pos hi
      rw [packedLanes_succ, hb, ← List.append_assoc]
      exact hp')
  exact ⟨t, ht, hInv⟩

/--
**What `C_req_write` sends.**

When the burst fits the buffers no access leaves them, and the frame carries the strobed bytes
of all beats, packed, over the old contents of the stack.
-/
theorem cReqWrite_spec {n busw : Nat} (stack : ACCData) (addr : BitVec 64) (width len : Nat)
    (data : Buf buffSize) (strb : Fin n → BitVec 64) (hn : len < n)
    (hfit : (len + 1) * busw ≤ buffSize) :
    ∃ d : Buf buffSize,
      cReqWrite busw stack addr width len data strb = some { stack with
        dataSize := burstSize width len, address := addr, op := .write, data := d } ∧
      ∀ m < buffSize,
        d.get m = overlay (packed (strbBit strb) data.get busw (len + 1)) stack.data.get m := by
  obtain ⟨t, ht, hInv⟩ := loopM_spec (packBeat busw data strb)
    (fun i t => PackedInto (packed (strbBit strb) data.get busw i) stack.data t)
    (len + 1) (s := ⟨stack.data, 0, 0⟩)
    ⟨rfl, fun m _ => rfl⟩
    (by
      intro i t hi hInv
      have hle : (i + 1) * busw ≤ (len + 1) * busw := Nat.mul_le_mul_right _ (by omega)
      obtain ⟨t', ht', hp'⟩ := packBeat_spec data strb hInv (by omega)
        (packed_length_le _ _ _ i) (by omega)
      exact ⟨t', ht', by rw [packed_succ]; exact hp'⟩)
  refine ⟨t.acc, ?_, hInv.acc⟩
  unfold cReqWrite
  rw [ht]
  rfl

end QemuHdlSim
