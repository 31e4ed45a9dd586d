import QemuHdlSim.Nic.Bridge

/-!
# The encoding of the last beat

`C_nic_poll` turns the size of a packet into a number of beats and a mask of lanes. The mask is
made in 64 bits, goes through an `int` (`m_i_last_keep`, `i_last_keep`), and ends in the `KEEPW`
lanes of `r_last_keep`. `Lossless` says that the size can be had back from the two registers.

`lossless_iff` — on a bus of at most 32 lanes nothing is lost. On 64 lanes the `int` is extended
by its sign, so that a mask of 32 lanes or more comes out with all of them.
-/

namespace QemuHdlSim.Nic

open Infra

variable {w : Nat}

/-- How many lanes are kept. -/
def popcount (keep : BitVec w) : Nat := (List.range w).countP keep.getLsbD

/-- The registers of `axis_m` say that the packet has `size` bytes. -/
structure Lossless (size : Nat) (r : AxisM.Regs w) : Prop where
  sum : r.len.toNat * w + popcount r.lastKeep = size
  pos : 1 ≤ popcount r.lastKeep
  le : popcount r.lastKeep ≤ w
  lowest : ∀ j < w, r.lastKeep.getLsbD j = decide (j < popcount r.lastKeep)

theorem popcount_eq {keep : BitVec w} {n : Nat} (hn : n ≤ w)
    (h : ∀ j < w, keep.getLsbD j = decide (j < n)) : popcount keep = n := by
  have hlow : (List.range n).countP keep.getLsbD = n := by
    have hall : ∀ j ∈ List.range n, keep.getLsbD j = true := by
      intro j hj
      have hlt := List.mem_range.mp hj
      rw [h j (by omega), decide_eq_true hlt]
    rw [List.countP_eq_length.mpr hall, List.length_range]
  have hhigh : ((List.range (w - n)).map (n + ·)).countP keep.getLsbD = 0 := by
    refine List.countP_eq_zero.mpr fun j hj => ?_
    obtain ⟨k, hk, rfl⟩ := List.mem_map.mp hj
    have hlt := List.mem_range.mp hk
    rw [h _ (by omega), decide_eq_false (by omega)]
    exact Bool.false_ne_true
  have hsplit : List.range w = List.range n ++ (List.range (w - n)).map (n + ·) := by
    rw [← List.range_add, Nat.add_sub_cancel' hn]
  rw [popcount, hsplit, List.countP_append, hlow, hhigh, Nat.add_zero]

/-- When the lanes are the lowest ones, what is left to say is the sum. -/
theorem lossless_iff_sum {size n : Nat} {r : AxisM.Regs w} (hpos : 1 ≤ n) (hle : n ≤ w)
    (h : ∀ j < w, r.lastKeep.getLsbD j = decide (j < n)) :
    Lossless size r ↔ r.len.toNat * w + n = size := by
  have hcount := popcount_eq hle h
  constructor
  · rintro ⟨hsum, _, _, _⟩
    rw [← hsum, hcount]
  · intro hsum
    exact ⟨by rw [hcount, hsum], by omega, by omega, by rw [hcount]; exact h⟩

/-- The 64 lanes that come out of the `int`: bit 31 is on all the upper ones. -/
theorem getLsbD_keepLanes_64 (keep : BitVec 64) {j : Nat} (hj : j < 64) :
    (AxisM.keepLanes 64 (keep.setWidth 32)).getLsbD j = keep.getLsbD (min j 31) := by
  unfold AxisM.keepLanes
  rw [BitVec.getLsbD_signExtend, BitVec.msb_eq_getLsbD_last, BitVec.getLsbD_setWidth,
    BitVec.getLsbD_setWidth]
  by_cases hlow : j < 32
  · rw [if_pos hlow, show min j 31 = j by omega]
    simp [hj, hlow]
  · rw [if_neg hlow, show min j 31 = 31 by omega]
    simp [hj]

/-- What `axis_m` has in its registers once it took the packet. -/
theorem step_idle_frame {s : State w} {v : Vars} {f : ACCNICData} (hs : s.axis.r.state = .idle)
    (hv : s.vars = cNicPoll w v (some f)) :
    (AxisM.step s.axis (s.input true)).r.len = vlen w f.size ∧
      (AxisM.step s.axis (s.input true)).r.lastKeep
        = AxisM.keepLanes w ((vkeep w f.size).setWidth 32) := by
  constructor
  · simp [AxisM.step, AxisM.comboRecv, State.input, hs, hv, cNicPoll]
  · simp [AxisM.step, AxisM.comboRecv, State.input, hs, hv, cNicPoll]

/--
**When the last beat is lossless.** `axis_m` is idle and takes the packet that `C_nic_poll` left
in the variables, of any size but zero, on a bus whose width is a power of two up to 64 bytes. Its
registers say how many bytes the packet has if and only if the bus has at most 32 lanes or the
last beat has less than 32 of its 64.
-/
theorem lossless_iff {e : Nat} (he : e ≤ 6) (hw : w = 2 ^ e) {s : State w} {v : Vars}
    {f : ACCNICData} (hpos : 1 ≤ f.size.toNat)
    (hs : s.axis.r.state = .idle) (hv : s.vars = cNicPoll w v (some f)) :
    Lossless f.size.toNat (AxisM.step s.axis (s.input true)).r ↔
      w ≤ 32 ∨ f.size.toNat % 64 < 32 := by
  obtain ⟨hlen, hkeep⟩ := step_idle_frame hs hv
  rcases Nat.lt_or_eq_of_le he with hlt | rfl
  · -- the mask fits the `int`
    have hlanes : Lanes w := by
      have hdvd : w ∣ 2 ^ 12 := hw ▸ Nat.pow_dvd_pow 2 (by omega)
      have hle5 : w ≤ 2 ^ 5 := hw ▸ Nat.pow_le_pow_right (by decide) (by omega)
      exact ⟨hw ▸ Nat.two_pow_pos e, hle5, hdvd⟩
    obtain ⟨n, hn, hnw, hsum, hbits⟩ := lenKeep_spec hlanes hpos
    refine iff_of_true ?_ (Or.inl hlanes.le)
    rw [lossless_iff_sum hn hnw (by rw [hkeep]; exact hbits), hlen, hsum]
  · have h64 : w = 64 := hw
    subst h64
    obtain ⟨n, hn, hnw, hsum, hbits⟩ := vlen_vkeep_spec (w := 64) (by decide) (by decide) hpos
    have hlane : ∀ j < 64, (AxisM.step s.axis (s.input true)).r.lastKeep.getLsbD j
        = decide (min j 31 < n) := by
      intro j hj
      rw [hkeep, getLsbD_keepLanes_64 _ hj, hbits _ (by omega)]
    by_cases hlow : n < 32
    · refine iff_of_true ?_ (Or.inr (by omega))
      rw [lossless_iff_sum hn hnw ?_, hlen, hsum]
      intro j hj
      rw [hlane j hj, decide_eq_decide]
      omega
    · -- lane 31 is kept, and so all of them are
      rw [lossless_iff_sum (n := 64) (by decide) (Nat.le_refl _) ?_, hlen]
      · omega
      · intro j hj
        rw [hlane j hj, decide_eq_decide]
        omega

/-- Time zero, with a packet of `size` bytes in the variables. -/
def polledState (w : Nat) (size : BitVec 32) : State w :=
  { init with vars := cNicPoll w (init (w := w)).vars (some { ACCNICData.zero with size := size }) }

theorem lossless_iff_nine :
    Lossless 9 (AxisM.step (polledState 8 9).axis ((polledState 8 9).input true)).r :=
  (lossless_iff (e := 3) (v := (init (w := 8)).vars) (f := { ACCNICData.zero with size := 9 })
    (by decide) rfl (by decide) rfl rfl).mpr (Or.inl (by decide))

/-- 40 bytes on 64 lanes come out as 64. -/
theorem not_lossless_forty :
    ¬Lossless 40 (AxisM.step (polledState 64 40).axis ((polledState 64 40).input true)).r := by
  rintro ⟨hsum, _, _, _⟩
  revert hsum
  decide

end QemuHdlSim.Nic
