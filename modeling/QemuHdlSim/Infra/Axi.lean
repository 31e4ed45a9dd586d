import Mathlib.Algebra.Group.Nat.Defs

/-!
# Geometry of an AXI INCR burst

A burst is a start address (aligned or not), a beat size `2 ^ size` and a number of beats
`len + 1`. On a data bus of `w` bytes, beat `i` uses the byte lanes from its own address up to
the end of its aligned block; lane `j` of the beat carries the byte at `laneAddr w i j`.

The two facts everything rests on, for a beat size that divides the bus width:

* `laneAddr_inj` — two active lanes never carry the same byte
* `exists_active` — every byte from the start address to the end of the burst has an active lane

`sameWord_iff` says for which bursts beat `i` is always the `i`-th bus word.
-/

namespace Infra.Axi

/-- An INCR burst: start address, log2 of the bytes of a beat, number of beats minus one. -/
structure Burst where
  addr : Nat
  size : Nat
  len : Nat
  deriving DecidableEq, Repr

namespace Burst

/-- Bytes of a beat. -/
def bytes (b : Burst) : Nat := 2 ^ b.size

/-- The start address rounded down to the beat size. -/
def start (b : Burst) : Nat := b.addr / b.bytes * b.bytes

/-- The first address after the burst. -/
def stop (b : Burst) : Nat := b.start + (b.len + 1) * b.bytes

/-- The address of beat `i`: only the first beat may be unaligned. -/
def beatAddr (b : Burst) (i : Nat) : Nat := if i = 0 then b.addr else b.start + i * b.bytes

/-- The address of the byte that lane `j` carries in beat `i`, on a bus of `w` bytes. -/
def laneAddr (b : Burst) (w i j : Nat) : Nat := b.beatAddr i / w * w + j

/-- Lane `j` belongs to beat `i`. -/
def Active (b : Burst) (w i j : Nat) : Prop :=
  j < w ∧ b.beatAddr i ≤ b.laneAddr w i j ∧ b.laneAddr w i j < b.start + (i + 1) * b.bytes

instance (b : Burst) (w i j : Nat) : Decidable (b.Active w i j) :=
  inferInstanceAs (Decidable (_ ∧ _ ∧ _))

/-- The start address is a multiple of the beat size. -/
def Aligned (b : Burst) : Prop := b.addr = b.start

instance (b : Burst) : Decidable b.Aligned := inferInstanceAs (Decidable (_ = _))

/-- The burst stays inside one 4 KB page. -/
def InPage (b : Burst) : Prop := b.addr / 4096 = (b.stop - 1) / 4096

instance (b : Burst) : Decidable b.InPage := inferInstanceAs (Decidable (_ = _))

variable {b : Burst} {w i j i' j' a : Nat}

theorem bytes_pos (b : Burst) : 0 < b.bytes := Nat.two_pow_pos b.size

theorem start_le (b : Burst) : b.start ≤ b.addr := Nat.div_mul_le_self _ _

theorem addr_lt (b : Burst) : b.addr < b.start + b.bytes :=
  Nat.lt_div_mul_add b.bytes_pos

theorem addr_le_beatAddr (b : Burst) (i : Nat) : b.addr ≤ b.beatAddr i := by
  unfold beatAddr
  split
  · exact Nat.le_refl _
  · next h =>
    have h1 := b.addr_lt
    have h2 : b.bytes ≤ i * b.bytes := Nat.le_mul_of_pos_left _ (by omega)
    omega

/-- Beat `i` lies in the `i`-th block of the burst. -/
theorem beatAddr_mem (b : Burst) (i : Nat) :
    b.start + i * b.bytes ≤ b.beatAddr i ∧ b.beatAddr i < b.start + (i + 1) * b.bytes := by
  have hpos := b.bytes_pos
  have hsucc : (i + 1) * b.bytes = i * b.bytes + b.bytes := Nat.succ_mul _ _
  unfold beatAddr
  split
  · next h =>
    subst h
    have h1 := b.start_le
    have h2 := b.addr_lt
    omega
  · omega

theorem block_end_le_stop (h : i ≤ b.len) : b.start + (i + 1) * b.bytes ≤ b.stop := by
  unfold stop
  exact Nat.add_le_add_left (Nat.mul_le_mul_right _ (by omega)) _

/-- The index of the block an address lies in. -/
theorem block_index (b : Burst) (h1 : b.start + i * b.bytes ≤ a)
    (h2 : a < b.start + (i + 1) * b.bytes) : a / b.bytes = b.addr / b.bytes + i := by
  have hs : b.start + i * b.bytes = (b.addr / b.bytes + i) * b.bytes := by
    rw [Nat.add_mul]; rfl
  have he : b.start + (i + 1) * b.bytes = (b.addr / b.bytes + i + 1) * b.bytes := by
    rw [Nat.add_assoc, Nat.add_mul _ (i + 1)]; rfl
  exact Nat.div_eq_of_lt_le (by rw [← hs]; exact h1) (by rw [← he]; exact h2)

/-- Two addresses of one beat-sized block lie in the same bus word. -/
theorem div_eq_of_block {bytes x y : Nat} (hw : bytes ∣ w) (h : x / bytes = y / bytes) :
    x / w = y / w := by
  obtain ⟨m, rfl⟩ := hw
  rw [← Nat.div_div_eq_div_mul, ← Nat.div_div_eq_div_mul, h]

theorem laneAddr_mod (h : j < w) : b.laneAddr w i j % w = j := by
  unfold laneAddr
  rw [Nat.mul_add_mod_self_right, Nat.mod_eq_of_lt h]

theorem Active.block (h : b.Active w i j) : b.laneAddr w i j / b.bytes = b.addr / b.bytes + i :=
  b.block_index (Nat.le_trans (b.beatAddr_mem i).1 h.2.1) h.2.2

/-- **Two active lanes never carry the same byte.** -/
theorem laneAddr_inj (h : b.Active w i j) (h' : b.Active w i' j')
    (heq : b.laneAddr w i j = b.laneAddr w i' j') : i = i' ∧ j = j' := by
  have hi : b.addr / b.bytes + i = b.addr / b.bytes + i' := by rw [← h.block, ← h'.block, heq]
  have hj : j = j' := by
    rw [← laneAddr_mod (b := b) (i := i) h.1, ← laneAddr_mod (b := b) (i := i') h'.1, heq]
  exact ⟨by omega, hj⟩

/-- The byte of an active lane lies in the burst. -/
theorem Active.mem (h : b.Active w i j) (hi : i ≤ b.len) :
    b.addr ≤ b.laneAddr w i j ∧ b.laneAddr w i j < b.stop :=
  ⟨Nat.le_trans (b.addr_le_beatAddr i) h.2.1, Nat.lt_of_lt_of_le h.2.2 (block_end_le_stop hi)⟩

/-- A lane of beat `i`'s block carries the address whose residue is the lane. -/
theorem laneAddr_of_block (hw : b.bytes ∣ w) (h1 : b.start + i * b.bytes ≤ a)
    (h2 : a < b.start + (i + 1) * b.bytes) : b.laneAddr w i (a % w) = a := by
  have hm := b.beatAddr_mem i
  have hdiv : b.beatAddr i / w = a / w :=
    div_eq_of_block hw (by rw [b.block_index h1 h2, b.block_index hm.1 hm.2])
  unfold laneAddr
  rw [hdiv]
  exact Nat.div_add_mod' a w

/-- **Every byte of the burst has an active lane.** -/
theorem exists_active (hw : b.bytes ∣ w) (hw0 : 0 < w) (h1 : b.addr ≤ a) (h2 : a < b.stop) :
    ∃ i j, i ≤ b.len ∧ b.Active w i j ∧ b.laneAddr w i j = a := by
  have hpos := b.bytes_pos
  have hsa := b.start_le
  have hdm : (a - b.start) / b.bytes * b.bytes + (a - b.start) % b.bytes = a - b.start :=
    Nat.div_add_mod' _ _
  have hmod := Nat.mod_lt (a - b.start) hpos
  have hilt : (a - b.start) / b.bytes < b.len + 1 := by
    rw [Nat.div_lt_iff_lt_mul hpos]
    unfold stop at h2
    omega
  have hb1 : b.start + (a - b.start) / b.bytes * b.bytes ≤ a := by omega
  have hb2 : a < b.start + ((a - b.start) / b.bytes + 1) * b.bytes := by
    rw [Nat.succ_mul]
    omega
  have hlane := laneAddr_of_block hw hb1 hb2
  refine ⟨(a - b.start) / b.bytes, a % w, by omega,
    ⟨Nat.mod_lt _ hw0, ?_, by rw [hlane]; exact hb2⟩, hlane⟩
  rw [hlane]
  unfold beatAddr
  split
  · exact h1
  · exact hb1

/-! ## Aligned starts -/

theorem Aligned.beatAddr_eq (h : b.Aligned) (i : Nat) :
    b.beatAddr i = b.start + i * b.bytes := by
  unfold beatAddr
  split
  · next h0 => rw [h0, Nat.zero_mul, Nat.add_zero]; exact h
  · rfl

/-- An aligned beat does not reach over the end of the bus word. -/
theorem Aligned.lane_add_bytes_le (h : b.Aligned) (hw : b.bytes ∣ w) (hw0 : 0 < w) (i : Nat) :
    b.beatAddr i % w + b.bytes ≤ w := by
  obtain ⟨m, rfl⟩ := hw
  have hdvd : b.bytes ∣ b.beatAddr i % (b.bytes * m) := by
    rw [h.beatAddr_eq]
    refine (Nat.dvd_mod_iff (Nat.dvd_mul_right _ _)).mpr ?_
    exact Nat.dvd_add (Nat.dvd_mul_left _ _) (Nat.dvd_mul_left _ _)
  have hlt := Nat.mod_lt (b.beatAddr i) hw0
  obtain ⟨q, hq⟩ := hdvd
  rw [hq] at hlt ⊢
  have hqm : q < m := Nat.lt_of_mul_lt_mul_left hlt
  calc b.bytes * q + b.bytes = b.bytes * (q + 1) := (Nat.mul_succ _ _).symm
    _ ≤ b.bytes * m := Nat.mul_le_mul_left _ hqm

/-- With an aligned start, the lanes of a beat are a window of `bytes` lanes. -/
theorem Aligned.active_iff (h : b.Aligned) (hw : b.bytes ∣ w) (hw0 : 0 < w) :
    b.Active w i j ↔ b.beatAddr i % w ≤ j ∧ j < b.beatAddr i % w + b.bytes := by
  have hbeat := h.beatAddr_eq i
  have hsucc : (i + 1) * b.bytes = i * b.bytes + b.bytes := Nat.succ_mul _ _
  have hdm : b.beatAddr i / w * w + b.beatAddr i % w = b.beatAddr i := Nat.div_add_mod' _ _
  have hle := h.lane_add_bytes_le hw hw0 i
  unfold Active laneAddr
  omega

/-! ## A full-bus stride

A device that shows bus word `addr / w + i` in beat `i`, whatever the beat size, is right about
beat `i` when the beat's address lies in that word.
-/

/-- Beat `i` lies in the bus word `i` words after the first one. -/
def SameWord (b : Burst) (w i : Nat) : Prop := b.beatAddr i / w = b.addr / w + i

/-- The beats fill the bus, or there is one, or there are two and the second starts a word. -/
def FullStride (b : Burst) (w : Nat) : Prop :=
  b.bytes = w ∨ b.len = 0 ∨ (b.len = 1 ∧ w ∣ b.start + b.bytes)

theorem start_div (hw : b.bytes ∣ w) : b.start / w = b.addr / w := by
  refine div_eq_of_block hw ?_
  unfold start
  rw [Nat.mul_div_cancel _ b.bytes_pos]

/-- The word of a later beat, from the first one's place in its word. -/
theorem sameWord_succ_iff (hw : b.bytes ∣ w) (hw0 : 0 < w) {i : Nat} (hi : i ≠ 0) :
    b.SameWord w i ↔ i * w ≤ b.start % w + i * b.bytes ∧
      b.start % w + i * b.bytes < (i + 1) * w := by
  have hdm := Nat.div_add_mod' b.start w
  have hlt := Nat.mod_lt b.start hw0
  have hsum : b.start + i * b.bytes = b.start / w * w + (b.start % w + i * b.bytes) := by omega
  have hdiv : (b.start + i * b.bytes) / w = b.start / w + (b.start % w + i * b.bytes) / w := by
    rw [hsum, Nat.mul_comm (b.start / w) w, Nat.mul_add_div hw0]
  unfold SameWord beatAddr
  rw [if_neg hi, hdiv, start_div hw, Nat.add_left_cancel_iff, Nat.div_eq_iff hw0, Nat.succ_mul]
  omega

theorem sameWord_zero (b : Burst) (w : Nat) : b.SameWord w 0 := by
  unfold SameWord beatAddr
  rw [if_pos rfl, Nat.add_zero]

theorem sameWord_one_iff (hw : b.bytes ∣ w) (hw0 : 0 < w) :
    b.SameWord w 1 ↔ w ≤ b.start % w + b.bytes := by
  have hmod := Nat.mod_lt b.start hw0
  have hle := Nat.le_of_dvd hw0 hw
  rw [sameWord_succ_iff hw hw0 (by omega), Nat.one_mul, Nat.one_mul]
  omega

/-- The first beat does not reach over the end of its word. -/
theorem start_mod_add_bytes_le (hw : b.bytes ∣ w) (hw0 : 0 < w) : b.start % w + b.bytes ≤ w := by
  have hmod := Nat.mod_lt b.start hw0
  obtain ⟨m, rfl⟩ := hw
  have hdvd : b.bytes ∣ b.start % (b.bytes * m) :=
    (Nat.dvd_mod_iff (Nat.dvd_mul_right _ _)).mpr (Nat.dvd_mul_left _ _)
  obtain ⟨q, hq⟩ := hdvd
  rw [hq] at hmod ⊢
  exact Nat.mul_le_mul_left _ (Nat.lt_of_mul_lt_mul_left hmod)

/-- The second beat starts a word exactly when it lies in the second one. -/
theorem dvd_iff_sameWord_one (hw : b.bytes ∣ w) (hw0 : 0 < w) :
    w ∣ b.start + b.bytes ↔ b.SameWord w 1 := by
  have hpos := b.bytes_pos
  have hle := start_mod_add_bytes_le hw hw0
  rw [sameWord_one_iff hw hw0, Nat.dvd_iff_mod_eq_zero, ← Nat.mod_add_mod]
  constructor
  · intro h
    by_cases hlt : b.start % w + b.bytes < w
    · rw [Nat.mod_eq_of_lt hlt] at h
      omega
    · omega
  · intro h
    rw [show b.start % w + b.bytes = w by omega, Nat.mod_self]

/-- A narrow beat is at most half a word, so the third beat is never two words on. -/
theorem not_sameWord_two (hw : b.bytes ∣ w) (hw0 : 0 < w) (hne : b.bytes ≠ w) :
    ¬b.SameWord w 2 := by
  have hle := start_mod_add_bytes_le hw hw0
  obtain ⟨m, rfl⟩ := hw
  have hm : 2 ≤ m := by
    rcases m with _ | _ | m
    · exact absurd hw0 (by simp)
    · exact absurd (Nat.mul_one _).symm hne
    · omega
  have hhalf : b.bytes * 2 ≤ b.bytes * m := Nat.mul_le_mul_left _ hm
  rw [sameWord_succ_iff (Nat.dvd_mul_right _ _) hw0 (by omega)]
  have hpos := b.bytes_pos
  omega

/-- **When the full-bus stride is right for every beat.** -/
theorem sameWord_iff (hw : b.bytes ∣ w) (hw0 : 0 < w) :
    (∀ i ≤ b.len, b.SameWord w i) ↔ b.FullStride w := by
  constructor
  · intro h
    by_cases hfull : b.bytes = w
    · exact Or.inl hfull
    · by_cases h0 : b.len = 0
      · exact Or.inr (Or.inl h0)
      · -- a narrow burst of three beats or more has one that leaves its word
        by_cases h2 : 2 ≤ b.len
        · exact absurd (h 2 h2) (not_sameWord_two hw hw0 hfull)
        · exact Or.inr (Or.inr ⟨by omega, (dvd_iff_sameWord_one hw hw0).mpr (h 1 (by omega))⟩)
  · rintro (hfull | h0 | ⟨h1, hdvd⟩) i hi
    · by_cases hi0 : i = 0
      · rw [hi0]
        exact sameWord_zero b w
      · have hstart : b.start % w = 0 := by
          rw [← hfull]
          exact Nat.mod_eq_zero_of_dvd (Nat.dvd_mul_left _ _)
        rw [sameWord_succ_iff hw hw0 hi0, hstart, hfull, Nat.succ_mul]
        omega
    · rw [h0] at hi
      rw [Nat.le_zero.mp hi]
      exact sameWord_zero b w
    · rcases Nat.le_one_iff_eq_zero_or_eq_one.mp (h1 ▸ hi) with rfl | rfl
      · exact sameWord_zero b w
      · exact (dvd_iff_sameWord_one hw hw0).mp hdvd

end Burst

end Infra.Axi
