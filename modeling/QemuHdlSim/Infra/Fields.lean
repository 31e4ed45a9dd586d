import Mathlib.Data.Int.Bitwise

/-!
# Words packed out of fields

A field is a range of bits. `pack` puts values into fields by addition; where the fields come one
above the other and every value fits, nothing is carried from one into the next.

* `pack_lt` — the word is no longer than its last field
* `get_pack` — each field of the word has the value that was put into it
* `land_mask` — masking a value that fits changes nothing
-/

namespace Infra

/-- The bits `[lo, lo + width)`. -/
structure Field where
  lo : Nat
  width : Nat
  deriving DecidableEq, Repr

namespace Field

/-- The first bit above the field. -/
abbrev top (f : Field) : Nat := f.lo + f.width

/-- The field of a word. -/
def get (f : Field) (x : Nat) : Nat := x / 2 ^ f.lo % 2 ^ f.width

end Field

/-- The fields come one above the other, and end below bit `n`. -/
structure Stacked (n : Nat) (fs : List Field) : Prop where
  pairwise : fs.Pairwise fun f g => f.top ≤ g.lo
  top_le : ∀ f ∈ fs, f.top ≤ n

instance (n : Nat) (fs : List Field) : Decidable (Stacked n fs) :=
  decidable_of_iff (fs.Pairwise (fun f g => f.top ≤ g.lo) ∧ ∀ f ∈ fs, f.top ≤ n)
    ⟨fun h => ⟨h.1, h.2⟩, fun h => ⟨h.pairwise, h.top_le⟩⟩

theorem Stacked.tail {n : Nat} {f : Field} {fs : List Field} (h : Stacked n (f :: fs)) :
    Stacked n fs :=
  ⟨(List.pairwise_cons.mp h.pairwise).2, fun g hg => h.top_le g (List.mem_cons_of_mem _ hg)⟩

/-- A word with the values in their fields. -/
def pack : List (Field × Nat) → Nat
  | [] => 0
  | p :: ps => p.2 * 2 ^ p.1.lo + pack ps

/-- Every value fits into its field. -/
def Fit (ps : List (Field × Nat)) : Prop := ∀ p ∈ ps, p.2 < 2 ^ p.1.width

variable {ps : List (Field × Nat)} {n : Nat}

/-- Below its lowest field a word is zero. -/
theorem dvd_pack {k : Nat} (h : ∀ p ∈ ps, k ≤ p.1.lo) : 2 ^ k ∣ pack ps := by
  induction ps with
  | nil => exact Nat.dvd_zero _
  | cons p ps ih =>
    refine Nat.dvd_add (Nat.dvd_mul_left_of_dvd ?_ _)
      (ih fun q hq => h q (List.mem_cons_of_mem _ hq))
    exact Nat.pow_dvd_pow 2 (h p List.mem_cons_self)

/-- The first value ends where the rest begins. -/
theorem first_lt {p : Field × Nat} (h : p.2 < 2 ^ p.1.width) : p.2 * 2 ^ p.1.lo < 2 ^ p.1.top := by
  rw [Nat.pow_add, Nat.mul_comm]
  exact Nat.mul_lt_mul_of_pos_left h (Nat.two_pow_pos _)

/-- **The length of the word.** -/
theorem pack_lt (hs : Stacked n (ps.map Prod.fst)) (hfit : Fit ps) : pack ps < 2 ^ n := by
  induction ps with
  | nil => exact Nat.two_pow_pos n
  | cons p ps ih =>
    have hrest := ih hs.tail fun q hq => hfit q (List.mem_cons_of_mem _ hq)
    have hfirst := first_lt (hfit p List.mem_cons_self)
    have habove : ∀ q ∈ ps, p.1.top ≤ q.1.lo := fun q hq =>
      (List.pairwise_cons.mp hs.pairwise).1 q.1 (List.mem_map_of_mem hq)
    -- both the rest and `2 ^ n` are multiples of `2 ^ top`, so the rest leaves room for one
    obtain ⟨r, hr⟩ := dvd_pack habove
    obtain ⟨m, hm⟩ := Nat.pow_dvd_pow 2 (hs.top_le p.1 List.mem_cons_self)
    rw [hr, hm] at hrest
    have hlt : r < m := Nat.lt_of_mul_lt_mul_left hrest
    have hroom : 2 ^ p.1.top * (r + 1) ≤ 2 ^ p.1.top * m := Nat.mul_le_mul_left _ hlt
    show p.2 * 2 ^ p.1.lo + pack ps < 2 ^ n
    rw [hr, hm]
    rw [Nat.mul_add, Nat.mul_one] at hroom
    omega

/-- **What is in the fields.** -/
theorem get_pack (hs : Stacked n (ps.map Prod.fst)) (hfit : Fit ps) {p : Field × Nat}
    (hp : p ∈ ps) : p.1.get (pack ps) = p.2 := by
  induction ps with
  | nil => exact absurd hp List.not_mem_nil
  | cons q ps ih =>
    have hfirst := first_lt (hfit q List.mem_cons_self)
    have habove : ∀ r ∈ ps, q.1.top ≤ r.1.lo := fun r hr =>
      (List.pairwise_cons.mp hs.pairwise).1 r.1 (List.mem_map_of_mem hr)
    obtain ⟨m, hm⟩ := dvd_pack habove
    show (q.2 * 2 ^ q.1.lo + pack ps) / 2 ^ p.1.lo % 2 ^ p.1.width = p.2
    rcases List.mem_cons.mp hp with rfl | hp
    · -- the rest is a multiple of `2 ^ top`, and gone modulo the width
      have hdiv : (p.2 * 2 ^ p.1.lo + pack ps) / 2 ^ p.1.lo = p.2 + 2 ^ p.1.width * m := by
        rw [hm, Nat.pow_add, Nat.mul_assoc, Nat.add_mul_div_left _ _ (Nat.two_pow_pos _),
          Nat.mul_div_cancel _ (Nat.two_pow_pos _)]
      rw [hdiv, Nat.add_mul_mod_self_left]
      exact Nat.mod_eq_of_lt (hfit p List.mem_cons_self)
    · -- the first value is below the field
      obtain ⟨d, hd⟩ := Nat.exists_eq_add_of_le (habove p hp)
      have hdiv : (q.2 * 2 ^ q.1.lo + pack ps) / 2 ^ p.1.lo = pack ps / 2 ^ p.1.lo := by
        rw [hd, Nat.pow_add 2 q.1.top, ← Nat.div_div_eq_div_mul, ← Nat.div_div_eq_div_mul, hm,
          Nat.add_mul_div_left _ _ (Nat.two_pow_pos _), Nat.div_eq_of_lt hfirst, Nat.zero_add,
          Nat.mul_div_cancel_left _ (Nat.two_pow_pos _)]
      rw [hdiv]
      exact ih hs.tail (fun r hr => hfit r (List.mem_cons_of_mem _ hr)) hp

/-- A field of a packed word, as a word of its own. -/
theorem extract_pack (hs : Stacked n (ps.map Prod.fst)) (hfit : Fit ps) {lo w : Nat} {x : BitVec w}
    (hp : (⟨lo, w⟩, x.toNat) ∈ ps) : (BitVec.ofNat n (pack ps)).extractLsb' lo w = x := by
  have hget : pack ps / 2 ^ lo % 2 ^ w = x.toNat := get_pack hs hfit hp
  refine BitVec.eq_of_toNat_eq ?_
  rw [BitVec.extractLsb'_toNat, BitVec.toNat_ofNat, Nat.mod_eq_of_lt (pack_lt hs hfit),
    Nat.shiftRight_eq_div_pow, hget]

/-- Masking a value that fits changes nothing. -/
theorem land_mask {w : Nat} (x : BitVec w) (m : Int) (hm : m = ((2 ^ w - 1 : Nat) : Int)) :
    Int.land x.toNat m = x.toNat := by
  have hland : Int.land x.toNat (2 ^ w - 1 : Nat) = ((x.toNat &&& (2 ^ w - 1) : Nat) : Int) := rfl
  rw [hm, hland, Nat.and_two_pow_sub_one_eq_mod, Nat.mod_eq_of_lt x.isLt]

/-- And moving it into its field. -/
theorem land_mask_shift {w : Nat} (x : BitVec w) (lo : Nat) (m : Int)
    (hm : m = ((2 ^ w - 1 : Nat) : Int)) :
    Int.land x.toNat m <<< lo = ((x.toNat * 2 ^ lo : Nat) : Int) := by
  rw [land_mask x m hm, Int.shiftLeft_eq]
  norm_cast

end Infra
