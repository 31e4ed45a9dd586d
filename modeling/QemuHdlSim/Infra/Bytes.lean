import Mathlib.Data.Fintype.Pi

/-!
# Bytes: fixed buffers, byte memories, little-endian values

Three things every byte-moving program needs.

* `Buf n` is a byte array of fixed length. `get` and `set` are the total accesses of a language
  in which an index out of range reads zero and writes nothing; `get?`, `set?` and `memcpy?`
  are those of a language in which it is undefined, and give `none` there.
* `Mem` is a byte memory indexed by address, with a block store.
* `leByte` and `leVal` take a word apart into bytes, least significant first, and put bytes
  together.

Each operation comes with the one lemma that says what a read sees after it.
-/

namespace Infra

abbrev Byte := BitVec 8

/-! ## Buffers -/

/-- A byte array of length `n`. -/
abbrev Buf (n : Nat) := Fin n → Byte

namespace Buf

variable {n m : Nat}

/-- The byte at `k`; zero when `k` is out of range. -/
def get (b : Buf n) (k : Nat) : Byte := if h : k < n then b ⟨k, h⟩ else 0

/-- Replaces the byte at `k`; nothing when `k` is out of range. -/
def set (b : Buf n) (k : Nat) (v : Byte) : Buf n := fun i => if i.val = k then v else b i

/-- The byte at `k`, undefined out of range. -/
def get? (b : Buf n) (k : Nat) : Option Byte := if k < n then some (b.get k) else none

/-- Replaces the byte at `k`, undefined out of range. -/
def set? (b : Buf n) (k : Nat) (v : Byte) : Option (Buf n) :=
  if k < n then some (b.set k v) else none

/-- `for (j = 0; j < c; j++) b[base + j] = src(j)`. -/
def copyIn (b : Buf n) (base : Nat) (src : Nat → Byte) : Nat → Buf n
  | 0 => b
  | c + 1 => (copyIn b base src c).set (base + c) (src c)

/-- `memcpy(b + off, src + soff, c)`, undefined when either block leaves its array. -/
def memcpy? (b : Buf n) (off : Nat) (src : Buf m) (soff c : Nat) : Option (Buf n) :=
  if off + c ≤ n ∧ soff + c ≤ m then some (b.copyIn off (fun j => src.get (soff + j)) c)
  else none

theorem get_set (b : Buf n) (k j : Nat) (v : Byte) (hk : k < n) :
    (b.set k v).get j = if j = k then v else b.get j := by
  unfold get set
  by_cases hj : j < n
  · simp only [dif_pos hj]
  · rw [dif_neg hj, dif_neg hj, if_neg (by omega)]

/-- What a read sees after the block copy: the source inside the block, the old byte outside. -/
theorem get_copyIn (b : Buf n) (base : Nat) (src : Nat → Byte) :
    ∀ (c : Nat), base + c ≤ n → ∀ k,
      (b.copyIn base src c).get k
        = if base ≤ k ∧ k < base + c then src (k - base) else b.get k
  | 0, _, k => by rw [if_neg (by omega)]; rfl
  | c + 1, hc, k => by
    rw [copyIn, get_set _ _ _ _ (by omega), get_copyIn b base src c (by omega) k]
    by_cases hk : k = base + c
    · rw [if_pos hk, if_pos (by omega), hk, Nat.add_sub_cancel_left]
    · rw [if_neg hk]
      by_cases hin : base ≤ k ∧ k < base + c
      · rw [if_pos hin, if_pos (by omega)]
      · rw [if_neg hin, if_neg (by omega)]

theorem get?_eq_some (b : Buf n) {k : Nat} (h : k < n) : b.get? k = some (b.get k) := if_pos h

theorem set?_eq_some (b : Buf n) {k : Nat} (v : Byte) (h : k < n) :
    b.set? k v = some (b.set k v) := if_pos h

theorem memcpy?_eq_some (b : Buf n) {off : Nat} (src : Buf m) {soff c : Nat}
    (h1 : off + c ≤ n) (h2 : soff + c ≤ m) :
    b.memcpy? off src soff c = some (b.copyIn off (fun j => src.get (soff + j)) c) :=
  if_pos ⟨h1, h2⟩

/-- What is copied lies in both buffers. -/
theorem memcpy?_bounds {b b' : Buf n} {off : Nat} {src : Buf m} {soff c : Nat}
    (h : b.memcpy? off src soff c = some b') : off + c ≤ n ∧ soff + c ≤ m := by
  unfold memcpy? at h
  split at h
  · assumption
  · exact absurd h (by simp)

end Buf

/-! ## Memories -/

/-- A byte memory indexed by address. -/
abbrev Mem := Nat → Byte

/-- Stores the `c` bytes `src 0 .. src (c-1)` from address `a` on. -/
def Mem.store (mem : Mem) (a : Nat) (src : Nat → Byte) (c : Nat) : Mem :=
  fun x => if a ≤ x ∧ x < a + c then src (x - a) else mem x

theorem Mem.store_in {mem : Mem} {a c x : Nat} {src : Nat → Byte} (h : a ≤ x ∧ x < a + c) :
    mem.store a src c x = src (x - a) := if_pos h

theorem Mem.store_out {mem : Mem} {a c x : Nat} {src : Nat → Byte} (h : ¬(a ≤ x ∧ x < a + c)) :
    mem.store a src c x = mem x := if_neg h

/-- The two memories have the same `n` bytes from `a` on. -/
def Mem.Same (a n : Nat) (m m' : Mem) : Prop := ∀ x, a ≤ x → x < a + n → m x = m' x

/-- The same store keeps them the same. -/
theorem Mem.Same.store {a n b c : Nat} {m m' : Mem} {src : Nat → Byte} (h : Mem.Same a n m m') :
    Mem.Same a n (m.store b src c) (m'.store b src c) := by
  intro x hax hxn
  by_cases hx : b ≤ x ∧ x < b + c
  · rw [store_in hx, store_in hx]
  · rw [store_out hx, store_out hx]
    exact h x hax hxn

/-- And so does a store elsewhere, in one of the two. -/
theorem Mem.Same.store_disjoint {a n b c : Nat} {m m' : Mem} {src : Nat → Byte}
    (h : Mem.Same a n m m') (hd : b + c ≤ a ∨ a + n ≤ b) : Mem.Same a n (m.store b src c) m' := by
  intro x hax hxn
  rw [store_out (by omega)]
  exact h x hax hxn

/-! ## Little-endian values -/

/-- Byte `k` of a 64-bit word, byte 0 being the least significant one. -/
def leByte (v : BitVec 64) (k : Nat) : Byte := v.extractLsb' (8 * k) 8

/-- The value of the bytes `f 0 .. f (n-1)`, least significant first. -/
def leVal (f : Nat → Byte) : Nat → Nat
  | 0 => 0
  | n + 1 => leVal f n + (f n).toNat * 256 ^ n

theorem leVal_congr {f g : Nat → Byte} : ∀ {n : Nat}, (∀ k < n, f k = g k) → leVal f n = leVal g n
  | 0, _ => rfl
  | n + 1, h => by
    rw [leVal, leVal, leVal_congr (fun k hk => h k (by omega)), h n (by omega)]

/-- The lowest byte of the value is the first one. -/
theorem leVal_mod (f : Nat → Byte) : ∀ n : Nat, leVal f (n + 1) % 256 = (f 0).toNat
  | 0 => by
    have hlt := (f 0).isLt
    rw [leVal, leVal, Nat.pow_zero, Nat.mul_one, Nat.zero_add]
    exact Nat.mod_eq_of_lt hlt
  | n + 1 => by
    rw [leVal, Nat.pow_succ, ← Nat.mul_assoc, Nat.add_mul_mod_self_right]
    exact leVal_mod f n

/-! ## Counters -/

/-- A counter that is still below some value of its width does not wrap. -/
theorem toNat_succ_of_lt {w : Nat} {x y : BitVec w} (h : x.toNat < y.toNat) :
    (x + 1#w).toNat = x.toNat + 1 := by
  have hy := y.isLt
  rw [BitVec.toNat_add, BitVec.toNat_ofNat]
  rcases Nat.eq_zero_or_pos w with h0 | hpos
  · subst h0
    omega
  · rw [Nat.mod_eq_of_lt (a := 1) (Nat.one_lt_two_pow (by omega)), Nat.mod_eq_of_lt (by omega)]

/-- A counter that has not come to its end does not wrap, and then does not pass it. -/
theorem toNat_succ_of_ne {w : Nat} {x y : BitVec w} (hle : x.toNat ≤ y.toNat) (hne : x ≠ y) :
    (x + 1).toNat = x.toNat + 1 ∧ x.toNat < y.toNat := by
  have hlt : x.toNat < y.toNat :=
    Nat.lt_of_le_of_ne hle fun h => hne (BitVec.toNat_inj.mp h)
  exact ⟨toNat_succ_of_lt hlt, hlt⟩

end Infra
