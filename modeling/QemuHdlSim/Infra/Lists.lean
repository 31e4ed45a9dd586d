import Mathlib.Data.List.Forall2

/-!
# Lists built by counted loops

What `filterMap` and `flatMap` over `List.range` give when the loop picks a window, or cuts a
range into blocks of equal length; the part of a list a counter has not passed yet (`segment`);
and the list a loop that writes `a[k++]` leaves behind.
-/

namespace Infra

variable {α : Type _}

/-- Picking the indices of a window `[lo, lo + n)`. -/
theorem filterMap_range_window (f : Nat → α) (lo n : Nat) :
    ∀ w : Nat, lo + n ≤ w →
      (List.range w).filterMap (fun j => if lo ≤ j ∧ j < lo + n then some (f j) else none)
        = (List.range n).map (fun k => f (lo + k)) := by
  have hbelow : ∀ w ≤ lo, (List.range w).filterMap
      (fun j => if lo ≤ j ∧ j < lo + n then some (f j) else none) = [] := by
    intro w hw
    rw [List.filterMap_eq_nil_iff]
    intro j hj
    rw [if_neg (by have := List.mem_range.mp hj; omega)]
  have hinside : ∀ m ≤ n, (List.range (lo + m)).filterMap
      (fun j => if lo ≤ j ∧ j < lo + n then some (f j) else none)
        = (List.range m).map (fun k => f (lo + k)) := by
    intro m
    induction m with
    | zero => intro _; exact hbelow lo (Nat.le_refl _)
    | succ m ih =>
      intro hm
      rw [← Nat.add_assoc, List.range_succ, List.filterMap_append, ih (by omega), List.range_succ,
        List.map_append, List.filterMap_cons, if_pos (by omega)]
      rfl
  intro w
  -- from the end of the window on, nothing is added
  induction w with
  | zero =>
    intro h
    rw [show n = 0 by omega]
    rfl
  | succ w ih =>
    intro h
    by_cases heq : lo + n = w + 1
    · rw [← heq]; exact hinside n (Nat.le_refl _)
    · rw [List.range_succ, List.filterMap_append, ih (by omega), List.filterMap_cons,
        if_neg (by omega)]
      simp

/-- Blocks of equal length laid end to end. -/
theorem flatMap_range_blocks (g : Nat → α) (n : Nat) :
    ∀ m : Nat, (List.range m).flatMap (fun i => (List.range n).map (fun k => g (i * n + k)))
      = (List.range (m * n)).map g
  | 0 => by simp
  | m + 1 => by
    rw [List.range_succ, List.flatMap_append, flatMap_range_blocks g n m, Nat.succ_mul,
      List.range_add, List.map_append, List.flatMap_singleton, List.map_map]
    rfl

/-- What a fallible map returns: one element for each, in order. -/
theorem mapM_eq_some {β : Type _} {g : α → Option β} {l : List α} {l' : List β}
    (h : l.mapM g = some l') : l'.length = l.length ∧ ∀ y ∈ l', ∃ x ∈ l, g x = some y := by
  induction l generalizing l' with
  | nil =>
    cases h
    exact ⟨rfl, fun y hy => absurd hy List.not_mem_nil⟩
  | cons x l ih =>
    rw [List.mapM_cons] at h
    obtain ⟨y, hy, h⟩ := Option.bind_eq_some_iff.mp h
    obtain ⟨ys, hys, h⟩ := Option.bind_eq_some_iff.mp h
    cases h
    obtain ⟨hlen, hmem⟩ := ih hys
    refine ⟨by rw [List.length_cons, hlen, List.length_cons], ?_⟩
    intro z hz
    rcases List.mem_cons.mp hz with rfl | hz
    · exact ⟨x, List.mem_cons_self, hy⟩
    · obtain ⟨w, hw, hgw⟩ := hmem z hz
      exact ⟨w, List.mem_cons_of_mem _ hw, hgw⟩

/-- A relation that the function of a fallible map turns into another one. -/
theorem forall₂_mapM {β γ : Type _} {R : α → β → Prop} {S : α → γ → Prop} {g : β → Option γ}
    {l : List α} {l' : List β} {l'' : List γ} (hl : List.Forall₂ R l l')
    (hg : l'.mapM g = some l'') (hS : ∀ x y z, R x y → g y = some z → S x z) :
    List.Forall₂ S l l'' := by
  induction hl generalizing l'' with
  | nil =>
    cases hg
    exact List.Forall₂.nil
  | cons hR _ ih =>
    rw [List.mapM_cons] at hg
    obtain ⟨z, hz, hg⟩ := Option.bind_eq_some_iff.mp hg
    obtain ⟨zs, hzs, hg⟩ := Option.bind_eq_some_iff.mp hg
    cases hg
    exact List.Forall₂.cons (hS _ _ _ hR hz) (ih hzs)

/-- Related lists have as many elements of a kind that the relation respects. -/
theorem forall₂_countP {β : Type _} {R : α → β → Prop} {P : α → Bool} {Q : β → Bool} {l : List α}
    {l' : List β} (h : List.Forall₂ R l l') (hR : ∀ x y, R x y → P x = Q y) :
    l.countP P = l'.countP Q := by
  induction h with
  | nil => rfl
  | cons hxy _ ih => rw [List.countP_cons, List.countP_cons, ih, hR _ _ hxy]

/-- What is known of every element a fallible map returns is known of the list. -/
theorem map_of_mapM {β γ : Type _} {g : α → Option β} {k : β → γ} {h : α → γ}
    (hg : ∀ x y, g x = some y → k y = h x) {l : List α} {l' : List β} (hl : l.mapM g = some l') :
    l'.map k = l.map h := by
  induction l generalizing l' with
  | nil =>
    cases hl
    rfl
  | cons x l ih =>
    rw [List.mapM_cons] at hl
    obtain ⟨y, hy, hl⟩ := Option.bind_eq_some_iff.mp hl
    obtain ⟨ys, hys, hl⟩ := Option.bind_eq_some_iff.mp hl
    cases hl
    rw [List.map_cons, List.map_cons, hg x y hy, ih hys]

/-- Pairs of which the second components come one after another. -/
theorem zip_prefix {β : Type _} {l : List (α × β)} {bs : List β} (h : bs <+: l.map Prod.snd) :
    (l.map Prod.fst).zip bs <+: l := by
  induction l generalizing bs with
  | nil => simp
  | cons x l ih =>
    cases bs with
    | nil => simp
    | cons b bs =>
      rw [List.map_cons, List.cons_prefix_cons] at h
      obtain ⟨rfl, hrest⟩ := h
      rw [List.map_cons, List.zip_cons_cons, List.cons_prefix_cons]
      exact ⟨rfl, ih hrest⟩

/-- The elements `f k, …, f n`. -/
def segment (f : Nat → α) (k n : Nat) : List α := (List.range' k (n + 1 - k)).map f

theorem segment_zero (f : Nat → α) (n : Nat) : segment f 0 n = (List.range (n + 1)).map f := by
  rw [List.range_eq_range']
  rfl

theorem segment_cons (f : Nat → α) {k n : Nat} (h : k ≤ n) :
    segment f k n = f k :: segment f (k + 1) n := by
  unfold segment
  rw [show n + 1 - k = n + 1 - (k + 1) + 1 by omega, List.range'_succ, List.map_cons]

theorem segment_of_lt (f : Nat → α) {k n : Nat} (h : n < k) : segment f k n = [] := by
  unfold segment
  rw [show n + 1 - k = 0 by omega]
  rfl

theorem length_segment (f : Nat → α) (k n : Nat) : (segment f k n).length = n + 1 - k := by
  rw [segment, List.length_map, List.length_range']

/-- The first part of a list whose rest is known by its length. -/
theorem eq_take_of_append {xs ys zs : List α} {k : Nat} (h : xs ++ ys = zs)
    (hlen : ys.length = zs.length - k) (hk : k ≤ zs.length) : xs = zs.take k := by
  have hall := congrArg List.length h
  rw [List.length_append] at hall
  rw [← h, List.take_left' (by omega)]

/-- No element has `P` after one that has not: those that have `P` have only such before them. -/
theorem pairwise_false_iff_countP (P : α → Bool) (l : List α) :
    l.Pairwise (fun x y => P x = false → P y = false) ↔
      ∀ k x, l[k]? = some x → P x = true → (l.take k).countP P = k := by
  rw [List.pairwise_iff_getElem]
  constructor
  · intro h k x hk hx
    obtain ⟨hlt, rfl⟩ := List.getElem?_eq_some_iff.mp hk
    have hlen : (l.take k).length = k := List.length_take_of_le (Nat.le_of_lt hlt)
    have hall : (l.take k).countP P = (l.take k).length := by
      refine List.countP_eq_length.mpr fun y hy => ?_
      obtain ⟨i, hi, rfl⟩ := List.mem_iff_getElem.mp hy
      rw [List.getElem_take]
      cases hp : P l[i] with
      | true => rfl
      | false =>
        have hfalse := h i k (by omega) hlt (by omega) hp
        rw [hx] at hfalse
        exact absurd hfalse (by simp)
    rw [hall, hlen]
  · intro h i j hi hj hij hpi
    cases hp : P l[j] with
    | false => rfl
    | true =>
      have hcount := h j l[j] (List.getElem?_eq_getElem hj) hp
      have hlen : (l.take j).length = j := List.length_take_of_le (Nat.le_of_lt hj)
      have hall := List.countP_eq_length.mp (hcount.trans hlen.symm)
      have hmem : l[i] ∈ l.take j :=
        List.mem_iff_getElem.mpr ⟨i, by omega, List.getElem_take⟩
      rw [hall _ hmem] at hpi
      exact absurd hpi (by simp)

/-- The element that has `P` for the `k`-th time. -/
theorem exists_append_of_lt_countP {P : α → Bool} {l : List α} {k : Nat} (h : k < l.countP P) :
    ∃ a x b, l = a ++ x :: b ∧ P x = true ∧ a.countP P = k := by
  induction l generalizing k with
  | nil => exact absurd h (by simp)
  | cons y l ih =>
    by_cases hy : P y = true
    · rw [List.countP_cons_of_pos hy] at h
      rcases k with _ | k
      · exact ⟨[], y, l, rfl, hy, rfl⟩
      · obtain ⟨a, x, b, rfl, hx, hk⟩ := ih (Nat.lt_of_succ_lt_succ h)
        exact ⟨y :: a, x, b, rfl, hx, by rw [List.countP_cons_of_pos hy, hk]⟩
    · rw [List.countP_cons_of_neg hy] at h
      obtain ⟨a, x, b, rfl, hx, hk⟩ := ih h
      exact ⟨y :: a, x, b, rfl, hx, by rw [List.countP_cons_of_neg hy, hk]⟩

theorem getElem?_filter_append {P : α → Bool} {a b : List α} {x : α} (hx : P x = true) :
    ((a ++ x :: b).filter P)[a.countP P]? = some x := by
  rw [List.filter_append, List.filter_cons_of_pos hx, List.countP_eq_length_filter,
    List.getElem?_append_right (Nat.le_refl _), Nat.sub_self]
  rfl

/-- The array a list was written over: the list first, what was there before behind it. -/
def overlay (l : List α) (old : Nat → α) (m : Nat) : α := l[m]?.getD (old m)

theorem overlay_of_lt {l : List α} {old : Nat → α} {m : Nat} (h : m < l.length) :
    overlay l old m = l[m] := by
  rw [overlay, List.getElem?_eq_getElem h]
  rfl

theorem overlay_of_le {l : List α} {old : Nat → α} {m : Nat} (h : l.length ≤ m) :
    overlay l old m = old m := by
  rw [overlay, List.getElem?_eq_none h]
  rfl

/-- `a[k++] = x` after the list `l` was written. -/
theorem overlay_snoc (l : List α) (x : α) (old : Nat → α) (m : Nat) :
    overlay (l ++ [x]) old m = if m = l.length then x else overlay l old m := by
  have hlen : (l ++ [x]).length = l.length + 1 := by simp
  by_cases h : m = l.length
  · subst h
    rw [if_pos rfl, overlay_of_lt (l := l ++ [x]) (by omega)]
    simp
  · rw [if_neg h]
    by_cases hlt : m < l.length
    · rw [overlay_of_lt (l := l ++ [x]) (by omega), overlay_of_lt hlt,
        List.getElem_append_left hlt]
    · rw [overlay_of_le (l := l ++ [x]) (by omega), overlay_of_le (l := l) (by omega)]

/-- As far as the second list goes, the first is what its pairs say. -/
theorem prefix_map_fst_zip {α β : Type _} {xs zs : List α} {ys : List β} (h : xs <+: zs)
    (hlen : xs.length ≤ ys.length) : xs <+: (zs.zip ys).map Prod.fst := by
  obtain ⟨rest, rfl⟩ := h
  have htake : xs.length = (ys.take xs.length).length := by
    rw [List.length_take, Nat.min_eq_left hlen]
  refine ⟨(rest.zip (ys.drop xs.length)).map Prod.fst, ?_⟩
  calc xs ++ (rest.zip (ys.drop xs.length)).map Prod.fst
      = (xs.zip (ys.take xs.length)).map Prod.fst
          ++ (rest.zip (ys.drop xs.length)).map Prod.fst := by
        rw [List.map_fst_zip (Nat.le_of_eq htake)]
    _ = ((xs ++ rest).zip (ys.take xs.length ++ ys.drop xs.length)).map Prod.fst := by
        rw [List.zip_append htake, List.map_append]
    _ = ((xs ++ rest).zip ys).map Prod.fst := by rw [List.take_append_drop]

end Infra
