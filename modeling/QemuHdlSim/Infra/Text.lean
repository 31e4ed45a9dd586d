/-!
# Texts of numbers

* `hexNat?_padded` — a number written in base 16 with leading zeros is read back
* `tokens_append` — the tokens of a text that begins with one
* `intercalate_concat` — a list of words, separated and not ended by a separator
-/

namespace Infra

/-- A text, as its characters. -/
abbrev Text := List Char

/-! ## Base 16 -/

/-- The value of a lowercase digit. -/
def hexValue? (ch : Char) : Option Nat := (List.range 16).find? fun d => d.digitChar == ch

theorem hexValue?_digitChar : ∀ d < 16, hexValue? d.digitChar = some d := by decide

/-- One more digit. -/
def hexNext (n : Nat) (ch : Char) : Option Nat := (hexValue? ch).map fun d => 16 * n + d

/-- The number a text of digits stands for. -/
def hexNat? (t : Text) : Option Nat := t.foldlM hexNext 0

theorem hexNext_digitChar {n d : Nat} (h : d < 16) : hexNext n d.digitChar = some (16 * n + d) := by
  unfold hexNext
  rw [hexValue?_digitChar d h, Option.map_some]

theorem hexNat?_toDigits (n : Nat) : hexNat? (Nat.toDigits 16 n) = some n := by
  unfold hexNat?
  induction n using Nat.strongRecOn with
  | ind n ih =>
    by_cases h : n < 16
    · rw [Nat.toDigits_of_lt_base h, List.foldlM_cons, hexNext_digitChar h]
      simp
    · -- the last digit comes behind those of `n / 16`
      rw [Nat.toDigits_of_base_le (by decide) (by omega), List.foldlM_append,
        ih (n / 16) (by omega)]
      have hlast := hexNext_digitChar (n := n / 16) (Nat.mod_lt n (by decide : 0 < 16))
      rw [Option.bind_eq_bind, Option.bind_some, List.foldlM_cons, hlast]
      simp
      omega

/-- **A number with leading zeros** is read back. -/
theorem hexNat?_padded (k n : Nat) :
    hexNat? (List.replicate k '0' ++ Nat.toDigits 16 n) = some n := by
  induction k with
  | zero => exact hexNat?_toDigits n
  | succ k ih =>
    have hzero : hexNext 0 '0' = some 0 := by decide
    unfold hexNat? at ih ⊢
    rw [List.replicate_succ, List.cons_append, List.foldlM_cons, hzero]
    exact ih

/-- The characters of a number in base 16. -/
theorem mem_toDigits (n : Nat) :
    ∀ ch ∈ Nat.toDigits 16 n, ∃ d < 16, ch = d.digitChar := by
  induction n using Nat.strongRecOn with
  | ind n ih =>
    intro ch hch
    by_cases h : n < 16
    · rw [Nat.toDigits_of_lt_base h] at hch
      exact ⟨n, h, List.mem_singleton.mp hch⟩
    · rw [Nat.toDigits_of_base_le (by decide) (by omega)] at hch
      rcases List.mem_append.mp hch with hch | hch
      · exact ih (n / 16) (by omega) ch hch
      · exact ⟨n % 16, Nat.mod_lt n (by decide), List.mem_singleton.mp hch⟩

/-! ## Tokens -/

variable {sep : Char → Bool} {w t : Text}

/-- The longest pieces without a separator, the empty ones left out. -/
def tokens (sep : Char → Bool) (t : Text) : List Text := (t.splitOnP sep).filter (· ≠ [])

/-- **A text that begins with a token.** -/
theorem tokens_append {ch : Char} (hw : ∀ c ∈ w, sep c = false) (hne : w ≠ [])
    (hch : sep ch = true) : tokens sep (w ++ ch :: t) = w :: tokens sep t := by
  unfold tokens
  rw [List.splitOnP_append_cons_of_forall_mem hw ch hch,
    List.filter_cons_of_pos (by simpa using hne)]

/-- Separators in front are left out. -/
theorem tokens_cons {ch : Char} (hch : sep ch = true) : tokens sep (ch :: t) = tokens sep t := by
  have hsplit : (ch :: t).splitOnP sep = [] :: t.splitOnP sep :=
    List.splitOnP_append_cons_of_forall_mem (fun c hc => absurd hc List.not_mem_nil) ch hch t
  unfold tokens
  rw [hsplit, List.filter_cons_of_neg (by simp)]

/-! ## Lists of words -/

/-- The last word has no separator behind it. -/
theorem intercalate_concat (s : Text) (ws : List Text) (w : Text) :
    s.intercalate (ws ++ [w]) = ws.flatMap (fun v => v ++ s) ++ w := by
  induction ws with
  | nil => exact List.intercalate_singleton
  | cons v ws ih =>
    rw [List.cons_append, List.intercalate_cons_of_ne_nil (by simp), ih, List.flatMap_cons]
    simp only [List.append_assoc]

/-- The last character of a text that is not `nl`. -/
def lastMark (nl : Char) (t : Text) : Option Char := (t.filter (· ≠ nl)).getLast?

theorem lastMark_append {nl : Char} {t tail : Text} (h : ∀ ch ∈ tail, ch = nl) :
    lastMark nl (t ++ tail) = lastMark nl t := by
  have hnone : tail.filter (· ≠ nl) = [] :=
    List.filter_eq_nil_iff.mpr fun ch hch => by simp [h ch hch]
  unfold lastMark
  rw [List.filter_append, hnone, List.append_nil]

theorem lastMark_concat {nl ch : Char} {t : Text} (h : ch ≠ nl) :
    lastMark nl (t ++ [ch]) = some ch := by
  unfold lastMark
  rw [List.filter_append, List.filter_cons_of_pos (by simpa using h), List.filter_nil,
    List.getLast?_concat]

end Infra
