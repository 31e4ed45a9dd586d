import QemuHdlSim.HwTable.Decode
import QemuHdlSim.Infra.Except

/-!
# The lines of `hwtab.coe`

* `readWord_intIn32Hex` — a number below `2 ^ 32` is eight digits, and read back from them
* `words_hwtabCoe` — the words of the file are those of its lines
* `tableLines_eq_ok` — the lines of a run that comes to its end
-/

namespace QemuHdlSim.HwTable

open Infra

/-! ## A word -/

theorem intIn32Hex_natCast (n : Nat) : intIn32Hex (n : Int)
    = List.replicate (8 - (Nat.toDigits 16 n).length) '0' ++ Nat.toDigits 16 n := by
  unfold intIn32Hex
  rw [if_neg (by omega), Int.natAbs_natCast]
  rfl

theorem length_intIn32Hex {n : Nat} (h : n < 2 ^ 32) : (intIn32Hex (n : Int)).length = 8 := by
  have hlen : (Nat.toDigits 16 n).length ≤ 8 :=
    (Nat.length_toDigits_le_iff (by decide) (by decide)).mpr h
  rw [intIn32Hex_natCast, List.length_append, List.length_replicate]
  omega

/-- **A word is read back.** -/
theorem readWord_intIn32Hex {n : Nat} (h : n < 2 ^ 32) :
    readWord (intIn32Hex (n : Int)) = some (BitVec.ofNat 32 n) := by
  unfold readWord
  rw [if_pos (length_intIn32Hex h), intIn32Hex_natCast, hexNat?_padded, Option.map_some]

/-- It has lowercase digits only. -/
theorem digit_intIn32Hex {n : Nat} {ch : Char} (h : ch ∈ intIn32Hex (n : Int)) :
    ∃ d < 16, ch = d.digitChar := by
  rw [intIn32Hex_natCast] at h
  rcases List.mem_append.mp h with h | h
  · exact ⟨0, by decide, List.eq_of_mem_replicate h⟩
  · exact mem_toDigits n ch h

theorem isStop_digitChar : ∀ d < 16, isStop d.digitChar = false := by decide

/-- No word is empty, and none has a comma or a newline in it, whatever the number is. -/
theorem isStop_intIn32Hex (a : Int) :
    intIn32Hex a ≠ [] ∧ ∀ ch ∈ intIn32Hex a, isStop ch = false := by
  constructor
  · intro h
    exact Nat.toDigits_ne_nil (List.append_eq_nil_iff.mp h).2
  · intro ch hch
    rcases List.mem_append.mp hch with hch | hch
    · rcases List.mem_append.mp hch with hch | hch
      · -- the sign; there is no mark
        rw [if_neg (by decide : ¬false = true), List.append_nil] at hch
        split at hch
        · rw [List.mem_singleton.mp hch]
          decide
        · exact absurd hch List.not_mem_nil
      · rw [List.eq_of_mem_replicate hch]
        decide
    · obtain ⟨d, hd, rfl⟩ := mem_toDigits _ ch hch
      exact isStop_digitChar d hd

/-! ## The words of the lines -/

/-- A line the program writes. -/
def Written (l : Line) : Prop := ∃ a, l = comma a ∨ l = newline a

theorem tokens_written (ls : List Line) (h : ∀ l ∈ ls, Written l) :
    tokens isStop (ls.flatMap Line.text) = ls.map Line.word := by
  induction ls with
  | nil => rfl
  | cons l ls ih =>
    have hrest := ih fun m hm => h m (List.mem_cons_of_mem _ hm)
    obtain ⟨a, hl⟩ := h l List.mem_cons_self
    obtain ⟨hne, hstops⟩ := isStop_intIn32Hex a
    rw [List.flatMap_cons, List.map_cons, ← hrest]
    rcases hl with rfl | rfl
    · show tokens isStop ((intIn32Hex a ++ [',', '\n']) ++ ls.flatMap Line.text) = _
      rw [List.append_assoc]
      exact (tokens_append hstops hne rfl).trans (congrArg _ (tokens_cons rfl))
    · show tokens isStop ((intIn32Hex a ++ ['\n']) ++ ls.flatMap Line.text) = _
      rw [List.append_assoc]
      exact tokens_append hstops hne rfl

/-- **The words of the file.** -/
theorem words_of_lines (ls : List Line) (h : ∀ l ∈ ls, Written l) :
    words (preamble ++ ls.flatMap Line.text) = ls.map Line.word := by
  unfold words
  rw [List.drop_left]
  exact tokens_written ls h

/-! ## A run that comes to its end -/

variable {c : Conversions} {cfg : ConfigParser}

/-- The four lines of an entry. -/
theorem entryLines_eq_ok {base ext : String → Except PyError Int} {last : Int → Line} {sec : String}
    {ls : List Line} : entryLines c cfg base ext last sec = .ok ls ↔
      ∃ b e lower upper, base sec = .ok b ∧ ext sec = .ok e ∧
        int16 c cfg sec "lower_offset" = .ok lower ∧ int16 c cfg sec "upper_offset" = .ok upper ∧
          ls = [comma b, comma e, comma lower, last upper] := by
  unfold entryLines
  constructor
  · intro h
    obtain ⟨b, hb, h⟩ := bind_eq_ok.mp h
    obtain ⟨e, he, h⟩ := bind_eq_ok.mp h
    obtain ⟨lower, hlower, h⟩ := bind_eq_ok.mp h
    obtain ⟨upper, hupper, h⟩ := bind_eq_ok.mp h
    cases h
    exact ⟨b, e, lower, upper, hb, he, hlower, hupper, rfl⟩
  · rintro ⟨b, e, lower, upper, hb, he, hlower, hupper, rfl⟩
    rw [hb, he, hlower, hupper]
    rfl

/-- **The lines.** -/
theorem tableLines_eq_ok {ls : List Line} : tableLines c cfg = .ok ls ↔
    ∃ info dmas mems peris, projInfo c cfg = .ok info ∧
      List.Forall₂ (fun sec l => dmaLines c cfg sec = .ok l) (dmaSecs cfg) dmas ∧
      List.Forall₂ (fun sec l => memLines c cfg sec = .ok l) (memSecs cfg) mems ∧
      List.Forall₂ (fun sec l => periLines c cfg sec = .ok l) (periSecs cfg).zipIdx peris ∧
        ls = headerLines info ++ dmas.flatten ++ mems.flatten ++ peris.flatten := by
  unfold tableLines
  constructor
  · intro h
    obtain ⟨info, hinfo, h⟩ := bind_eq_ok.mp h
    obtain ⟨dmas, hdmas, h⟩ := bind_eq_ok.mp h
    obtain ⟨mems, hmems, h⟩ := bind_eq_ok.mp h
    obtain ⟨peris, hperis, h⟩ := bind_eq_ok.mp h
    cases h
    exact ⟨info, dmas, mems, peris, hinfo, mapM_eq_ok.mp hdmas, mapM_eq_ok.mp hmems,
      mapM_eq_ok.mp hperis, rfl⟩
  · rintro ⟨info, dmas, mems, peris, hinfo, hdmas, hmems, hperis, rfl⟩
    rw [hinfo, mapM_eq_ok.mpr hdmas, mapM_eq_ok.mpr hmems, mapM_eq_ok.mpr hperis]
    rfl

/-- The file. -/
theorem hwtabCoe_eq_ok {text : Text} : hwtabCoe c cfg = .ok text ↔
    "project" ∈ cfg.sections ∧
      ∃ ls, tableLines c cfg = .ok ls ∧ text = preamble ++ ls.flatMap Line.text := by
  unfold hwtabCoe
  constructor
  · intro h
    split at h
    · rename_i hproject
      cases hls : tableLines c cfg with
      | error e =>
        rw [hls] at h
        exact absurd h (by simp [Except.map])
      | ok ls =>
        rw [hls] at h
        cases h
        exact ⟨hproject, ls, rfl, rfl⟩
    · exact absurd h (by simp)
  · rintro ⟨hproject, ls, hls, rfl⟩
    rw [if_pos hproject, hls]
    rfl

end QemuHdlSim.HwTable
