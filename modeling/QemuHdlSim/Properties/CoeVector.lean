import QemuHdlSim.Properties.HwTable

/-!
# The separators of the generated vector

Only the loop over the `peri` sections leaves out the comma behind its last word. So the vector
ends as it should exactly when there is such a section (`wellFormed_iff`).
-/

namespace QemuHdlSim.HwTable

open Infra

variable {c : Conversions} {cfg : ConfigParser}

/-- A word is not empty, and has no comma and no newline in it. -/
def IsWord (w : Text) : Prop := w ≠ [] ∧ ∀ ch ∈ w, isStop ch = false

/-- Words, between two of them a comma and a newline, and at most newlines behind the last one. -/
def Separated (t : Text) : Prop :=
  ∃ ws tail, (∀ w ∈ ws, IsWord w) ∧ (∀ ch ∈ tail, ch = '\n') ∧
    t = [',', '\n'].intercalate ws ++ tail

/-- What comes behind `memory_initialization_vector=` is a list of words. -/
def WellFormed (text : Text) : Prop := ∃ vector, text = preamble ++ vector ∧ Separated vector

/-! ## The lines -/

/-- Every one of the lines ends in a comma. -/
def Commas (ls : List Line) : Prop := ∃ as : List Int, ls = as.map comma

theorem Commas.append {ls ls' : List Line} (h : Commas ls) (h' : Commas ls') :
    Commas (ls ++ ls') := by
  obtain ⟨as, rfl⟩ := h
  obtain ⟨as', rfl⟩ := h'
  exact ⟨as ++ as', List.map_append.symm⟩

theorem Commas.flatten {lss : List (List Line)} (h : ∀ ls ∈ lss, Commas ls) :
    Commas lss.flatten := by
  induction lss with
  | nil => exact ⟨[], rfl⟩
  | cons ls lss ih =>
    exact (h ls List.mem_cons_self).append (ih fun l hl => h l (List.mem_cons_of_mem _ hl))

/-- The lines of an entry whose fourth one ends in a comma, too. -/
theorem commas_entryLines {base ext : String → Except PyError Int} {sec : String} {ls : List Line}
    (h : entryLines c cfg base ext comma sec = .ok ls) : Commas ls := by
  obtain ⟨b, e, lower, upper, _, _, _, _, rfl⟩ := entryLines_eq_ok.mp h
  exact ⟨[b, e, lower, upper], rfl⟩

/-- A `peri` section that is not the last one. -/
theorem commas_periLines {p : String × Nat} {ls : List Line}
    (hlt : p.2 + 1 ≠ (periSecs cfg).length) (h : periLines c cfg p = .ok ls) : Commas ls := by
  unfold periLines at h
  rw [if_neg hlt] at h
  exact commas_entryLines h

/-- The last one. -/
theorem newline_periLines {p : String × Nat} {ls : List Line}
    (heq : p.2 + 1 = (periSecs cfg).length) (h : periLines c cfg p = .ok ls) :
    ∃ init a, Commas init ∧ ls = init ++ [newline a] := by
  unfold periLines at h
  rw [if_pos heq] at h
  obtain ⟨b, e, lower, upper, _, _, _, _, rfl⟩ := entryLines_eq_ok.mp h
  exact ⟨_, upper, ⟨[b, e, lower], rfl⟩, rfl⟩

/-- The lines of the `peri` sections, when there are some. -/
theorem newline_periSecs {lss : List (List Line)} (hne : periSecs cfg ≠ [])
    (h : List.Forall₂ (fun p ls => periLines c cfg p = .ok ls) (periSecs cfg).zipIdx lss) :
    ∃ init a, Commas init ∧ lss.flatten = init ++ [newline a] := by
  obtain ⟨secs, last, hsecs⟩ := (List.eq_nil_or_concat (periSecs cfg)).resolve_left hne
  rw [List.concat_eq_append] at hsecs
  have hlen : (periSecs cfg).length = secs.length + 1 := by
    rw [hsecs, List.length_append, List.length_singleton]
  rw [hsecs, List.zipIdx_append] at h
  obtain ⟨front, ls, rfl, hfront, hlast⟩ := forall₂_concat h
  have hcommas : ∀ l ∈ front, Commas l := by
    refine forall_right hfront fun p hp l hl => commas_periLines ?_ hl
    have hlt := List.snd_lt_of_mem_zipIdx hp
    omega
  obtain ⟨init, a, hinit, rfl⟩ := newline_periLines (by rw [hlen]; simp) hlast
  refine ⟨front.flatten ++ init, a, (Commas.flatten hcommas).append hinit, ?_⟩
  rw [List.flatten_append, List.flatten_singleton, List.append_assoc]

/-- **How the lines end.** There are four at least. -/
theorem tableLines_end {ls : List Line} (h : tableLines c cfg = .ok ls) :
    ∃ init a, Commas init ∧
      ls = init ++ [if periSecs cfg = [] then comma a else newline a] := by
  obtain ⟨info, dmas, mems, peris, _, hdmas, hmems, hperis, rfl⟩ := tableLines_eq_ok.mp h
  have hdma : Commas dmas.flatten :=
    .flatten (forall_right hdmas fun _ _ _ hl => commas_entryLines hl)
  have hmem : Commas mems.flatten :=
    .flatten (forall_right hmems fun _ _ _ hl => commas_entryLines hl)
  have hheader : Commas (headerLines info) := ⟨[0x4D504153, 0x0000434F, info, 0], rfl⟩
  have hfront := (hheader.append hdma).append hmem
  by_cases hnone : periSecs cfg = []
  · rw [hnone] at hperis
    cases hperis
    obtain ⟨as, has⟩ := hfront
    have hne : as ≠ [] := by
      rintro rfl
      exact absurd has (by simp [headerLines])
    obtain ⟨init, a, rfl⟩ := (List.eq_nil_or_concat as).resolve_left hne
    refine ⟨init.map comma, a, ⟨init, rfl⟩, ?_⟩
    rw [if_pos hnone, List.flatten_nil, List.append_nil, has, List.concat_eq_append,
      List.map_append]
    rfl
  · obtain ⟨init, a, hinit, hflat⟩ := newline_periSecs hnone hperis
    refine ⟨_, a, hfront.append hinit, ?_⟩
    rw [if_neg hnone, hflat]
    exact (List.append_assoc _ _ _).symm

/-! ## The text -/

theorem text_commas (as : List Int) : (as.map comma).flatMap Line.text
    = (as.map fun a => intIn32Hex a).flatMap fun w => w ++ [',', '\n'] := by
  rw [List.flatMap_map, List.flatMap_map]
  rfl

/-- The last word with a newline behind it. -/
theorem separated_newline {init : List Line} (a : Int) (h : Commas init) :
    Separated ((init ++ [newline a]).flatMap Line.text) := by
  obtain ⟨as, rfl⟩ := h
  refine ⟨(as ++ [a]).map fun b => intIn32Hex b, ['\n'], fun w hw => ?_, fun ch hch => ?_, ?_⟩
  · obtain ⟨b, _, rfl⟩ := List.mem_map.mp hw
    exact isStop_intIn32Hex b
  · exact List.mem_singleton.mp hch
  · rw [List.flatMap_append, text_commas, List.map_append, List.map_singleton, intercalate_concat,
      List.flatMap_singleton, List.append_assoc]
    rfl

/-- **A comma behind the last word.** -/
theorem not_separated_comma (init : List Line) (a : Int) :
    ¬Separated ((init ++ [comma a]).flatMap Line.text) := by
  rintro ⟨ws, tail, hws, htail, heq⟩
  -- the last character that is not a newline is the comma
  have hmark : lastMark '\n' ((init ++ [comma a]).flatMap Line.text) = some ',' := by
    rw [List.flatMap_append, List.flatMap_singleton]
    show lastMark '\n' (_ ++ (intIn32Hex a ++ ([','] ++ ['\n']))) = _
    rw [← List.append_assoc, ← List.append_assoc,
      lastMark_append fun ch hch => List.mem_singleton.mp hch, lastMark_concat (by decide)]
  rw [heq, lastMark_append htail] at hmark
  rcases List.eq_nil_or_concat ws with rfl | ⟨front, w, rfl⟩
  · exact absurd hmark (by decide)
  · obtain ⟨hne, hstops⟩ := hws w (by simp)
    obtain ⟨body, ch, rfl⟩ := (List.eq_nil_or_concat w).resolve_left hne
    have hch := hstops ch (by simp)
    have hnl : ch ≠ '\n' := by
      rintro rfl
      exact absurd hch (by decide)
    rw [List.concat_eq_append, List.concat_eq_append, intercalate_concat, ← List.append_assoc,
      lastMark_concat hnl] at hmark
    cases hmark
    exact absurd hch (by decide)

theorem wellFormed_append {vector : Text} : WellFormed (preamble ++ vector) ↔ Separated vector := by
  refine ⟨?_, fun h => ⟨vector, rfl, h⟩⟩
  rintro ⟨v, hv, h⟩
  rw [List.append_cancel_left hv]
  exact h

theorem not_wellFormed {text : Text} (h : hwtabCoe c cfg = .ok text) (hnone : periSecs cfg = []) :
    ¬WellFormed text := by
  obtain ⟨_, ls, hls, rfl⟩ := hwtabCoe_eq_ok.mp h
  obtain ⟨init, a, _, rfl⟩ := tableLines_end hls
  rw [if_pos hnone, wellFormed_append]
  exact not_separated_comma init a

/--
**The separators.** For every configuration for which the program comes to its end, whatever
sections it has and whatever values they have.
-/
theorem wellFormed_iff {text : Text} (h : hwtabCoe c cfg = .ok text) :
    WellFormed text ↔ periSecs cfg ≠ [] := by
  refine ⟨fun hwell hnone => not_wellFormed h hnone hwell, fun hsome => ?_⟩
  obtain ⟨_, ls, hls, rfl⟩ := hwtabCoe_eq_ok.mp h
  obtain ⟨init, a, hinit, rfl⟩ := tableLines_end hls
  rw [if_neg hsome, wellFormed_append]
  exact separated_newline a hinit

theorem wellFormed_hwConfig :
    ∃ text, hwtabCoe python hwConfig = .ok text ∧ (WellFormed text ↔ periSecs hwConfig ≠ []) := by
  obtain ⟨text, htext⟩ := roundTrip_of_table tableOf_hwConfig
  exact ⟨text, htext.written, wellFormed_iff htext.written⟩

/-- The configuration of the repository has no `peri` section. -/
theorem not_wellFormed_hwConfig :
    ∃ text, hwtabCoe python hwConfig = .ok text ∧ ¬WellFormed text := by
  obtain ⟨text, htext⟩ := roundTrip_of_table tableOf_hwConfig
  exact ⟨text, htext.written, not_wellFormed htext.written periSecs_hwConfig⟩

end QemuHdlSim.HwTable
