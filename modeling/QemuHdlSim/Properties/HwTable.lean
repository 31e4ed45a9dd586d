import QemuHdlSim.HwTable.Encode
import QemuHdlSim.HwTable.Python

/-!
# The round trip of the hardware table

What `hw_config.ini` says, written by the generator and decoded by the layout of the words, comes
back as it was (`hwtabCoe_roundTrip`): for any sections in any order, as long as their values fit.
-/

namespace QemuHdlSim.HwTable

open Infra

variable {c : Conversions} {cfg : ConfigParser}

/-- The file is written, and read back. -/
structure RoundTrip (c : Conversions) (cfg : ConfigParser) (t : Table) (text : Text) : Prop where
  written : hwtabCoe c cfg = .ok text
  decoded : decodeCoe text = some t
  /-- Four words about the project, and four for each entry. -/
  length : (words text).length = 4 + 4 * t.entries.length
  eightDigits : ∀ w ∈ words text, w.length = 8 ∧ ∀ ch ∈ w, ∃ d < 16, ch = d.digitChar

/-! ## The lines of the entries -/

/-- The numbers as the program writes them. -/
def hexWords (ns : List Nat) : List Text := ns.map fun n : Nat => intIn32Hex n

theorem hexWords_append (ns ms : List Nat) : hexWords (ns ++ ms) = hexWords ns ++ hexWords ms :=
  List.map_append

/-- The lines have the words of the entries. -/
structure LinesOf (es : List Entry) (ls : List Line) : Prop where
  words : ls.map Line.word = hexWords (es.flatMap entryWords)
  written : ∀ l ∈ ls, Written l

theorem LinesOf.append {es es' : List Entry} {ls ls' : List Line} (h : LinesOf es ls)
    (h' : LinesOf es' ls') : LinesOf (es ++ es') (ls ++ ls') := by
  refine ⟨?_, fun l hl => ?_⟩
  · rw [List.map_append, h.words, h'.words, List.flatMap_append, hexWords_append]
  · rcases List.mem_append.mp hl with hl | hl
    · exact h.written l hl
    · exact h'.written l hl

/-- **One section**, of any kind. -/
theorem linesOf_entry {ExtOf : String → Ext → Prop} {base ext : String → Except PyError Int}
    {last : Int → Line} {sec : String} {e : Entry} (he : EntryOf c cfg ExtOf sec e)
    (hbase : base sec = .ok (pack (baseFields e.base e.ext.code)))
    (hext : ext sec = .ok (pack (extFields e.ext)))
    (hlast : ∀ a, Written (last a) ∧ (last a).word = intIn32Hex a) :
    ∃ ls, entryLines c cfg base ext last sec = .ok ls ∧ LinesOf [e] ls := by
  refine ⟨_, entryLines_eq_ok.mpr ⟨_, _, _, _, hbase, hext, he.lowerOffset, he.upperOffset, rfl⟩,
    ?_, ?_⟩
  · rw [List.map_cons, List.map_cons, List.map_cons, List.map_cons, (hlast _).2]
    rfl
  · intro l hl
    simp only [List.mem_cons, List.not_mem_nil, or_false] at hl
    rcases hl with rfl | rfl | rfl | rfl
    · exact ⟨_, Or.inl rfl⟩
    · exact ⟨_, Or.inl rfl⟩
    · exact ⟨_, Or.inl rfl⟩
    · exact (hlast _).1

/-- **The sections of one kind**, one after another. -/
theorem linesOf_entries {ι : Type} {R : ι → Entry → Prop} {f : ι → Except PyError (List Line)}
    (hf : ∀ i e, R i e → ∃ ls, f i = .ok ls ∧ LinesOf [e] ls) {is : List ι} {es : List Entry}
    (h : List.Forall₂ R is es) :
    ∃ lss, List.Forall₂ (fun i ls => f i = .ok ls) is lss ∧ LinesOf es lss.flatten := by
  induction h with
  | nil => exact ⟨[], List.Forall₂.nil, rfl, fun l hl => absurd hl List.not_mem_nil⟩
  | cons hR _ ih =>
    obtain ⟨ls, hls, hlines⟩ := hf _ _ hR
    obtain ⟨lss, hlss, hrest⟩ := ih
    exact ⟨ls :: lss, List.Forall₂.cons hls hlss, hlines.append hrest⟩

theorem comma_last (a : Int) : Written (comma a) ∧ (comma a).word = intIn32Hex a :=
  ⟨⟨a, Or.inl rfl⟩, rfl⟩

theorem linesOf_dma {sec : String} {e : Entry} (he : EntryOf c cfg (DmaExt c cfg) sec e) :
    ∃ ls, dmaLines c cfg sec = .ok ls ∧ LinesOf [e] ls := by
  obtain ⟨hext, hcode⟩ := dmaExtInfo_eq he.ext
  refine linesOf_entry he ?_ hext comma_last
  rw [hcode]
  exact baseInfo_eq he.base 1#4

theorem linesOf_mem {sec : String} {e : Entry} (he : EntryOf c cfg (MemExt c cfg) sec e) :
    ∃ ls, memLines c cfg sec = .ok ls ∧ LinesOf [e] ls := by
  obtain ⟨hext, hcode⟩ := memExtInfo_eq he.ext
  refine linesOf_entry he ?_ hext comma_last
  rw [hcode]
  exact baseInfo_eq he.base 2#4

/-- Whether the section is the last one or not. -/
theorem linesOf_peri {p : String × Nat} {e : Entry} (he : EntryOf c cfg PeriExt p.1 e) :
    ∃ ls, periLines c cfg p = .ok ls ∧ LinesOf [e] ls := by
  obtain ⟨hext, hcode⟩ := periExtInfo_eq he.ext
  refine linesOf_entry he ?_ hext fun a => ?_
  · rw [hcode]
    exact baseInfo_eq he.base 3#4
  · split
    · exact ⟨⟨a, Or.inr rfl⟩, rfl⟩
    · exact comma_last a

/-! ## The file -/

/-- The lines of the file have the words of the table. -/
theorem tableLines_of_table {t : Table} (h : TableOf c cfg t) :
    ∃ ls, tableLines c cfg = .ok ls ∧ ls.map Line.word = hexWords (tableWords t) ∧
      ∀ l ∈ ls, Written l := by
  obtain ⟨dmas, mems, peris, hsplit, hdmas, hmems, hperis⟩ := h.entries
  have hzip :
      List.Forall₂ (fun p e => EntryOf c cfg PeriExt p.1 e) (periSecs cfg).zipIdx peris := by
    rw [← List.forall₂_map_left_iff, List.zipIdx_map_fst]
    exact hperis
  obtain ⟨ds, hds, hdLines⟩ := linesOf_entries (fun _ _ he => linesOf_dma he) hdmas
  obtain ⟨ms, hms, hmLines⟩ := linesOf_entries (fun _ _ he => linesOf_mem he) hmems
  obtain ⟨ps, hps, hpLines⟩ := linesOf_entries (fun _ _ he => linesOf_peri he) hzip
  have hlines := (hdLines.append hmLines).append hpLines
  rw [← hsplit] at hlines
  refine ⟨_, tableLines_eq_ok.mpr ⟨_, ds, ms, ps, projInfo_eq h, hds, hms, hps, rfl⟩, ?_, ?_⟩
  · rw [List.append_assoc, List.append_assoc, ← List.append_assoc ds.flatten, List.map_append,
      hlines.words]
    rfl
  · intro l hl
    rw [List.append_assoc, List.append_assoc, ← List.append_assoc ds.flatten] at hl
    rcases List.mem_append.mp hl with hl | hl
    · simp only [headerLines, List.mem_cons, List.not_mem_nil, or_false] at hl
      rcases hl with rfl | rfl | rfl | rfl <;> exact ⟨_, Or.inl rfl⟩
    · exact hlines.written l hl

/-- The words are read back. -/
theorem readWords_hexWords {ns : List Nat} (h : ∀ n ∈ ns, n < 2 ^ 32) :
    (hexWords ns).mapM readWord = some (ns.map (BitVec.ofNat 32)) := by
  induction ns with
  | nil => rfl
  | cons n ns ih =>
    show (intIn32Hex (n : Int) :: hexWords ns).mapM readWord = _
    rw [List.mapM_cons, readWord_intIn32Hex (h n List.mem_cons_self),
      ih fun m hm => h m (List.mem_cons_of_mem _ hm)]
    rfl

theorem length_tableWords (t : Table) : (tableWords t).length = 4 + 4 * t.entries.length := by
  have hentries : ∀ es : List Entry, (es.flatMap entryWords).length = 4 * es.length := by
    intro es
    induction es with
    | nil => rfl
    | cons e es ih =>
      rw [List.flatMap_cons, List.length_append, ih, List.length_cons]
      show 4 + 4 * es.length = _
      omega
  have h := hentries t.entries
  show (t.entries.flatMap entryWords).length + 1 + 1 + 1 + 1 = _
  omega

theorem roundTrip_of_table {t : Table} (h : TableOf c cfg t) : ∃ text, RoundTrip c cfg t text := by
  obtain ⟨ls, hls, hwords, hwritten⟩ := tableLines_of_table h
  have htokens : words (preamble ++ ls.flatMap Line.text) = hexWords (tableWords t) :=
    (words_of_lines ls hwritten).trans hwords
  refine ⟨_, hwtabCoe_eq_ok.mpr ⟨h.hasProject, ls, hls, rfl⟩, ?_, ?_, ?_⟩
  · unfold decodeCoe
    rw [if_pos (List.prefix_append _ _), htokens, readWords_hexWords (tableWords_lt t),
      Option.bind_some, decodeTable_tableWords]
  · rw [htokens]
    exact (List.length_map _).trans (length_tableWords t)
  · intro w hw
    rw [htokens] at hw
    obtain ⟨n, hn, rfl⟩ := List.mem_map.mp hw
    exact ⟨length_intIn32Hex (tableWords_lt t n hn), fun ch hch => digit_intIn32Hex hch⟩

/--
**The round trip.** Any table that the configuration gives, with up to 255 entries, is decoded from
the file that is written; and the fields of a word do not overlap. The header of the table has the
number of the entries, and the entries are the sections of each kind in their order.
-/
theorem hwtabCoe_roundTrip {t : Table} (h : TableOf c cfg t) :
    (∃ text, RoundTrip c cfg t text) ∧ ∀ layout ∈ layouts, Stacked 32 layout :=
  ⟨roundTrip_of_table h, stacked_layouts⟩

/-! ## The table of the repository -/

/-- `hw_config.ini` -/
def hwConfig : ConfigParser := .ofSections
  [("project", [("project_id", "0xc951"), ("major_version", "1"), ("minor_version", "2")]),
    ("dma 0", [("pci_bar_id", "0"), ("major_version", "2"), ("minor_version", "1"), ("mode", "0"),
      ("vendor", "0"), ("peripheral_id", "0"), ("sg_len_bit", "26"), ("alignment", "0"),
      ("lower_offset", "0x00009000"), ("upper_offset", "0x00000000")]),
    ("dma 1", [("pci_bar_id", "0"), ("major_version", "2"), ("minor_version", "1"), ("mode", "0"),
      ("vendor", "0"), ("peripheral_id", "1"), ("sg_len_bit", "26"), ("alignment", "0"),
      ("lower_offset", "0x00004000"), ("upper_offset", "0x00000000")]),
    ("mem 0", [("pci_bar_id", "0"), ("major_version", "4"), ("minor_version", "1"), ("mode", "0"),
      ("vendor", "0"), ("peripheral_id", "0"), ("mem_size", "4"), ("mem_type", "0"),
      ("lower_offset", "0x00000000"), ("upper_offset", "0x00000000")]),
    ("mem 1", [("pci_bar_id", "0"), ("major_version", "4"), ("minor_version", "1"), ("mode", "0"),
      ("vendor", "0"), ("peripheral_id", "1"), ("mem_size", "256"), ("mem_type", "1"),
      ("lower_offset", "0x00100000"), ("upper_offset", "0x00000000")]),
    ("mem 2", [("pci_bar_id", "0"), ("major_version", "4"), ("minor_version", "1"), ("mode", "0"),
      ("vendor", "0"), ("peripheral_id", "2"), ("mem_size", "160"), ("mem_type", "2"),
      ("lower_offset", "0x00200000"), ("upper_offset", "0x00000000")]),
    ("mem 3", [("pci_bar_id", "2"), ("major_version", "4"), ("minor_version", "2"), ("mode", "0"),
      ("vendor", "0"), ("peripheral_id", "3"), ("mem_size", "4"), ("mem_type", "3"),
      ("lower_offset", "0x00000000"), ("upper_offset", "0x00000000")])]
  (by decide)

/-- What it says. -/
def hwTable : Table where
  projectId := 0xc951
  majorVersion := 1
  minorVersion := 2
  numSubsecs := 6
  entries :=
    [⟨⟨0, 2, 1, 0, 0, 0⟩, .dma false 26, 0x9000, 0⟩, ⟨⟨0, 2, 1, 0, 0, 1⟩, .dma false 26, 0x4000, 0⟩,
      ⟨⟨0, 4, 1, 0, 0, 0⟩, .mem 4 0, 0, 0⟩, ⟨⟨0, 4, 1, 0, 0, 1⟩, .mem 256 1, 0x100000, 0⟩,
      ⟨⟨0, 4, 1, 0, 0, 2⟩, .mem 160 2, 0x200000, 0⟩, ⟨⟨2, 4, 2, 0, 0, 3⟩, .mem 4 3, 0, 0⟩]

theorem dmaSecs_hwConfig : dmaSecs hwConfig = ["dma 0", "dma 1"] := by decide

theorem memSecs_hwConfig : memSecs hwConfig = ["mem 0", "mem 1", "mem 2", "mem 3"] := by decide

theorem periSecs_hwConfig : periSecs hwConfig = [] := by decide

theorem tableOf_hwConfig : TableOf python hwConfig hwTable where
  hasProject := by decide
  projectId := rfl
  majorVersion := rfl
  minorVersion := rfl
  numSubsecs := rfl
  entries := by
    refine ⟨hwTable.entries.take 2, hwTable.entries.drop 2, [], rfl, ?_, ?_, ?_⟩
    · rw [dmaSecs_hwConfig]
      exact .cons ⟨⟨rfl, rfl, rfl, rfl, rfl, rfl⟩, ⟨_, _, rfl, rfl, rfl⟩, rfl, rfl⟩
        (.cons ⟨⟨rfl, rfl, rfl, rfl, rfl, rfl⟩, ⟨_, _, rfl, rfl, rfl⟩, rfl, rfl⟩ .nil)
    · rw [memSecs_hwConfig]
      exact .cons ⟨⟨rfl, rfl, rfl, rfl, rfl, rfl⟩, ⟨_, _, rfl, rfl, rfl⟩, rfl, rfl⟩
        (.cons ⟨⟨rfl, rfl, rfl, rfl, rfl, rfl⟩, ⟨_, _, rfl, rfl, rfl⟩, rfl, rfl⟩
        (.cons ⟨⟨rfl, rfl, rfl, rfl, rfl, rfl⟩, ⟨_, _, rfl, rfl, rfl⟩, rfl, rfl⟩
        (.cons ⟨⟨rfl, rfl, rfl, rfl, rfl, rfl⟩, ⟨_, _, rfl, rfl, rfl⟩, rfl, rfl⟩ .nil)))
    · rw [periSecs_hwConfig]
      exact .nil

theorem hwtabCoe_roundTrip_hwConfig :
    (∃ text, RoundTrip python hwConfig hwTable text) ∧ ∀ layout ∈ layouts, Stacked 32 layout :=
  hwtabCoe_roundTrip tableOf_hwConfig

end QemuHdlSim.HwTable
