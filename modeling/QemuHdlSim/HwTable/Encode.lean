import QemuHdlSim.HwTable.Lines
import QemuHdlSim.Infra.Fields

/-!
# The words of an entry

* `baseInfo_eq`, `dmaExtInfo_eq`, `memExtInfo_eq`, `projInfo_eq` — the sums of masked and shifted
  values are words packed out of fields
* `decodeEntries_entryWords` — the words of an entry are decoded to it
-/

namespace QemuHdlSim.HwTable

open Infra

/-! ## The fields -/

def projectLayout : List Field := [⟨0, 16⟩, ⟨16, 4⟩, ⟨20, 4⟩, ⟨24, 8⟩]

def baseLayout : List Field := [⟨0, 4⟩, ⟨8, 5⟩, ⟨13, 3⟩, ⟨16, 4⟩, ⟨20, 4⟩, ⟨24, 4⟩, ⟨28, 4⟩]

def dmaLayout : List Field := [⟨0, 8⟩, ⟨8, 8⟩]

def memLayout : List Field := [⟨0, 16⟩, ⟨16, 4⟩]

/-- The layouts of the words that are made of fields. -/
def layouts : List (List Field) := [projectLayout, baseLayout, dmaLayout, memLayout]

theorem stacked_layouts : ∀ layout ∈ layouts, Stacked 32 layout := by decide

/-- The kind of an entry, as the first word has it. -/
def Ext.code : Ext → BitVec 4
  | .dma _ _ => 1#4
  | .mem _ _ => 2#4
  | .peri => 3#4

/-- A boolean in a field of eight bits. -/
def flag (b : Bool) : BitVec 8 := if b then 1 else 0

def projectFields (t : Table) : List (Field × Nat) :=
  [(⟨0, 16⟩, t.projectId.toNat), (⟨16, 4⟩, t.majorVersion.toNat), (⟨20, 4⟩, t.minorVersion.toNat),
    (⟨24, 8⟩, t.numSubsecs.toNat)]

def baseFields (b : Base) (code : BitVec 4) : List (Field × Nat) :=
  [(⟨0, 4⟩, b.pciBarId.toNat), (⟨8, 5⟩, b.majorVersion.toNat), (⟨13, 3⟩, b.minorVersion.toNat),
    (⟨16, 4⟩, b.mode.toNat), (⟨20, 4⟩, b.vendor.toNat), (⟨24, 4⟩, b.peripheralId.toNat),
    (⟨28, 4⟩, code.toNat)]

def extFields : Ext → List (Field × Nat)
  | .dma alignment sgLenBit => [(⟨0, 8⟩, (flag alignment).toNat), (⟨8, 8⟩, sgLenBit.toNat)]
  | .mem memSize memType => [(⟨0, 16⟩, memSize.toNat), (⟨16, 4⟩, memType.toNat)]
  | .peri => []

theorem stacked_project (t : Table) : Stacked 32 ((projectFields t).map Prod.fst) :=
  stacked_layouts projectLayout (by decide)

theorem stacked_base (b : Base) (code : BitVec 4) :
    Stacked 32 ((baseFields b code).map Prod.fst) :=
  stacked_layouts baseLayout (by decide)

theorem stacked_ext (e : Ext) : Stacked 32 ((extFields e).map Prod.fst) := by
  cases e with
  | dma alignment sgLenBit => exact stacked_layouts dmaLayout (by decide)
  | mem memSize memType => exact stacked_layouts memLayout (by decide)
  | peri => exact ⟨List.Pairwise.nil, fun f hf => absurd hf List.not_mem_nil⟩

theorem fit_project (t : Table) : Fit (projectFields t) := by
  simp only [Fit, projectFields, List.forall_mem_cons]
  exact ⟨BitVec.isLt _, BitVec.isLt _, BitVec.isLt _, BitVec.isLt _, by simp⟩

theorem fit_base (b : Base) (code : BitVec 4) : Fit (baseFields b code) := by
  simp only [Fit, baseFields, List.forall_mem_cons]
  exact ⟨BitVec.isLt _, BitVec.isLt _, BitVec.isLt _, BitVec.isLt _, BitVec.isLt _, BitVec.isLt _,
    BitVec.isLt _, by simp⟩

theorem fit_ext (e : Ext) : Fit (extFields e) := by
  cases e with
  | dma alignment sgLenBit =>
    simp only [Fit, extFields, List.forall_mem_cons]
    exact ⟨BitVec.isLt _, BitVec.isLt _, by simp⟩
  | mem memSize memType =>
    simp only [Fit, extFields, List.forall_mem_cons]
    exact ⟨BitVec.isLt _, BitVec.isLt _, by simp⟩
  | peri => exact fun p hp => absurd hp List.not_mem_nil

/-! ## The sums -/

variable {c : Conversions} {cfg : ConfigParser} {sec : String}

/-- **The first word of an entry.** -/
theorem baseInfo_eq {b : Base} (h : BaseOf c cfg sec b) (code : BitVec 4) :
    baseInfo c cfg code.toNat sec = .ok (pack (baseFields b code)) := by
  unfold baseInfo
  rw [h.pciBarId, h.majorVersion, h.minorVersion, h.mode, h.vendor, h.peripheralId]
  show Except.ok _ = Except.ok _
  rw [land_mask b.pciBarId 0xF rfl, land_mask_shift b.majorVersion 8 0x1F rfl,
    land_mask_shift b.minorVersion 13 0x7 rfl, land_mask_shift b.mode 16 0xF rfl,
    land_mask_shift b.vendor 20 0xF rfl, land_mask_shift b.peripheralId 24 0xF rfl,
    land_mask_shift code 28 0xF rfl]
  refine congrArg _ ?_
  simp only [baseFields, pack]
  omega

theorem dmaExtInfo_eq {e : Ext} (h : DmaExt c cfg sec e) :
    dmaExtInfo c cfg sec = .ok (pack (extFields e)) ∧ e.code = 1 := by
  obtain ⟨alignment, sgLenBit, rfl, halignment, hsg⟩ := h
  refine ⟨?_, rfl⟩
  have hflag : (if alignment then 1 else 0 : Int) = ((flag alignment).toNat : Int) := by
    cases alignment <;> rfl
  unfold dmaExtInfo
  rw [halignment, hsg]
  show Except.ok _ = Except.ok _
  rw [hflag, land_mask (flag alignment) 0xFF rfl, land_mask_shift sgLenBit 8 0xFF rfl]
  refine congrArg _ ?_
  simp only [extFields, pack]
  omega

theorem memExtInfo_eq {e : Ext} (h : MemExt c cfg sec e) :
    memExtInfo c cfg sec = .ok (pack (extFields e)) ∧ e.code = 2 := by
  obtain ⟨memSize, memType, rfl, hsize, htype⟩ := h
  refine ⟨?_, rfl⟩
  unfold memExtInfo
  rw [hsize, htype]
  show Except.ok _ = Except.ok _
  rw [land_mask memSize 0xFFFF rfl, land_mask_shift memType 16 0xF rfl]
  refine congrArg _ ?_
  simp only [extFields, pack]
  omega

theorem periExtInfo_eq {e : Ext} (h : PeriExt sec e) :
    periExtInfo sec = .ok (pack (extFields e)) ∧ e.code = 3 := by
  cases h
  exact ⟨rfl, rfl⟩

/-- **The word about the project.** -/
theorem projInfo_eq {t : Table} (h : TableOf c cfg t) :
    projInfo c cfg = .ok (pack (projectFields t)) := by
  obtain ⟨dmas, mems, peris, hsplit, hdmas, hmems, hperis⟩ := h.entries
  have hcount : (dmaSecs cfg).length + (memSecs cfg).length + (periSecs cfg).length
      = t.numSubsecs.toNat := by
    rw [h.numSubsecs, hsplit, hdmas.length_eq, hmems.length_eq, hperis.length_eq,
      List.length_append, List.length_append]
  unfold projInfo
  rw [h.projectId, h.majorVersion, h.minorVersion, hcount]
  show Except.ok _ = Except.ok _
  rw [land_mask t.projectId 0xFFFF rfl, land_mask_shift t.majorVersion 16 0xF rfl,
    land_mask_shift t.minorVersion 20 0xF rfl, land_mask_shift t.numSubsecs 24 0xFF rfl]
  refine congrArg _ ?_
  simp only [projectFields, pack]
  omega

/-! ## The words of an entry -/

/-- The four words. -/
def entryWords (e : Entry) : List Nat :=
  [pack (baseFields e.base e.ext.code), pack (extFields e.ext), e.lowerOffset.toNat,
    e.upperOffset.toNat]

theorem entryWords_lt (e : Entry) : ∀ n ∈ entryWords e, n < 2 ^ 32 := by
  simp only [entryWords, List.forall_mem_cons]
  exact ⟨pack_lt (stacked_base _ _) (fit_base _ _), pack_lt (stacked_ext _) (fit_ext _),
    BitVec.isLt _, BitVec.isLt _, by simp⟩

/-- A field of the first word. -/
theorem extract_base {b : Base} {code : BitVec 4} {lo w : Nat} {x : BitVec w}
    (h : (⟨lo, w⟩, x.toNat) ∈ baseFields b code) :
    (BitVec.ofNat 32 (pack (baseFields b code))).extractLsb' lo w = x :=
  extract_pack (stacked_base b code) (fit_base b code) h

/-- A field of the second word. -/
theorem extract_ext {e : Ext} {lo w : Nat} {x : BitVec w} (h : (⟨lo, w⟩, x.toNat) ∈ extFields e) :
    (BitVec.ofNat 32 (pack (extFields e))).extractLsb' lo w = x :=
  extract_pack (stacked_ext e) (fit_ext e) h

theorem decodeBase_pack (b : Base) (code : BitVec 4) :
    decodeBase (BitVec.ofNat 32 (pack (baseFields b code))) = b := by
  unfold decodeBase
  rw [extract_base (x := b.pciBarId) (by simp [baseFields]),
    extract_base (x := b.majorVersion) (by simp [baseFields]),
    extract_base (x := b.minorVersion) (by simp [baseFields]),
    extract_base (x := b.mode) (by simp [baseFields]),
    extract_base (x := b.vendor) (by simp [baseFields]),
    extract_base (x := b.peripheralId) (by simp [baseFields])]

theorem flag_bne (b : Bool) : (flag b != 0#8) = b := by cases b <;> rfl

/-- The kind is read first, then what the kind has. -/
theorem decodeExt_pack (b : Base) (e : Ext) :
    decodeExt (BitVec.ofNat 32 (pack (baseFields b e.code))) (BitVec.ofNat 32 (pack (extFields e)))
      = some e := by
  have hcode : (BitVec.ofNat 32 (pack (baseFields b e.code))).extractLsb' 28 4 = e.code :=
    extract_base (by simp [baseFields])
  unfold decodeExt
  rw [hcode]
  cases e with
  | dma alignment sgLenBit =>
    rw [extract_ext (x := flag alignment) (by simp [extFields]),
      extract_ext (x := sgLenBit) (by simp [extFields]), flag_bne]
    rfl
  | mem memSize memType =>
    rw [extract_ext (x := memSize) (by simp [extFields]),
      extract_ext (x := memType) (by simp [extFields])]
    rfl
  | peri => rfl

/-- **The words of an entry are decoded to it.** -/
theorem decodeEntries_entryWords (e : Entry) (ws : List (BitVec 32)) :
    decodeEntries ((entryWords e).map (BitVec.ofNat 32) ++ ws)
      = (decodeEntries ws).map fun es => e :: es := by
  have hword : ∀ x : BitVec 32, BitVec.ofNat 32 x.toNat = x := fun x => by simp
  show (decodeExt (BitVec.ofNat 32 (pack (baseFields e.base e.ext.code)))
    (BitVec.ofNat 32 (pack (extFields e.ext)))).bind _ = _
  rw [decodeExt_pack, Option.bind_some, decodeBase_pack, hword, hword]
  rfl

theorem decodeEntries_flatMap (es : List Entry) :
    decodeEntries ((es.flatMap entryWords).map (BitVec.ofNat 32)) = some es := by
  induction es with
  | nil => rfl
  | cons e es ih =>
    rw [List.flatMap_cons, List.map_append, decodeEntries_entryWords, ih, Option.map_some]

/-! ## The words of a table -/

def tableWords (t : Table) : List Nat :=
  0x4D504153 :: 0x0000434F :: pack (projectFields t) :: 0 :: t.entries.flatMap entryWords

theorem tableWords_lt (t : Table) : ∀ n ∈ tableWords t, n < 2 ^ 32 := by
  simp only [tableWords, List.forall_mem_cons]
  refine ⟨by decide, by decide, pack_lt (stacked_project t) (fit_project t), by decide, ?_⟩
  intro n hn
  obtain ⟨e, _, hn⟩ := List.mem_flatMap.mp hn
  exact entryWords_lt e n hn

/-- A field of the word about the project. -/
theorem extract_project {t : Table} {lo w : Nat} {x : BitVec w}
    (h : (⟨lo, w⟩, x.toNat) ∈ projectFields t) :
    (BitVec.ofNat 32 (pack (projectFields t))).extractLsb' lo w = x :=
  extract_pack (stacked_project t) (fit_project t) h

/-- **The words of a table are decoded to it.** -/
theorem decodeTable_tableWords (t : Table) :
    decodeTable ((tableWords t).map (BitVec.ofNat 32)) = some t := by
  unfold tableWords
  rw [List.map_cons, List.map_cons, List.map_cons, List.map_cons, decodeTable,
    if_pos ⟨rfl, rfl, rfl⟩, decodeEntries_flatMap, Option.map_some,
    extract_project (x := t.projectId) (by simp [projectFields]),
    extract_project (x := t.majorVersion) (by simp [projectFields]),
    extract_project (x := t.minorVersion) (by simp [projectFields]),
    extract_project (x := t.numSubsecs) (by simp [projectFields])]

end QemuHdlSim.HwTable
