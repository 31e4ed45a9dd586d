import QemuHdlSim.HwTable.Config

/-!
# The layout of the hardware table

What the words of `hwtab.coe` stand for, read by their layout, and what `hw_config.ini` says. A
field of a table is as wide as its field in the word.
-/

namespace QemuHdlSim.HwTable

open Infra

/-- What every entry has in its first word, besides its kind. -/
structure Base where
  pciBarId : BitVec 4
  majorVersion : BitVec 5
  minorVersion : BitVec 3
  mode : BitVec 4
  vendor : BitVec 4
  peripheralId : BitVec 4
  deriving DecidableEq, Repr

/-- What an entry of each kind has in its second word. -/
inductive Ext where
  | dma (alignment : Bool) (sgLenBit : BitVec 8)
  | mem (memSize : BitVec 16) (memType : BitVec 4)
  | peri
  deriving DecidableEq, Repr

structure Entry where
  base : Base
  ext : Ext
  lowerOffset : BitVec 32
  upperOffset : BitVec 32
  deriving DecidableEq, Repr

structure Table where
  projectId : BitVec 16
  majorVersion : BitVec 4
  minorVersion : BitVec 4
  numSubsecs : BitVec 8
  entries : List Entry
  deriving DecidableEq, Repr

/-! ## Reading the words -/

/-- A word is eight digits. -/
def readWord (t : Text) : Option (BitVec 32) :=
  if t.length = 8 then (hexNat? t).map (BitVec.ofNat 32) else none

def decodeBase (w : BitVec 32) : Base where
  pciBarId := w.extractLsb' 0 4
  majorVersion := w.extractLsb' 8 5
  minorVersion := w.extractLsb' 13 3
  mode := w.extractLsb' 16 4
  vendor := w.extractLsb' 20 4
  peripheralId := w.extractLsb' 24 4

/-- The second word of an entry whose first is `w`, by the kind of it. -/
def decodeExt (w x : BitVec 32) : Option Ext :=
  if w.extractLsb' 28 4 = 1#4 then some (.dma (x.extractLsb' 0 8 != 0#8) (x.extractLsb' 8 8))
  else if w.extractLsb' 28 4 = 2#4 then some (.mem (x.extractLsb' 0 16) (x.extractLsb' 16 4))
  else if w.extractLsb' 28 4 = 3#4 then some .peri
  else none

/-- Four words for each entry. -/
def decodeEntries : List (BitVec 32) → Option (List Entry)
  | [] => some []
  | w :: x :: lower :: upper :: ws =>
    (decodeExt w x).bind fun e =>
      (decodeEntries ws).map fun es => ⟨decodeBase w, e, lower, upper⟩ :: es
  | _ => none

/-- Four words about the project, and the entries. -/
def decodeTable : List (BitVec 32) → Option Table
  | idLower :: idUpper :: info :: zero :: ws =>
    if idLower = 0x4D504153#32 ∧ idUpper = 0x434F#32 ∧ zero = 0#32 then
      (decodeEntries ws).map fun es =>
        { projectId := info.extractLsb' 0 16
          majorVersion := info.extractLsb' 16 4
          minorVersion := info.extractLsb' 20 4
          numSubsecs := info.extractLsb' 24 8
          entries := es }
    else none
  | _ => none

/-- What stands between two words. -/
def isStop (ch : Char) : Bool := ch == ',' || ch == '\n'

/-- The words of a file. -/
def words (text : Text) : List Text := tokens isStop (text.drop preamble.length)

/-- The table a file stands for. -/
def decodeCoe (text : Text) : Option Table :=
  if preamble <+: text then ((words text).mapM readWord).bind decodeTable else none

/-! ## What the configuration says -/

variable (c : Conversions) (cfg : ConfigParser)

/-- The section has the value of `x` under `option`. -/
def Has {w : Nat} (sec option : String) (x : BitVec w) : Prop := int c cfg sec option = .ok x.toNat

/-- The same, of an option in base 16. -/
def Has16 {w : Nat} (sec option : String) (x : BitVec w) : Prop :=
  int16 c cfg sec option = .ok x.toNat

structure BaseOf (sec : String) (b : Base) : Prop where
  pciBarId : Has c cfg sec "pci_bar_id" b.pciBarId
  majorVersion : Has c cfg sec "major_version" b.majorVersion
  minorVersion : Has c cfg sec "minor_version" b.minorVersion
  mode : Has c cfg sec "mode" b.mode
  vendor : Has c cfg sec "vendor" b.vendor
  peripheralId : Has c cfg sec "peripheral_id" b.peripheralId

def DmaExt (sec : String) (e : Ext) : Prop :=
  ∃ alignment sgLenBit, e = .dma alignment sgLenBit ∧
    getboolean c cfg sec "alignment" = .ok alignment ∧ Has c cfg sec "sg_len_bit" sgLenBit

def MemExt (sec : String) (e : Ext) : Prop :=
  ∃ memSize memType, e = .mem memSize memType ∧
    Has c cfg sec "mem_size" memSize ∧ Has c cfg sec "mem_type" memType

def PeriExt (_sec : String) (e : Ext) : Prop := e = .peri

/-- The section is that of the entry. -/
structure EntryOf (ExtOf : String → Ext → Prop) (sec : String) (e : Entry) : Prop where
  base : BaseOf c cfg sec e.base
  ext : ExtOf sec e.ext
  lowerOffset : Has16 c cfg sec "lower_offset" e.lowerOffset
  upperOffset : Has16 c cfg sec "upper_offset" e.upperOffset

/-- The entries are the sections: those of each kind, in the order of the file. -/
def EntriesOf (es : List Entry) : Prop :=
  ∃ dmas mems peris, es = dmas ++ mems ++ peris ∧
    List.Forall₂ (EntryOf c cfg (DmaExt c cfg)) (dmaSecs cfg) dmas ∧
    List.Forall₂ (EntryOf c cfg (MemExt c cfg)) (memSecs cfg) mems ∧
    List.Forall₂ (EntryOf c cfg PeriExt) (periSecs cfg) peris

/-- The configuration says what the table does. -/
structure TableOf (t : Table) : Prop where
  hasProject : "project" ∈ cfg.sections
  projectId : Has16 c cfg "project" "project_id" t.projectId
  majorVersion : Has c cfg "project" "major_version" t.majorVersion
  minorVersion : Has c cfg "project" "minor_version" t.minorVersion
  numSubsecs : t.numSubsecs.toNat = t.entries.length
  entries : EntriesOf c cfg t.entries

end QemuHdlSim.HwTable
