import Mathlib.Data.Int.Bitwise
import QemuHdlSim.Infra.Text

/-!
# The generator of the hardware table (`hw_table_config_parser.py`)

It reads `hw_config.ini` and writes `hwtab.coe`: four words about the project, then four for each
section whose name starts with `dma`, `mem` or `peri`. The model is over the object that
`configparser` has made of the file, and over what Python makes of the text of an option.
-/

namespace QemuHdlSim.HwTable

open Infra

/-- A `ConfigParser`. -/
structure ConfigParser where
  /-- `sections()`, in the order of the file. -/
  sections : List String
  /-- The parser refuses a file in which a section comes twice. -/
  nodup : sections.Nodup
  /-- The text of an option of a section, `none` when there is none. -/
  get : String → String → Option String

/-- What Python makes of the text of an option; `none` is a `ValueError`. -/
structure Conversions where
  /-- `int(_)` -/
  int : String → Option Int
  /-- `int(_, 16)` -/
  int16 : String → Option Int
  /-- What `getboolean` makes of it. -/
  boolean : String → Option Bool

/-- How the program does not come to its end. -/
inductive PyError where
  | keyError (option : String)
  | noOptionError (option : String) (section_ : String)
  | valueError (text : String)
  /-- `exit()`, after it has printed the text. -/
  | exit (text : String)
  deriving DecidableEq, Repr

/-- `intIn32Hex`: the digits of `a`, with zeros in front of them and behind the sign. -/
def intIn32Hex (a : Int) (with0x : Bool := false) : Text :=
  let digits := Nat.toDigits 16 a.natAbs
  let sign : Text := if a < 0 then ['-'] else []
  let mark : Text := if with0x then ['0', 'x'] else []
  let width := if with0x then 10 else 8
  sign ++ mark ++ List.replicate (width - (sign ++ mark ++ digits).length) '0' ++ digits

/-! ## The sections -/

/-- `sec.startswith(start)` -/
def startsWith (start sec : String) : Bool := start.toList.isPrefixOf sec.toList

variable (c : Conversions) (cfg : ConfigParser)

def dmaSecs : List String := cfg.sections.filter (startsWith "dma")

def memSecs : List String := cfg.sections.filter (startsWith "mem")

def periSecs : List String := cfg.sections.filter (startsWith "peri")

/-- A conversion of the text of an option. -/
def convert {α : Type} (conv : String → Option α) (text : String) : Except PyError α :=
  match conv text with
  | none => .error (.valueError text)
  | some v => .ok v

/-- `int(config_file[sec][option])` -/
def int (sec option : String) : Except PyError Int :=
  match cfg.get sec option with
  | none => .error (.keyError option)
  | some text => convert c.int text

/-- `int(config_file[sec][option], 16)` -/
def int16 (sec option : String) : Except PyError Int :=
  match cfg.get sec option with
  | none => .error (.keyError option)
  | some text => convert c.int16 text

/-- `config_file.getboolean(sec, option)` -/
def getboolean (sec option : String) : Except PyError Bool :=
  match cfg.get sec option with
  | none => .error (.noOptionError option sec)
  | some text => convert c.boolean text

/-! ## The words -/

/-- `proj_info` -/
def projInfo : Except PyError Int := do
  let numSubsecs := (dmaSecs cfg).length + (memSecs cfg).length + (periSecs cfg).length
  let projectId ← int16 c cfg "project" "project_id"
  let majorVersion ← int c cfg "project" "major_version"
  let minorVersion ← int c cfg "project" "minor_version"
  return Int.land projectId 0xFFFF + Int.land majorVersion 0xF <<< (16 : Nat)
    + Int.land minorVersion 0xF <<< (20 : Nat) + Int.land numSubsecs 0xFF <<< (24 : Nat)

/-- The first word of an entry, whose kind is `code`. -/
def baseInfo (code : Int) (sec : String) : Except PyError Int := do
  let pciBarId ← int c cfg sec "pci_bar_id"
  let majorVersion ← int c cfg sec "major_version"
  let minorVersion ← int c cfg sec "minor_version"
  let mode ← int c cfg sec "mode"
  let vendor ← int c cfg sec "vendor"
  let peripheralId ← int c cfg sec "peripheral_id"
  return Int.land pciBarId 0xF + Int.land majorVersion 0x1F <<< (8 : Nat)
    + Int.land minorVersion 0x7 <<< (13 : Nat) + Int.land mode 0xF <<< (16 : Nat)
    + Int.land vendor 0xF <<< (20 : Nat) + Int.land peripheralId 0xF <<< (24 : Nat)
    + Int.land code 0xF <<< (28 : Nat)

def dmaBaseInfo (dma : String) : Except PyError Int := baseInfo c cfg 1 dma

def memBaseInfo (mem : String) : Except PyError Int := baseInfo c cfg 2 mem

def periBaseInfo (peri : String) : Except PyError Int := baseInfo c cfg 3 peri

def dmaExtInfo (dma : String) : Except PyError Int := do
  let alignment ← getboolean c cfg dma "alignment"
  let sgLenBit ← int c cfg dma "sg_len_bit"
  return Int.land (if alignment then 1 else 0) 0xFF + Int.land sgLenBit 0xFF <<< (8 : Nat)

def memExtInfo (mem : String) : Except PyError Int := do
  let memSize ← int c cfg mem "mem_size"
  let memType ← int c cfg mem "mem_type"
  return Int.land memSize 0xFFFF + Int.land memType 0xF <<< (16 : Nat)

/-- The second word of a `peri` section is 0. -/
def periExtInfo (_peri : String) : Except PyError Int := return 0

/-! ## The file -/

/-- What one `write` of a word writes. -/
structure Line where
  word : Text
  /-- What is written behind it. -/
  stop : Text

def Line.text (l : Line) : Text := l.word ++ l.stop

/-- `intIn32Hex(a) + ",\n"` -/
def comma (a : Int) : Line := ⟨intIn32Hex a, [',', '\n']⟩

/-- `intIn32Hex(a) + "\n"` -/
def newline (a : Int) : Line := ⟨intIn32Hex a, ['\n']⟩

/-- The four lines of an entry; `last` writes the fourth. -/
def entryLines (base ext : String → Except PyError Int) (last : Int → Line) (sec : String) :
    Except PyError (List Line) := do
  let baseInfo ← base sec
  let extInfo ← ext sec
  let lowerOffset ← int16 c cfg sec "lower_offset"
  let upperOffset ← int16 c cfg sec "upper_offset"
  return [comma baseInfo, comma extInfo, comma lowerOffset, last upperOffset]

def dmaLines (dma : String) : Except PyError (List Line) :=
  entryLines c cfg (dmaBaseInfo c cfg) (dmaExtInfo c cfg) comma dma

def memLines (mem : String) : Except PyError (List Line) :=
  entryLines c cfg (memBaseInfo c cfg) (memExtInfo c cfg) comma mem

/-- Only this loop asks whether the section is the last one of its kind. -/
def periLines (peri : String × Nat) : Except PyError (List Line) :=
  entryLines c cfg (periBaseInfo c cfg) periExtInfo
    (if peri.2 + 1 = (periSecs cfg).length then newline else comma) peri.1

/-- `compas_id_lower`, `compas_id_upper`, `proj_info` and 0. -/
def headerLines (info : Int) : List Line :=
  [comma 0x4D504153, comma 0x0000434F, comma info, comma 0]

/-- All the lines with a word. -/
def tableLines : Except PyError (List Line) := do
  let info ← projInfo c cfg
  let dmas ← (dmaSecs cfg).mapM (dmaLines c cfg)
  let mems ← (memSecs cfg).mapM (memLines c cfg)
  let peris ← (periSecs cfg).zipIdx.mapM (periLines c cfg)
  return headerLines info ++ dmas.flatten ++ mems.flatten ++ peris.flatten

/-- What is written in front of the words. -/
def preamble : Text :=
  "memory_initialization_radix=16;\nmemory_initialization_vector=\n".toList

/-- The text of `hwtab.coe`; a run that raises leaves a part of it, which is not kept here. -/
def hwtabCoe : Except PyError Text :=
  if "project" ∈ cfg.sections then
    (tableLines c cfg).map fun ls => preamble ++ ls.flatMap Line.text
  else .error (.exit "Error! No [project] section found in the config file")

end QemuHdlSim.HwTable
