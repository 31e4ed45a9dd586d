import QemuHdlSim.HwTable.Config

/-!
# The conversions of Python

What `int` and `getboolean` make of a text of ASCII characters, and a `ConfigParser` with given
sections.
-/

namespace QemuHdlSim.HwTable

open Infra

/-- The white space that `int` leaves out around a number; `strip()` knows four more. -/
def isSpace (ch : Char) : Bool := ch == ' ' || (9 ≤ ch.toNat && ch.toNat ≤ 13)

/-- A text without the white space around it. -/
def trim (t : Text) : Text := ((t.dropWhile isSpace).reverse.dropWhile isSpace).reverse

/-- The value of a digit, of either case. -/
def digit? (base : Nat) (ch : Char) : Option Nat :=
  (List.range base).find? fun d => d.digitChar == ch || d.digitChar.toUpper == ch

/-- The digits behind those that stand for `n`; single underscores may stand between them. -/
def digitsFrom (base : Nat) : Nat → Text → Option Nat
  | n, [] => some n
  | n, '_' :: ch :: t => (digit? base ch).bind fun d => digitsFrom base (base * n + d) t
  | n, ch :: t => (digit? base ch).bind fun d => digitsFrom base (base * n + d) t

/-- A number has a digit at least. -/
def digits (base : Nat) : Text → Option Nat
  | [] => none
  | ch :: t => (digit? base ch).bind fun d => digitsFrom base d t

/-- A number without its sign; in base 16 it may begin with `0x`. -/
def magnitude (base : Nat) : Text → Option Nat
  | '0' :: x :: ch :: t =>
    if base = 16 ∧ (x = 'x' ∨ x = 'X') then digitsFrom base 0 (ch :: t)
    else digits base ('0' :: x :: ch :: t)
  | t => digits base t

/-- `int(_, base)`, for the bases 10 and 16. -/
def intOfText (base : Nat) (s : String) : Option Int :=
  match trim s.toList with
  | '-' :: t => (magnitude base t).map fun n => -(n : Int)
  | '+' :: t => (magnitude base t).map fun n => (n : Int)
  | t => (magnitude base t).map fun n => (n : Int)

/-- `BOOLEAN_STATES` -/
def booleanStates : List (String × Bool) :=
  [("1", true), ("yes", true), ("true", true), ("on", true),
    ("0", false), ("no", false), ("false", false), ("off", false)]

/-- The case does not matter. -/
def booleanOfText (s : String) : Option Bool :=
  (booleanStates.find? fun p => p.1.toList == s.toList.map Char.toLower).map Prod.snd

def python : Conversions where
  int := intOfText 10
  int16 := intOfText 16
  boolean := booleanOfText

/-- The parser of a file with the sections `data`. -/
def ConfigParser.ofSections (data : List (String × List (String × String)))
    (h : (data.map Prod.fst).Nodup) : ConfigParser where
  sections := data.map Prod.fst
  nodup := h
  get := fun sec option => (data.lookup sec).bind fun options => options.lookup option

example : intOfText 16 "0x0000_9000" = some 0x9000 := by decide
example : intOfText 10 " -12" = some (-12) := by decide
example : intOfText 10 "1__2" = none := by decide
example : intOfText 10 "\x1c12" = none := by decide
example : booleanOfText "Yes" = some true := by decide

end QemuHdlSim.HwTable
