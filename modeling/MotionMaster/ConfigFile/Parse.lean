import Mathlib.Data.Nat.Digits.Defs
import MotionMaster.Device.Value
import MotionMaster.Lib.Lines

/-!
# Configuration files

`config.csv` as `parseConfigFile` reads it: comments, META lines, and rows of an index, a subindex
and a value. A META line counts only before the first row.
-/

namespace MotionMaster.Config

open Lines

abbrev Text := List (BitVec 8)

def byte (c : Char) : BitVec 8 := BitVec.ofNat 8 c.toNat

def ascii (s : String) : Text := s.toList.map byte

/-- A text inside a message. -/
def display (text : Text) : String := String.ofList (text.map fun c => Char.ofNat c.toNat)

def kLineFeed : BitVec 8 := 0x0A

def kCarriageReturn : BitVec 8 := 0x0D

/-- Space, tab, vertical tab and form feed. -/
def kWhiteSpace : Text := [0x20, 0x09, 0x0B, 0x0C]

def kByteOrderMark : Text := [0xEF, 0xBB, 0xBF]

def isWhite (c : BitVec 8) : Bool := kWhiteSpace.contains c

def trimLeft (text : Text) : Text := text.dropWhile isWhite

def trim (text : Text) : Text := (trimLeft text).rdropWhile isWhite

def splitFields (text : Text) : List Text := text.splitOn (byte ',')

/-! ### Numbers -/

def digitOf (base : ℕ) (c : BitVec 8) : Option ℕ :=
  let n := c.toNat
  let digit :=
    if 0x30 ≤ n ∧ n ≤ 0x39 then some (n - 0x30)
    else if 0x61 ≤ n ∧ n ≤ 0x7A then some (n - 0x61 + 10)
    else if 0x41 ≤ n ∧ n ≤ 0x5A then some (n - 0x41 + 10)
    else none
  digit.filter (· < base)

/-- `std::from_chars` that takes the whole text: digits, after a minus sign if the type is signed,
that denote a number of the type. -/
def parseWhole (t : Scalar) (base : ℕ) (text : Text) : Option Int :=
  let negative : Bool := t.IsSigned ∧ text.head? = some (byte '-')
  match (if negative then text.tail else text).mapM (digitOf base) with
  | none | some [] => none
  | some digits =>
    let magnitude := Nat.ofDigits base digits.reverse
    let value : Int := if negative then -magnitude else magnitude
    if t.lowest ≤ value ∧ value ≤ t.highest then some value else none

def parseIndex (text : Text) : Option (BitVec 16) :=
  let text := trim text
  let digits :=
    if ascii "0x" <+: text ∨ ascii "0X" <+: text then text.drop 2 else text
  (parseWhole .uint16 16 digits).map (BitVec.ofInt 16)

def parseSubindex (text : Text) : Option (BitVec 8) :=
  (parseWhole .uint8 10 (trim text)).map (BitVec.ofInt 8)

/-! ### Files -/

structure ConfigFileRow where
  /-- From 1 on. -/
  line : ℕ
  index : BitVec 16
  subindex : BitVec 8
  value : Text
  deriving DecidableEq

def ConfigFileRow.trimmedValue (row : ConfigFileRow) : Text := trim row.value

abbrev Address := BitVec 16 × BitVec 8

def ConfigFileRow.address (row : ConfigFileRow) : Address := (row.index, row.subindex)

structure ConfigFileProblem where
  line : ℕ
  message : String

structure ConfigFile where
  lines : List Text
  format : Int := 0
  comments : List Text := []
  rows : List ConfigFileRow := []
  problems : List ConfigFileProblem := []

inductive Scanned where
  | blank
  | comment (text : Text)
  /-- `META,FORMAT` and its number, if it has one. -/
  | declaration (format : Option Int)
  | unknownMeta
  | ignored (message : String)
  | row (index : BitVec 16) (subindex : BitVec 8) (value : Text)
  deriving DecidableEq

/-- Without the line feeds and carriage returns at the end. -/
def stripEnd (line : Text) : Text :=
  line.rdropWhile fun c => c = kLineFeed ∨ c = kCarriageReturn

def scanFields : List Text → Scanned
  | [index, subindex, value] =>
    match (parseIndex index).filter fun i => 0x1000 ≤ i.toNat with
    | none =>
      .ignored ("'" ++ display (trim index) ++
        "' is not an object index from 0x1000 to 0xFFFF; the drive ignores this line")
    | some i =>
      match parseSubindex subindex with
      | none => .ignored ("'" ++ display (trim subindex) ++ "' is not a subindex from 0 to 255")
      | some s => .row i s value
  | _ :: _ :: _ :: _ :: _ => .ignored "a value cannot hold a comma; the drive ignores this line"
  | _ => .ignored "a row needs an index, a subindex and a value; the drive ignores this line"

def scanMeta : List Text → Scanned
  | [_, kind, format] =>
    if trim kind = ascii "FORMAT" then .declaration (parseWhole .int32 10 (trim format))
    else .unknownMeta
  | _ => .unknownMeta

def scanLine (line : Text) : Scanned :=
  let line := stripEnd line
  if trim line = [] then .blank
  else if line.head? = some (byte '#') then
    let text := line.tail
    .comment (if text.head? = some (byte ' ') then text.tail else text)
  else
    -- A '#' ends the line, so a value cannot hold one.
    let fields := splitFields (line.takeWhile (· ≠ byte '#'))
    if fields.head? = some (ascii "META") then scanMeta fields else scanFields fields

/-- A byte order mark is taken off the first line only. -/
def stripMark (line : Text) : Text :=
  if kByteOrderMark <+: line then line.drop kByteOrderMark.length else line

/-- Adds what line `number` is. The rows have started once there is one. -/
def addScanned (number : ℕ) (scanned : Scanned) (file : ConfigFile) : ConfigFile :=
  match scanned with
  | .blank => file
  | .comment text => { file with comments := file.comments ++ [text] }
  | .declaration format =>
    if file.rows ≠ [] then
      { file with problems := file.problems ++
          [⟨number, "a META line after the first row; the drive ignores this line"⟩] }
    else
      match format with
      | some format => { file with format := format }
      | none =>
        { file with problems := file.problems ++
            [⟨number, "META,FORMAT has no whole number; the drive reads 0"⟩] }
  | .unknownMeta =>
    { file with problems := file.problems ++
        [⟨number, if file.rows ≠ [] then
          "a META line after the first row; the drive ignores this line"
          else "an unknown META line; the drive ignores this line"⟩] }
  | .ignored message => { file with problems := file.problems ++ [⟨number, message⟩] }
  | .row index subindex value =>
    { file with rows := file.rows ++ [⟨number, index, subindex, value⟩] }

def scan : List Text → List Scanned
  | [] => []
  | first :: rest => scanLine (stripMark first) :: rest.map scanLine

def addAll : ℕ → List Scanned → ConfigFile → ConfigFile
  | _, [], file => file
  | number, scanned :: rest, file => addAll (number + 1) rest (addScanned number scanned file)

def parseConfigFile (text : Text) : ConfigFile :=
  let ls := lines kLineFeed text
  addAll 1 (scan ls) { lines := ls }

def writeConfigFile (file : ConfigFile) : Text := file.lines.flatten

/-- The lower-case digit of `std::format`. -/
def hexDigit (d : ℕ) : BitVec 8 := BitVec.ofNat 8 (if d < 10 then 0x30 + d else 0x61 + (d - 10))

/-- `{:04x}` of a 16-bit number. -/
def hexText (index : BitVec 16) : Text :=
  [3, 2, 1, 0].map fun k => hexDigit (index.toNat / 16 ^ k % 16)

/-- `{:2d}` of an 8-bit number. -/
def decimalText (subindex : BitVec 8) : Text :=
  let n := subindex.toNat
  if n < 10 then [byte ' ', hexDigit n]
  else if n < 100 then [hexDigit (n / 10), hexDigit (n % 10)]
  else [hexDigit (n / 100), hexDigit (n / 10 % 10), hexDigit (n % 10)]

def formatConfigFileRow (index : BitVec 16) (subindex : BitVec 8) (value : Text) : Text :=
  ascii "0x" ++ hexText index ++ ascii ", " ++ decimalText subindex ++ ascii ",  " ++ value ++
    [kLineFeed]

/-- The lines that are not rows at other addresses than those to keep. -/
def keptLines (keep : List Address) (file : ConfigFile) : List Text :=
  (file.lines.zipIdx 1).filterMap fun (line, number) =>
    if file.rows.any fun row => row.line = number ∧ row.address ∉ keep then none else some line

def selectConfigFileRows (file : ConfigFile) (keep : List Address) : ConfigFile :=
  parseConfigFile (keptLines keep file).flatten

def linesAt (base : ConfigFile) (address : Address) : List ℕ :=
  (base.rows.filter fun row => row.address = address).map fun row => row.line - 1

/-- The rows of the update, put into the lines of the base or added after them. -/
def mergeRows (base : ConfigFile) : List ConfigFileRow → List Text × Text → List Text × Text
  | [], merged => merged
  | row :: rows, (ls, added) =>
    let formatted := formatConfigFileRow row.index row.subindex row.trimmedValue
    mergeRows base rows <|
      if linesAt base row.address = [] then (ls, added ++ formatted)
      else ((linesAt base row.address).foldl (fun ls i => ls.set i formatted) ls, added)

def mergeConfigFiles (base update : ConfigFile) : ConfigFile :=
  let merged := mergeRows base update.rows (base.lines, [])
  let text := merged.1.flatten
  let text :=
    if merged.2 ≠ [] ∧ text ≠ [] ∧ text.getLast? ≠ some kLineFeed then text ++ [kLineFeed] else text
  parseConfigFile (text ++ merged.2)

end MotionMaster.Config
