import SPHomework.Lib.Scanf
import SPHomework.Lib.Text
import SPHomework.Threads.Reads
import SPHomework.Tournament.Fight

set_option autoImplicit false

/-!
# The status file

Every program reads all of `player_status.txt` before anything else. A file with
eight lines gives the table that was written, however the lines are laid out.
-/

namespace SPHomework.Tournament

open Lib
open Threads (int32 strtolTen)

-- `"%d %d %s %c %d"`
def statusFormat : List Directive :=
  [.item .numeral, .space, .item .numeral, .space, .item (.word none), .space, .item .byte, .space, .item .numeral]

def character (byte : UInt8) : Char := Char.ofNat byte.toNat

def bufSize : Nat := 10

/-- The `fscanf` of a player. Without the five items a field is read before it has a value, and a longer
word runs over `buf`. -/
def readRow (input : List UInt8) : Option (Row × List UInt8) :=
  match scanf statusFormat input with
  | ([hp, atk, buf, currentBattleId, battleEndedFlag], rest) =>
    if buf.length < bufSize then
      some ({
        hp := int32 (strtolTen hp)
        atk := int32 (strtolTen atk)
        buf := (cString buf).map character
        currentBattleId := character (currentBattleId.headD 0)
        battleEndedFlag := int32 (strtolTen battleEndedFlag) }, rest)
    else none
  | _ => none

def readTable (file : List UInt8) : Option Table :=
  (readMany readRow 8 file).bind fun read =>
    if full : read.1.length = 8 then some fun i => read.1.get (i.cast full.symm) else none

-- A number as it is written.
structure Number where
  digits : CStr
  decimal : IsDecimal digits
  inRange : -2147483648 ≤ integerValue digits ∧ integerValue digits ≤ 2147483647

/-- A player as it is written to the file. -/
structure StatusLine where
  hp : Number
  afterHp : Gap
  atk : Number
  afterAtk : Gap
  buf : CStr
  afterBuf : Gap
  currentBattleId : UInt8
  afterId : Gap
  battleEndedFlag : Number
  word : IsWord buf
  string : 0 ∉ buf
  short : buf.length < bufSize
  seen : isSpace currentBattleId = false

/-- The file: eight lines, with blanks in between. -/
structure StatusFile where
  start : List UInt8
  first : StatusLine
  rest : List (Gap × StatusLine)
  stop : List UInt8
  blank : Blank start
  eight : rest.length = 7
  blank' : Blank stop

namespace StatusLine

variable (line : StatusLine)

def text : List UInt8 :=
  line.hp.digits ++ (line.afterHp.blanks ++ (line.atk.digits ++ (line.afterAtk.blanks ++ (line.buf ++
    (line.afterBuf.blanks ++ (line.currentBattleId :: (line.afterId.blanks ++ line.battleEndedFlag.digits)))))))

def row : Row where
  hp := integerValue line.hp.digits
  atk := integerValue line.atk.digits
  buf := line.buf.map character
  currentBattleId := character line.currentBattleId
  battleEndedFlag := integerValue line.battleEndedFlag.digits

end StatusLine

namespace StatusFile

variable (file : StatusFile)

def text : List UInt8 :=
  file.start ++ (file.first.text ++ (file.rest.flatMap (fun line => line.1.blanks ++ line.2.text) ++ file.stop))

def rows : List Row := file.first.row :: file.rest.map fun line => line.2.row

theorem rows_length : file.rows.length = 8 := by
  rw [rows, List.length_cons, List.length_map, file.eight]

def table : Table := fun i => file.rows.get (i.cast file.rows_length.symm)

end StatusFile

theorem Number.value (number : Number) : int32 (strtolTen number.digits) = integerValue number.digits := by
  rw [Threads.strtolTen_decimal number.digits number.decimal number.inRange]
  exact Threads.int32_eq number.inRange.1 number.inRange.2

theorem StatusLine.scanned (line : StatusLine) (blanks after : List UInt8) (blank : Blank blanks)
    (ahead : BlankAhead after) : scanf statusFormat (blanks ++ (line.text ++ after)) =
      ([line.hp.digits, line.atk.digits, line.buf, [line.currentBattleId], line.battleEndedFlag.digits], after) := by
  simp only [StatusLine.text, List.append_assoc, List.cons_append, statusFormat]
  rw [scanf_numeral _ _ _ _ blank line.hp.decimal (line.afterHp.ahead _), scanf_space_item _ _ (by decide),
    scanf_numeral _ _ _ _ line.afterHp.blank line.atk.decimal (line.afterAtk.ahead _),
    scanf_space_item _ _ (by decide),
    scanf_word _ _ _ _ _ line.afterAtk.blank line.word (by simp) (line.afterBuf.ahead _),
    scanf_space_byte _ _ _ _ line.afterBuf.blank line.seen, scanf_space_item _ _ (by decide),
    scanf_numeral _ _ _ _ line.afterId.blank line.battleEndedFlag.decimal ahead]
  rfl

theorem StatusLine.read (line : StatusLine) (blanks after : List UInt8) (blank : Blank blanks)
    (ahead : BlankAhead after) : readRow (blanks ++ (line.text ++ after)) = some (line.row, after) := by
  simp only [readRow, line.scanned blanks after blank ahead, if_pos line.short, Number.value,
    cString_whole line.buf line.string]
  rfl

theorem readTable_rows (file : List UInt8) (rows : List Row) (rest : List UInt8) (full : rows.length = 8)
    (read : readMany readRow 8 file = some (rows, rest)) :
    readTable file = some fun i => rows.get (i.cast full.symm) := by
  rw [readTable, read]
  exact dif_pos full

/-- A file that was written with eight lines gives back its table. -/
theorem readTable_text (file : StatusFile) : readTable file.text = some file.table := by
  have ahead : BlankAhead (file.rest.flatMap (fun line => line.1.blanks ++ line.2.text) ++ file.stop) := by
    cases file.rest with
    | nil => exact file.blank'.ahead
    | cons line rest =>
      rw [List.flatMap_cons, List.append_assoc, List.append_assoc]
      exact line.1.ahead _
  have others := readMany_written readRow (fun line : Gap × StatusLine => line.1.blanks ++ line.2.text)
    (fun line => line.2.row)
    (fun line after ahead => by
      rw [List.append_assoc]
      exact line.2.read line.1.blanks after line.1.blank ahead)
    (fun line after => by
      rw [List.append_assoc]
      exact line.1.ahead _)
    file.rest file.stop file.blank'.ahead
  rw [file.eight] at others
  have read : readMany readRow 8 file.text = some (file.rows, file.stop) := by
    rw [readMany, StatusFile.text, file.first.read file.start _ file.blank ahead]
    simp [others, StatusFile.rows]
  exact readTable_rows file.text file.rows file.stop file.rows_length read

end SPHomework.Tournament
