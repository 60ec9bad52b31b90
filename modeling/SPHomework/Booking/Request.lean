import Mathlib.Algebra.Group.Basic
import Mathlib.Data.BitVec
import SPHomework.Lib.CString

set_option autoImplicit false

/-!
# Records, messages and what the server reads from a client

`int` is `CInt`: 32-bit two's complement. `bookingRecord` is a sequence of
16-byte records, and file positions are counted in records.
-/

namespace SPHomework.Booking

open Lib

abbrev CInt := BitVec 32

@[ext]
structure Counts where
  food : CInt
  concert : CInt
  electronics : CInt
  deriving DecidableEq

instance : Add Counts :=
  ⟨fun a b => ⟨a.food + b.food, a.concert + b.concert, a.electronics + b.electronics⟩⟩

instance : Zero Counts := ⟨⟨0, 0, 0⟩⟩

@[simp] theorem Counts.add_food (a b : Counts) : (a + b).food = a.food + b.food := rfl
@[simp] theorem Counts.add_concert (a b : Counts) : (a + b).concert = a.concert + b.concert := rfl
@[simp] theorem Counts.add_electronics (a b : Counts) :
    (a + b).electronics = a.electronics + b.electronics := rfl
@[simp] theorem Counts.zero_food : (0 : Counts).food = 0 := rfl
@[simp] theorem Counts.zero_concert : (0 : Counts).concert = 0 := rfl
@[simp] theorem Counts.zero_electronics : (0 : Counts).electronics = 0 := rfl

instance : AddCommMonoid Counts where
  add_assoc a b c := by ext1 <;> simp [add_assoc]
  zero_add a := by ext1 <;> simp
  add_zero a := by ext1 <;> simp
  add_comm a b := by ext1 <;> simp [add_comm]
  nsmul := nsmulRec

-- One `record` of the file, and the `read_buf[4]` it is read into.
structure Record where
  id : CInt
  counts : Counts
  deriving DecidableEq

-- What the server writes to a client, by the `sprintf` that makes it.
inductive Message where
  | enterId
  | bookings (counts : Counts)
  | prompt (counts : Counts)
  | locked
  | failed
  | tooMany
  | belowZero
  | updated (record : Record)
  deriving DecidableEq

def bookingLines (counts : Counts) : String :=
  "Food: " ++ toString counts.food.toInt ++ " booked\nConcert: " ++
    toString counts.concert.toInt ++ " booked\nElectronics: " ++
    toString counts.electronics.toInt ++ " booked\n"

def Message.text : Message → String
  | .enterId => "Please enter your id (to check your booking state):\n"
  | .bookings counts => bookingLines counts ++ "\n(Type Exit to leave...)\n"
  | .prompt counts => bookingLines counts ++
    "\nPlease input your booking command. (Food, Concert, Electronics. Positive/negative value increases/decreases the booking amount.):\n"
  | .locked => "Locked.\n"
  | .failed => "[Error] Operation failed. Please try again.\n"
  | .tooMany => "[Error] Sorry, but you cannot book more than 15 items in total.\n"
  | .belowZero => "[Error] Sorry, but you cannot book less than 0 items.\n"
  | .updated record =>
    "Bookings for user " ++ toString record.id.toInt ++
      " are updated, the new booking state is:\n" ++ bookingLines record.counts

structure Request where
  connFd : Int
  buf : List UInt8
  bufLen : Nat
  id : Nat
  stage : Nat

-- `init_request`; the buffer keeps its bytes.
def initRequest (request : Request) : Request :=
  { request with connFd := -1, bufLen := 0, id := 0, stage := 0 }

def freeRequest (request : Request) : Request := initRequest request

inductive Input where
  | failed
  | eof
  | chunk (bytes : List UInt8)
  deriving DecidableEq

/-- A chunk of at most 511 bytes leaves a NUL in the zeroed `buf[512]` that `strstr` scans. -/
def Input.Fits : Input → Prop
  | .failed => True
  | .eof => True
  | .chunk bytes => 0 < bytes.length ∧ bytes.length < 512

instance : (input : Input) → Decidable input.Fits
  | .failed => inferInstanceAs (Decidable True)
  | .eof => inferInstanceAs (Decidable True)
  | .chunk _ => inferInstanceAs (Decidable (_ ∧ _))

inductive Frame where
  | line (length : Nat)
  | interrupted
  | fatal
  deriving DecidableEq

def crlf : CStr := [13, 10]

def lf : CStr := [10]

def iacIp : CStr := [0xff, 0xf4]

def frame (bytes : List UInt8) : Frame :=
  match (strstr (cString bytes) crlf).orElse fun _ => strstr (cString bytes) lf with
  | some length => .line length
  | none => if (cString bytes).take 2 = iacIp then .interrupted else .fatal

-- `memmove(reqP->buf, buf, len); reqP->buf[len - 1] = '\0';`
def Request.fill (request : Request) (bytes : List UInt8) (length : Nat) : Request :=
  { request with
    buf := bytes.take length ++ 0 :: request.buf.drop (length + 1)
    bufLen := length }

theorem frame_position {bytes : List UInt8} {length : Nat} (framed : frame bytes = .line length) :
    strstr (cString bytes) crlf = some length ∨
      strstr (cString bytes) crlf = none ∧ strstr (cString bytes) lf = some length := by
  unfold frame at framed
  split at framed
  · rename_i position found
    obtain rfl := Frame.line.inj framed
    rcases ends : strstr (cString bytes) crlf with _ | first
    · rw [ends] at found
      exact .inr ⟨rfl, found⟩
    · rw [ends] at found
      exact .inl found
  · split_ifs at framed

theorem frame_line (bytes : List UInt8) (length : Nat) (framed : frame bytes = .line length) :
    length ≤ (cString bytes).length := by
  rcases frame_position framed with found | ⟨-, found⟩
  · exact strstr_le _ crlf _ found
  · exact strstr_le _ lf _ found

theorem Request.fill_line (request : Request) (bytes : List UInt8) (length : Nat)
    (framed : frame bytes = .line length) :
    cString (request.fill bytes length).buf = bytes.take length :=
  cString_append _ _ (take_proper bytes length (frame_line bytes length framed))

-- `long` to `int`.
def toInt (value : Int) : CInt := BitVec.ofInt 32 value

def validId (text : CStr) : Int :=
  let id := (toInt (strtol text)).toInt
  if id ≥ 902001 ∧ id ≤ 902020 ∧ text.length = 6 then id else -1

-- `isint(str, &err)`: the value, and whether `err` is set.
def isint (text : CStr) : CInt × Bool :=
  let a := text.all isDigit
  let b :=
    match text with
    | first :: second :: rest => first = ascii '-' && (second :: rest).all isDigit
    | _ => false
  if a || b then (toInt (strtol text), false) else (-1, true)

def recordOf (text : CStr) : Option Nat :=
  if 0 < validId text then some (validId text - 902001).toNat else none

def space : List UInt8 := [32]

def words (text : CStr) : Option CStr × Option CStr × Option CStr :=
  let (food, rest) := strtok text space
  let (concert, rest) := strtok rest space
  let (electronic, _) := strtok rest space
  (food, concert, electronic)

inductive Verdict where
  | tooMany
  | belowZero
  | stored (record : Record)
  deriving DecidableEq

-- The limit checks of the booking, in the order of the source, and the updated `read_buf`.
def verdict (readBuf : Record) (food concert electronic : CInt) : Verdict :=
  let counts := readBuf.counts
  let total := counts.food + counts.concert + counts.electronics
  if (total + food + concert + electronic).toInt > 15 then .tooMany
  else if (food + counts.food).toInt < 0 then .belowZero
  else if (concert + counts.concert).toInt < 0 then .belowZero
  else if (electronic + counts.electronics).toInt < 0 then .belowZero
  else .stored ⟨readBuf.id, counts + ⟨food, concert, electronic⟩⟩

theorem verdict_stored (readBuf record : Record) (food concert electronic : CInt)
    (stored : verdict readBuf food concert electronic = .stored record) :
    record = ⟨readBuf.id, readBuf.counts + ⟨food, concert, electronic⟩⟩ := by
  simp only [verdict] at stored
  split_ifs at stored
  exact (Verdict.stored.inj stored).symm

theorem validId_range (text : CStr) (valid : 0 < validId text) :
    902001 ≤ validId text ∧ validId text ≤ 902020 := by
  simp only [validId] at valid ⊢
  split_ifs at valid ⊢ with range
  · exact ⟨range.1, range.2.1⟩
  · omega

theorem recordOf_lt (text : CStr) (record : Nat) (selected : recordOf text = some record) :
    record < 20 := by
  unfold recordOf at selected
  split_ifs at selected with valid
  have range := validId_range text valid
  simp only [Option.some.injEq] at selected
  omega

end SPHomework.Booking
