import SPHomework.Lib.Numeral
import SPHomework.Threads.Outputs

set_option autoImplicit false

/-!
# What `max_subarray` makes of its reads

`async_read` drops what `read` returns, and the buffer keeps the bytes of the
earlier reads. The number comes from the bytes just read in the iterations that
do not need the others.
-/

namespace SPHomework.Threads

open Lib

theorem strtolTen_space {byte : UInt8} (rest : CStr) (space : isSpace byte = true) :
    strtolTen (byte :: rest) = strtolTen rest := by
  rw [strtolTen, strtolTen, List.dropWhile_cons_of_pos space]

-- A sign before a number of this size.
def signed (sign : UInt8) (size : Nat) : Int :=
  if sign = ascii '-' then max longMin (-(size : Int)) else min longMax (size : Int)

theorem signed_zero (sign : UInt8) : signed sign 0 = 0 := by
  unfold signed
  split <;> decide

theorem strtolTen_sign {byte : UInt8} (rest : CStr) (space : isSpace byte = false) (sign : isSign byte = true) :
    strtolTen (byte :: rest) = signed byte (magnitude 10 0 rest) := by
  rw [strtolTen, List.dropWhile_cons_of_neg (by rw [space]; decide)]
  simp only [isSign, Bool.or_eq_true, decide_eq_true_eq] at sign
  rcases sign with rfl | rfl
  · rw [signed, if_pos rfl]
    exact if_pos rfl
  · rw [signed, if_neg (by decide)]
    exact (if_neg (by decide)).trans (if_pos rfl)

theorem strtolTen_other {byte : UInt8} (rest : CStr) (space : isSpace byte = false) (sign : isSign byte = false) :
    strtolTen (byte :: rest) = min longMax (magnitude 10 0 (byte :: rest)) := by
  rw [strtolTen, List.dropWhile_cons_of_neg (by rw [space]; decide)]
  simp only [isSign, Bool.or_eq_false_iff, decide_eq_false_iff_not] at sign
  simp only [sign.1, sign.2, if_false]

theorem strtolTen_none (text : CStr) (none_ : strtolEnd text = 0) : strtolTen text = 0 := by
  induction text with
  | nil => rfl
  | cons byte rest ih =>
    rw [strtolEnd] at none_
    split_ifs at none_ with space empty sign empty
    · rw [strtolTen_space rest space, ih empty]
    · rw [strtolTen_sign rest (by simpa using space) sign, magnitude_none 0 rest empty, signed_zero]
    · rw [strtolTen_other rest (by simpa using space) (by simpa using sign), magnitude_none 0 _ none_]
      decide

theorem strtolTen_append (text after : CStr) (inside : strtolEnd (text ++ after) ≤ text.length) :
    strtolTen (text ++ after) = strtolTen text := by
  induction text with
  | nil => exact strtolTen_none after (Nat.le_zero.mp inside)
  | cons byte rest ih =>
    rw [List.cons_append] at inside ⊢
    rw [strtolEnd, List.length_cons] at inside
    by_cases space : isSpace byte = true
    · rw [strtolTen_space _ space, strtolTen_space _ space]
      rw [if_pos space] at inside
      exact ih (by split at inside <;> omega)
    have space : isSpace byte = false := by simpa using space
    rw [if_neg (by rw [space]; decide)] at inside
    by_cases sign : isSign byte = true
    · rw [strtolTen_sign _ space sign, strtolTen_sign _ space sign]
      rw [if_pos sign] at inside
      rw [magnitude_append 0 rest after (by split at inside <;> omega)]
    · rw [if_neg sign] at inside
      have sign : isSign byte = false := by simpa using sign
      rw [strtolTen_other _ space sign, strtolTen_other _ space sign]
      exact congrArg (fun size : Nat => min longMax (size : Int)) (magnitude_append 0 (byte :: rest) after inside)

theorem strtolTen_cString (buffer : List UInt8) : strtolTen (cString buffer) = strtolTen buffer := by
  induction buffer using cString_induction with
  | nil => rfl
  | zero rest => exact (strtolTen_none _ (strtolEnd_zero rest)).symm
  | other byte rest proper ih =>
    have whole : magnitude 10 0 (byte :: cString rest) = magnitude 10 0 (byte :: rest) := by
      rw [← cString_cons proper, magnitude_cString]
    rw [cString_cons proper]
    by_cases space : isSpace byte = true
    · rw [strtolTen_space _ space, strtolTen_space _ space, ih]
    have space : isSpace byte = false := by simpa using space
    by_cases sign : isSign byte = true
    · rw [strtolTen_sign _ space sign, strtolTen_sign _ space sign, magnitude_cString]
    · have sign : isSign byte = false := by simpa using sign
      rw [strtolTen_other _ space sign, strtolTen_other _ space sign, whole]

-- A decimal number that fits is its own value.
theorem strtolTen_decimal (word : CStr) (decimal : IsDecimal word)
    (inRange : -2147483648 ≤ integerValue word ∧ integerValue word ≤ 2147483647) :
    strtolTen word = integerValue word := by
  rcases word with _ | ⟨first, rest⟩
  · exact absurd rfl decimal.1
  by_cases minus : first = ascii '-'
  · subst minus
    have all : rest.all isDigit = true := by simpa [digitsOf] using decimal.2
    have same : integerValue (ascii '-' :: rest) = -(decimalValue rest : Int) := by
      simp [integerValue, digitsOf]
    rw [same] at inRange ⊢
    rw [strtolTen_sign rest (by decide) (by decide), magnitude_ten 0 rest all, ← decimalValue,
      signed, if_pos rfl]
    exact max_eq_right (by unfold longMin; omega)
  · have all : (first :: rest).all isDigit = true := by simpa [digitsOf, minus] using decimal.2
    have digit : isDigit first = true := by simp_all
    obtain ⟨noSpace, _, noPlus⟩ := isDigit_proper first digit
    have same : integerValue (first :: rest) = (decimalValue (first :: rest) : Int) := by
      simp [integerValue, digitsOf, minus]
    rw [same] at inRange ⊢
    rw [strtolTen_other rest noSpace (by simp [isSign, minus, noPlus]), magnitude_ten 0 _ all,
      ← decimalValue]
    exact min_eq_right (by unfold longMax; omega)

-- `atoi` finds the whole number in the first bytes.
theorem atoi_append (text after : List UInt8) (inside : strtolEnd (text ++ after) ≤ text.length) :
    atoi (text ++ after) = atoi text := by
  rw [atoi, atoi, strtolTen_cString, strtolTen_cString, strtolTen_append text after inside]

-- What `max_subarray` adds in an iteration, and the best block that ends there.
def readNumber (bytes : List UInt8) (tcb : Vars) : Int := atoi (readInto tcb.buf bytes)

def readSum (bytes : List UInt8) (tcb : Vars) : Int :=
  max (int32 (tcb.x + readNumber bytes tcb)) (readNumber bytes tcb)

theorem larger_x (tcb : Vars) (a b : Int) [Decidable (b < a)] :
    (if b < a then { tcb with x := a } else { tcb with x := b }) = { tcb with x := max a b } := by
  split
  · rw [max_eq_left (by omega)]
  · rw [max_eq_right (by omega)]

theorem larger_y (tcb : Vars) [Decidable (tcb.y < tcb.x)] :
    (if tcb.y < tcb.x then { tcb with y := tcb.x } else tcb) = { tcb with y := max tcb.y tcb.x } := by
  split
  · rw [max_eq_right (by omega)]
  · rw [max_eq_left (by omega)]

theorem maxSubarrayRead_eq (bytes : List UInt8) (tcb : Vars) :
    maxSubarrayRead bytes tcb =
      ({ tcb with
          buf := readInto tcb.buf bytes
          x := readSum bytes tcb
          y := max tcb.y (readSum bytes tcb) },
        some (max tcb.y (readSum bytes tcb)), if tcb.arg ≤ tcb.i then .exit else .yield) := by
  let read : Vars := { tcb with buf := readInto tcb.buf bytes }
  let larger : Vars → Vars := fun tcb => if tcb.y < tcb.x then { tcb with y := tcb.x } else tcb
  let finish : Vars → Effect := fun tcb => (tcb, some tcb.y, if tcb.arg ≤ tcb.i then .exit else .yield)
  have sum := larger_x read (int32 (tcb.x + readNumber bytes tcb)) (readNumber bytes tcb)
  calc maxSubarrayRead bytes tcb
      = finish (larger (if readNumber bytes tcb < int32 (tcb.x + readNumber bytes tcb)
          then { read with x := int32 (tcb.x + readNumber bytes tcb) }
          else { read with x := readNumber bytes tcb })) := rfl
    _ = finish (larger { read with x := readSum bytes tcb }) := congrArg (finish ∘ larger) sum
    _ = finish { read with x := readSum bytes tcb, y := max tcb.y (readSum bytes tcb) } :=
      congrArg finish (larger_y { read with x := readSum bytes tcb })

theorem int32_int32 (value : Int) : int32 (int32 value) = int32 value := Int.bmod_bmod

/-- What holds of the fields of `max_subarray` whatever its reads return. The bytes of the buffer that
no read has filled stay 0. -/
structure Sound (vars : Vars) : Prop where
  fits : int32 vars.x = vars.x
  most : vars.x ≤ vars.y
  positive : 0 ≤ vars.y
  unread : vars.buf.drop 5 = List.replicate 507 0

theorem readInto_drop (buf bytes : List UInt8) : (readInto buf bytes).drop 5 = buf.drop 5 := by
  have short : (bytes.take 5).length ≤ 5 := List.length_take_le 5 bytes
  rw [readInto, List.drop_append, List.drop_of_length_le short, List.nil_append, List.drop_drop,
    Nat.add_sub_cancel' short]

theorem readSum_fits (bytes : List UInt8) (tcb : Vars) : int32 (readSum bytes tcb) = readSum bytes tcb := by
  rcases max_choice (int32 (tcb.x + readNumber bytes tcb)) (readNumber bytes tcb) with same | same
  · rw [readSum, same, int32_int32]
  · rw [readSum, same, readNumber, atoi, int32_int32]

theorem Sound.read {vars : Vars} (sound : Sound vars) (bytes : List UInt8) :
    Sound (maxSubarrayRead bytes vars).1 := by
  rw [maxSubarrayRead_eq]
  exact ⟨readSum_fits .., le_max_right .., le_max_of_le_left sound.positive,
    (readInto_drop ..).trans sound.unread⟩

theorem Sound.body {vars : Vars} (sound : Sound vars) : Sound (maxSubarray vars).1 := by
  unfold maxSubarray
  split
  · exact ⟨rfl, le_rfl, le_rfl, sound.unread⟩
  · exact sound

theorem Sound.code {vars after : Vars} {bytes : List UInt8} {point : Point} {value : Option Int} {act : Act}
    (sound : Sound vars) (ran : code .maxSubarray bytes point vars = some (after, value, act)) : Sound after := by
  have counted : ∀ i, Sound { vars with i := i } :=
    fun _ => ⟨sound.fits, sound.most, sound.positive, sound.unread⟩
  cases point with
  | start =>
    have ended : (maxSubarray { vars with i := 1 }).1 = after := congrArg Prod.fst (Option.some.inj ran)
    exact ended ▸ (counted 1).body
  | next =>
    have ended : (maxSubarray { vars with i := int32 (vars.i + 1) }).1 = after :=
      congrArg Prod.fst (Option.some.inj ran)
    exact ended ▸ (counted _).body
  | read =>
    have ended : (maxSubarrayRead bytes vars).1 = after := congrArg Prod.fst (Option.some.inj ran)
    exact ended ▸ sound.read bytes

theorem alone_sound (arg : Int) (results : Nat → List UInt8) (pieces : Nat) :
    Sound (alone .maxSubarray arg results pieces).vars := by
  refine alone_vars .maxSubarray arg results Sound ⟨?_, le_rfl, le_rfl, ?_⟩
    (fun _ _ _ _ _ _ sound ran => sound.code ran) pieces
  · rfl
  · rfl

/-- An iteration that counts the bytes of its own read only: they hold the text of the number, and it
is theirs. Without any, the sums stay as they are. -/
structure OwnNumber (delivered : List UInt8) (before after : Vars) : Prop where
  text : strtolEnd (cString after.buf) ≤ delivered.length
  number : atoi after.buf = atoi delivered
  nothing : delivered = [] → after.x = before.x ∧ after.y = before.y

/-- The bytes that the buffer keeps behind those just read do not go on with the number, and the best
block that ends here is not negative when there are none. -/
structure Fed (delivered : List UInt8) (before : Vars) : Prop where
  settled : Settled delivered (before.buf.drop delivered.length)
  nothing : delivered = [] → 0 ≤ before.x

theorem own_iff_fed {before : Vars} (sound : Sound before) (bytes : List UInt8) :
    OwnNumber (bytes.take 5) before (maxSubarrayRead bytes before).1 ↔ Fed (bytes.take 5) before := by
  have text : strtolEnd (cString (readInto before.buf bytes)) ≤ (bytes.take 5).length ↔
      Settled (bytes.take 5) (before.buf.drop (bytes.take 5).length) := by
    rw [strtolEnd_cString, readInto, strtolEnd_append]
  have sum : readNumber bytes before = 0 → readSum bytes before = max before.x 0 := by
    intro zero
    rw [readSum, zero, Int.add_zero, sound.fits]
  rw [maxSubarrayRead_eq]
  constructor
  · intro own
    refine ⟨text.mp own.text, fun nothing => ?_⟩
    have zero : readNumber bytes before = 0 := by
      rw [readNumber, own.number, nothing]
      rfl
    have same : readSum bytes before = before.x := (own.nothing nothing).1
    rw [sum zero] at same
    exact max_eq_left_iff.mp same
  · intro fed
    have inside := text.mpr fed.settled
    have number : atoi (readInto before.buf bytes) = atoi (bytes.take 5) := by
      rw [strtolEnd_cString] at inside
      exact atoi_append _ _ inside
    refine ⟨inside, number, fun nothing => ?_⟩
    have zero : readNumber bytes before = 0 := by
      rw [readNumber, number, nothing]
      rfl
    have same : readSum bytes before = before.x := (sum zero).trans (max_eq_left (fed.nothing nothing))
    exact ⟨same, by rw [same]; exact max_eq_left sound.most⟩

-- A full record is never continued by what the buffer keeps.
theorem readNumber_full {bytes : List UInt8} {vars : Vars} (sound : Sound vars) (full : bytes.length = 5) :
    readNumber bytes vars = atoi bytes := by
  have whole : bytes.take 5 = bytes := List.take_of_length_le full.le
  have settled : Settled bytes (vars.buf.drop 5) := by
    rw [sound.unread]
    exact settled_zero bytes _
  rw [readNumber, readInto, whole, full]
  exact atoi_append _ _ ((strtolEnd_append ..).mpr settled)

-- The bytes that the next read of `max_subarray` delivers.
def delivered (inputs : Inputs) (process : Process) : List UInt8 :=
  (inputs.results .maxSubarray (process.reads .maxSubarray)).take 5

def subVars (process : Process) : Vars := (process.heap .maxSubarray).toVars

-- The steps of a run that are a read of `max_subarray`, with what comes after it up to the next macro.
def CountsOwn (inputs : Inputs) (process : Process) (label : Label) : Prop :=
  process.control = .code .maxSubarray .read → label = .next → ∀ next, process.step inputs label = some next →
    OwnNumber (delivered inputs process) (subVars process) (subVars next)

def IsFed (inputs : Inputs) (process : Process) (label : Label) : Prop :=
  process.control = .code .maxSubarray .read → label = .next → Fed (delivered inputs process) (subVars process)

section

variable {inputs : Inputs} {process : Process}

theorem Active.sound {loc : Loc} {queues : Queues Func} (active : Active inputs process .maxSubarray loc queues) :
    Sound (subVars process) := by
  obtain ⟨pieces, same⟩ := active.here.tracked
  have sound := alone_sound (inputs.args .maxSubarray) (inputs.results .maxSubarray) pieces
  rw [same] at sound
  exact sound

theorem Active.read {queues : Queues Func} (active : Active inputs process .maxSubarray (.code .read) queues)
    (control : process.control = .code .maxSubarray .read) :
    ∃ next, process.step inputs .next = some next ∧ subVars next =
      (maxSubarrayRead (inputs.results .maxSubarray (process.reads .maxSubarray)) (subVars process)).1 := by
  have runs : process.step inputs .next = process.runCode inputs .maxSubarray .read .maxSubarray := by
    simp only [Process.step, Process.next, control, active.runs]
  refine ⟨_, runs, ?_⟩
  exact congrArg Tcb.toVars (Function.update_self Func.maxSubarray _ process.heap)

theorem Phase.counts_iff_fed (phase : Phase inputs process) (label : Label) :
    CountsOwn inputs process label ↔ IsFed inputs process label := by
  refine forall_congr' fun control => forall_congr' fun same => ?_
  subst same
  obtain ⟨queues, active⟩ := phase.active_code control
  obtain ⟨next, taken, after⟩ := active.read control
  rw [taken]
  constructor
  · intro counts
    have own := counts next rfl
    rw [after] at own
    exact (own_iff_fed active.sound _).mp own
  · rintro fed _ ⟨⟩
    rw [after]
    exact (own_iff_fed active.sound _).mpr fed

end

/-- In a run every number comes from the bytes of its own read exactly if every iteration is fed. -/
theorem own_numbers_iff (inputs : Inputs) (memory : Func → Tcb) (labels : List Label) :
    Always (Process.step inputs) (CountsOwn inputs) (Process.begin memory) labels ↔
      Always (Process.step inputs) (IsFed inputs) (Process.begin memory) labels :=
  always_congr _ (Phase inputs) (fun _ _ _ phase taken => phase.step taken)
    (fun _ label phase => phase.counts_iff_fed label) _ labels (Phase.begin inputs memory)

-- One record of 5 bytes, and then the end of the file.
def staleInputs : Inputs where
  args func := if func = .maxSubarray then 2 else -1
  results _ index := if index = 0 then ofChars "   5\n".toList else []
  fd _ := 3

def staleLabels : List Label :=
  [Label.steps 4, [.schedule (fun _ => false) .all], Label.steps 2, [.schedule (fun _ => false) .all],
    Label.steps 7, [.schedule (fun _ => false) .all]].flatten

theorem stale_runs :
    (run (Process.step staleInputs) (Process.begin memory0) staleLabels).isSome = true := by decide +kernel

def staleProcess : Process :=
  (run (Process.step staleInputs) (Process.begin memory0) staleLabels).get stale_runs

theorem stale_reads : (staleProcess.step staleInputs .next).isSome = true := by decide +kernel

-- The record is counted once more, and the sums grow.
theorem stale_number_counted : ∃ before next,
    run (Process.step staleInputs) (Process.begin memory0) staleLabels = some before ∧
    before.step staleInputs .next = some next ∧ delivered staleInputs before = [] ∧
    (subVars before).x = 5 ∧ (subVars before).y = 5 ∧ (subVars next).x = 10 ∧ (subVars next).y = 10 ∧
    ¬ Always (Process.step staleInputs) (CountsOwn staleInputs) (Process.begin memory0)
      (staleLabels ++ [.next]) := by
  have ran : run (Process.step staleInputs) (Process.begin memory0) staleLabels = some staleProcess :=
    (Option.some_get stale_runs).symm
  have taken := (Option.some_get stale_reads).symm
  have nothing : delivered staleInputs staleProcess = [] := by decide +kernel
  have before : (subVars staleProcess).x = 5 := by decide +kernel
  have after : (subVars ((staleProcess.step staleInputs .next).get stale_reads)).x = 10 := by decide +kernel
  refine ⟨_, _, ran, taken, nothing, before, by decide +kernel, after, by decide +kernel, fun always => ?_⟩
  have own := always_reached ran always (by decide +kernel) rfl _ taken
  have same := (own.nothing nothing).1
  rw [before, after] at same
  cases same

end SPHomework.Threads
