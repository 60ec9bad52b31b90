import SPHomework.Booking.Outcome
import SPHomework.Lib.Decimal

set_option autoImplicit false

/-!
# The limits of a booking, in exact integers

The sums of the handler are sums of 32-bit numbers.
-/

namespace SPHomework.Booking

open Lib

-- A booking after a command, counted without wrap-around.
def newFood (counts delta : Counts) : Int := counts.food.toInt + delta.food.toInt

def newConcert (counts delta : Counts) : Int := counts.concert.toInt + delta.concert.toInt

def newElectronics (counts delta : Counts) : Int :=
  counts.electronics.toInt + delta.electronics.toInt

def newTotal (counts delta : Counts) : Int :=
  newFood counts delta + newConcert counts delta + newElectronics counts delta

def SomeNegative (counts delta : Counts) : Prop :=
  newFood counts delta < 0 ∨ newConcert counts delta < 0 ∨ newElectronics counts delta < 0

instance (counts delta : Counts) : Decidable (SomeNegative counts delta) :=
  inferInstanceAs (Decidable (_ ∨ _ ∨ _))

structure WithinLimits (counts : Counts) : Prop where
  food : 0 ≤ counts.food.toInt
  concert : 0 ≤ counts.concert.toInt
  electronics : 0 ≤ counts.electronics.toInt
  total : counts.food.toInt + counts.concert.toInt + counts.electronics.toInt ≤ 15

/-- The decision in exact integers: what the client is told, and what becomes of its record. -/
structure DecidedExactly (before after : Record) (delta : Counts) (message : Message) : Prop where
  stores : (∃ record, message = .updated record) ↔
    newTotal before.counts delta ≤ 15 ∧ ¬ SomeNegative before.counts delta
  tooMany : message = .tooMany ↔ 15 < newTotal before.counts delta
  belowZero : message = .belowZero ↔
    newTotal before.counts delta ≤ 15 ∧ SomeNegative before.counts delta
  stored : ∀ record, message = .updated record → after = record ∧ record.id = before.id ∧
    record.counts.food.toInt = newFood before.counts delta ∧
    record.counts.concert.toInt = newConcert before.counts delta ∧
    record.counts.electronics.toInt = newElectronics before.counts delta
  unchanged : (∀ record, message ≠ .updated record) → after = before
  limits : WithinLimits after.counts

/-- The exact total is one that 32 bits take for a total on the same side of 15. -/
def NotWrapped (total : Int) : Prop :=
  total ≤ -4294967281 ∨ (-2147483648 ≤ total ∧ total ≤ 2147483647) ∨
    (4294967312 ≤ total ∧ total ≤ 6442450943)

instance (total : Int) : Decidable (NotWrapped total) := inferInstanceAs (Decidable (_ ∨ _ ∨ _))

theorem toInt_range (number : CInt) : -2147483648 ≤ number.toInt ∧ number.toInt ≤ 2147483647 := by
  have low := BitVec.le_toInt number
  have high := BitVec.toInt_lt (x := number)
  omega

-- Adding a small count wraps only past the largest `int`.
theorem add_small (number count : CInt) (low : 0 ≤ count.toInt) (high : count.toInt ≤ 15) :
    (number + count).toInt < 0 ↔
      count.toInt + number.toInt < 0 ∨ 2147483648 ≤ count.toInt + number.toInt := by
  have range := toInt_range number
  rw [BitVec.toInt_add]
  simp only [Int.bmod]
  omega

theorem add_exact (number count : CInt) (low : 0 ≤ count.toInt) (high : count.toInt ≤ 15)
    (fits : count.toInt + number.toInt ≤ 2147483647) :
    (count + number).toInt = count.toInt + number.toInt := by
  have range := toInt_range number
  rw [BitVec.toInt_add]
  simp only [Int.bmod]
  omega

theorem total_wraps (counts delta : Counts) :
    (counts.food + counts.concert + counts.electronics + delta.food + delta.concert +
      delta.electronics).toInt = (newTotal counts delta).bmod (2 ^ 32) := by
  have regroup : newTotal counts delta =
      counts.food.toInt + counts.concert.toInt + counts.electronics.toInt + delta.food.toInt +
        delta.concert.toInt + delta.electronics.toInt := by
    unfold newTotal newFood newConcert newElectronics
    ring
  rw [regroup]
  simp [BitVec.toInt_add]

theorem WithinLimits.small {counts : Counts} (valid : WithinLimits counts) :
    (0 ≤ counts.food.toInt ∧ counts.food.toInt ≤ 15) ∧
      (0 ≤ counts.concert.toInt ∧ counts.concert.toInt ≤ 15) ∧
      (0 ≤ counts.electronics.toInt ∧ counts.electronics.toInt ≤ 15) := by
  obtain ⟨food, concert, electronics, total⟩ := valid
  omega

theorem counts_exact (counts delta : Counts) (valid : WithinLimits counts)
    (limit : newTotal counts delta ≤ 15) (positive : ¬ SomeNegative counts delta) :
    (counts + delta).food.toInt = newFood counts delta ∧
      (counts + delta).concert.toInt = newConcert counts delta ∧
      (counts + delta).electronics.toInt = newElectronics counts delta := by
  obtain ⟨food, concert, electronics⟩ := valid.small
  unfold newTotal newFood newConcert newElectronics at limit
  unfold SomeNegative newFood newConcert newElectronics at positive
  refine ⟨?_, ?_, ?_⟩
  · exact add_exact delta.food counts.food food.1 food.2 (by omega)
  · exact add_exact delta.concert counts.concert concert.1 concert.2 (by omega)
  · exact add_exact delta.electronics counts.electronics electronics.1 electronics.2 (by omega)

theorem counts_within (counts delta : Counts) (valid : WithinLimits counts)
    (limit : newTotal counts delta ≤ 15) (positive : ¬ SomeNegative counts delta) :
    WithinLimits (counts + delta) := by
  obtain ⟨food, concert, electronics⟩ := counts_exact counts delta valid limit positive
  unfold newTotal at limit
  unfold SomeNegative at positive
  constructor <;> omega

theorem total_limit_iff (counts delta : Counts) (valid : WithinLimits counts) :
    (15 < (newTotal counts delta).bmod (2 ^ 32) ↔ 15 < newTotal counts delta) ↔
      NotWrapped (newTotal counts delta) := by
  have range : -6442450944 ≤ newTotal counts delta ∧ newTotal counts delta ≤ 6442450956 := by
    have food := toInt_range delta.food
    have concert := toInt_range delta.concert
    have electronics := toInt_range delta.electronics
    obtain ⟨low, low', low'', total⟩ := valid
    unfold newTotal newFood newConcert newElectronics
    omega
  generalize newTotal counts delta = total at range
  unfold NotWrapped
  simp only [Int.bmod]
  omega

theorem verdict_tooMany_iff (readBuf : Record) (delta : Counts) :
    verdict readBuf delta.food delta.concert delta.electronics = .tooMany ↔
      15 < (newTotal readBuf.counts delta).bmod (2 ^ 32) := by
  rw [← total_wraps]
  simp only [verdict, gt_iff_lt]
  generalize BitVec.toInt (readBuf.counts.food + readBuf.counts.concert + readBuf.counts.electronics +
    delta.food + delta.concert + delta.electronics) = total
  split_ifs with above <;> simp [above]

-- Below the limit the handler looks at the three counts, and a negative one shows.
theorem verdict_below (readBuf : Record) (delta : Counts) (valid : WithinLimits readBuf.counts)
    (below : ¬ 15 < (newTotal readBuf.counts delta).bmod (2 ^ 32))
    (negative : SomeNegative readBuf.counts delta) :
    verdict readBuf delta.food delta.concert delta.electronics = .belowZero := by
  obtain ⟨food, concert, electronics⟩ := valid.small
  rw [← total_wraps] at below
  simp only [verdict, gt_iff_lt, below, if_false, add_small _ _ food.1 food.2,
    add_small _ _ concert.1 concert.2, add_small _ _ electronics.1 electronics.2]
  unfold SomeNegative newFood newConcert newElectronics at negative
  split_ifs <;> first | rfl | omega

theorem verdict_stores (readBuf : Record) (delta : Counts) (valid : WithinLimits readBuf.counts)
    (below : ¬ 15 < (newTotal readBuf.counts delta).bmod (2 ^ 32))
    (limit : newTotal readBuf.counts delta ≤ 15) (positive : ¬ SomeNegative readBuf.counts delta) :
    verdict readBuf delta.food delta.concert delta.electronics =
      .stored ⟨readBuf.id, readBuf.counts + delta⟩ := by
  obtain ⟨food, concert, electronics⟩ := valid.small
  rw [← total_wraps] at below
  simp only [verdict, gt_iff_lt, below, if_false, add_small _ _ food.1 food.2,
    add_small _ _ concert.1 concert.2, add_small _ _ electronics.1 electronics.2]
  unfold newTotal newFood newConcert newElectronics at limit
  unfold SomeNegative newFood newConcert newElectronics at positive
  split_ifs <;> first | rfl | omega

theorem decided_iff (readBuf : Record) (delta : Counts) (valid : WithinLimits readBuf.counts) :
    DecidedExactly readBuf
        ((verdict readBuf delta.food delta.concert delta.electronics).leaves readBuf) delta
        (verdict readBuf delta.food delta.concert delta.electronics).message ↔
      NotWrapped (newTotal readBuf.counts delta) := by
  rw [← total_limit_iff readBuf.counts delta valid, ← verdict_tooMany_iff]
  constructor
  · intro decided
    rw [← decided.tooMany]
    rcases verdict readBuf delta.food delta.concert delta.electronics with _ | _ | record <;>
      simp [Verdict.message]
  · intro exact_
    by_cases above : 15 < newTotal readBuf.counts delta
    · have refused := (verdict_tooMany_iff readBuf delta).mpr (by
        rw [← verdict_tooMany_iff]
        exact exact_.mpr above)
      rw [refused]
      refine ⟨?_, ?_, ?_, ?_, fun _ => rfl, valid⟩
      · simp [Verdict.message, above]
      · simp [Verdict.message, above]
      · simp [Verdict.message, above]
      · simp [Verdict.message]
    · have below : ¬ 15 < (newTotal readBuf.counts delta).bmod (2 ^ 32) := by
        rw [← verdict_tooMany_iff]
        exact fun refused => above (exact_.mp refused)
      have limit : newTotal readBuf.counts delta ≤ 15 := by omega
      by_cases negative : SomeNegative readBuf.counts delta
      · rw [verdict_below readBuf delta valid below negative]
        refine ⟨?_, ?_, ?_, ?_, fun _ => rfl, valid⟩
        · simp [Verdict.message, negative]
        · simp [Verdict.message, above]
        · simp [Verdict.message, limit, negative]
        · simp [Verdict.message]
      · rw [verdict_stores readBuf delta valid below limit negative]
        refine ⟨?_, ?_, ?_, ?_, ?_, counts_within _ delta valid limit negative⟩
        · simp [Verdict.message, limit, negative]
        · simp [Verdict.message, above]
        · simp [Verdict.message, negative]
        · rintro record told
          obtain rfl := Message.updated.inj told
          exact ⟨rfl, rfl, counts_exact _ delta valid limit negative⟩
        · intro untold
          exact absurd rfl (untold _)

variable {P : Type} [DecidableEq P] [Fintype P] {kernel : Kernel P} {memory : Memory} {pid : P}
  {fd record : Nat} {conn : Conn} {choice : Choice} {bytes : List UInt8} {line : CStr} {delta : Counts}

/-- The handler answers its client and closes the session with the exact decision. -/
def DecidesExactly (kernel : Kernel P) (memory : Memory) (pid : P) (fd record : Nat) (conn : Conn)
    (choice : Choice) (delta : Counts) : Prop :=
  ∃ after memory' message, (writeStage1 fd memory).perform (alone pid fd choice) kernel =
      some (after, .done memory' .next) ∧
    Answered kernel after memory' pid fd record conn message ∧
    DecidedExactly (kernel.file record) (after.file record) delta message

omit [DecidableEq P] [Fintype P] in
theorem answered_once {after : Kernel P} {memory' : Memory} {message other : Message}
    (answered : Answered kernel after memory pid fd record conn message)
    (again : Answered kernel after memory' pid fd record conn other) : message = other := by
  have same := List.append_cancel_left (answered.past.symm.trans again.past)
  have shown := congrArg Conn.shown (List.cons.inj same).1
  exact (List.cons.inj (List.append_cancel_left shown)).1

-- The run of the handler is one, so the decision is that of the verdict.
theorem decides_verdict (reads : Reads choice bytes line)
    (serving : Serving kernel memory pid fd record conn) (delivered : command line = some delta) :
    DecidesExactly kernel memory pid fd record (conn.receive bytes) choice delta ↔
      DecidedExactly (kernel.file record)
        ((verdict (kernel.file record) delta.food delta.concert delta.electronics).leaves
          (kernel.file record)) delta
        (verdict (kernel.file record) delta.food delta.concert delta.electronics).message := by
  obtain ⟨after, memory', performed, answered, content⟩ := perform_command reads serving delivered
  have left := congrFun content record
  rw [Function.update_self] at left
  constructor
  · rintro ⟨other, memory'', message, again, told, decided⟩
    obtain ⟨rfl, ended⟩ := Prod.mk.inj (Option.some.inj (performed.symm.trans again))
    obtain rfl := (Prog.Ending.done.inj ended).1
    rwa [answered_once told answered, left] at decided
  · intro decided
    exact ⟨after, memory', _, performed, answered, left ▸ decided⟩

/-- The decision is the exact one when the exact total is one that 32 bits leave on its side of
the limit. -/
theorem booking_exact_iff (reads : Reads choice bytes line)
    (serving : Serving kernel memory pid fd record conn) (delivered : command line = some delta)
    (valid : WithinLimits (kernel.file record).counts) :
    DecidesExactly kernel memory pid fd record (conn.receive bytes) choice delta ↔
      NotWrapped (newTotal (kernel.file record).counts delta) := by
  rw [decides_verdict reads serving delivered, decided_iff _ delta valid]

def blankFile (record : Nat) : Record := ⟨BitVec.ofNat 32 (902001 + record), 0⟩

def oneLine : CStr := ofChars ['1', ' ', '2', ' ', '-', '0']

theorem booking_exact_one : DecidesExactly (onlyKernel blankFile) onlyMemory () 5 0
    (Conn.receive (oneLine ++ [10]) ⟨0, [], []⟩) ⟨true, .chunk (oneLine ++ [10])⟩ ⟨1, 2, 0⟩ := by
  have reads : Reads ⟨true, .chunk (oneLine ++ [10])⟩ (oneLine ++ [10]) oneLine :=
    ⟨rfl, by decide, by decide +kernel, by decide +kernel⟩
  exact (booking_exact_iff reads (onlyServing blankFile) (by decide +kernel)
    ⟨by decide +kernel, by decide +kernel, by decide +kernel, by decide +kernel⟩).mpr
      (by decide +kernel)

def hugeLine : CStr := decimal 2147483647 ++ 32 :: decimal 2147483647 ++ 32 :: decimal 2

def hugeDelta : Counts := ⟨2147483647, 2147483647, 2⟩

-- 4294967296 new bookings are none in 32 bits, and are stored.
theorem booking_wraps : WithinLimits (blankFile 0).counts ∧ command hugeLine = some hugeDelta ∧
    ¬ DecidesExactly (onlyKernel blankFile) onlyMemory () 5 0
      (Conn.receive (hugeLine ++ [10]) ⟨0, [], []⟩) ⟨true, .chunk (hugeLine ++ [10])⟩ hugeDelta := by
  have delivered : command hugeLine = some hugeDelta := by decide +kernel
  refine ⟨⟨by decide +kernel, by decide +kernel, by decide +kernel, by decide +kernel⟩, delivered, ?_⟩
  have reads : Reads ⟨true, .chunk (hugeLine ++ [10])⟩ (hugeLine ++ [10]) hugeLine :=
    ⟨rfl, by decide +kernel, by decide +kernel, by decide +kernel⟩
  rw [decides_verdict reads (onlyServing blankFile) delivered]
  intro decided
  have stored : verdict (blankFile 0) hugeDelta.food hugeDelta.concert hugeDelta.electronics =
      .stored ⟨902001, hugeDelta⟩ := by decide +kernel
  have small := (decided.stores.mp ⟨⟨902001, hugeDelta⟩, congrArg Verdict.message stored⟩).1
  exact absurd small (by decide +kernel)

end SPHomework.Booking
