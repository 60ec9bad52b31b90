import SPHomework.Booking.Framing
import SPHomework.Booking.Numbers
import SPHomework.Booking.Outcome

set_option autoImplicit false

/-!
# Which command lines are answered

The words are fetched before any is checked, and a missing one is found out when
it is checked.
-/

namespace SPHomework.Booking

open Lib

theorem words_of (text : CStr) :
    words text = ((wordsOf space text)[0]?, (wordsOf space text)[1]?, (wordsOf space text)[2]?) := by
  have food := strtok_words space text
  have concert := strtok_words space (strtok text space).2
  have electronic := strtok_words space (strtok (strtok text space).2 space).2
  rw [concert.2, food.2] at electronic
  rw [food.2] at concert
  simp only [words, food.1, concert.1, electronic.1]
  rcases wordsOf space text with _ | ⟨first, _ | ⟨second, rest⟩⟩ <;> simp [List.head?_eq_getElem?]

theorem wordsOf_nonempty (delimiters : List UInt8) (text word : CStr)
    (member : word ∈ wordsOf delimiters text) : word ≠ [] := by
  simpa using (List.mem_filter.mp member).2

/-- There are three words, or one of the words there are is no integer. -/
def Checkable (line : CStr) : Prop :=
  wordsOf space line ≠ [] ∧
    ((wordsOf space line).length < 3 → ∃ word ∈ wordsOf space line, ¬ IsDecimal word)

instance (line : CStr) : Decidable (Checkable line) := inferInstanceAs (Decidable (_ ∧ _))

theorem isint_refuses (word : CStr) (nonempty : word ≠ []) :
    (isint word).2 = true ↔ ¬ IsDecimal word := by
  rw [← isint_error word nonempty, Bool.not_eq_false]

theorem checkWords_iff (line : CStr) : (checkWords line).isSome ↔ Checkable line := by
  have nonempty := wordsOf_nonempty space line
  unfold checkWords Checkable
  rw [words_of]
  generalize wordsOf space line = found at nonempty ⊢
  rcases found with _ | ⟨food, rest⟩
  · simp
  have foodErr := isint_refuses food (nonempty food List.mem_cons_self)
  by_cases food' : IsDecimal food
  · rcases rest with _ | ⟨concert, rest⟩
    · simp [foodErr, food']
    have concertErr := isint_refuses concert
      (nonempty concert (List.mem_cons_of_mem _ List.mem_cons_self))
    by_cases concert' : IsDecimal concert
    · rcases rest with _ | ⟨electronic, rest⟩
      · simp [foodErr, food', concertErr, concert']
      · by_cases electronicErr : (isint electronic).2 = true <;>
          simp [foodErr, food', concertErr, concert', electronicErr]
    · simp [food', concertErr, concert']
  · simp [foodErr, food']

-- The outcomes of a command: the record is updated, or the client is told why not.
def Outcome (before after : Nat → Record) (record : Nat) : Message → Prop
  | .updated value => after = Function.update before record value
  | .failed => after = before
  | .tooMany => after = before
  | .belowZero => after = before
  | _ => False

theorem verdict_outcome (decision : Verdict) (before after : Nat → Record) (record : Nat)
    (content : after = Function.update before record (decision.leaves (before record))) :
    Outcome before after record decision.message := by
  cases decision with
  | tooMany => simpa [Verdict.message, Verdict.leaves, Outcome] using content
  | belowZero => simpa [Verdict.message, Verdict.leaves, Outcome] using content
  | stored value => exact content

variable {P : Type} [DecidableEq P] [Fintype P] {kernel : Kernel P} {memory : Memory} {pid : P}
  {fd record : Nat} {conn : Conn} {choice : Choice} {line : CStr}

/-- The handler comes to an end with one of the outcomes, its session closed. -/
def Settles (kernel : Kernel P) (memory : Memory) (pid : P) (fd record : Nat) (conn : Conn)
    (choice : Choice) : Prop :=
  ∃ after memory' message, (writeStage1 fd memory).perform (alone pid fd choice) kernel =
      some (after, .done memory' .next) ∧
    Answered kernel after memory' pid fd record conn message ∧
    Outcome kernel.file after.file record message

theorem frame_nul (line : List UInt8) (noFeed : 10 ∉ line) (nul : 0 ∈ line) (length : Nat) :
    frame (line ++ [10]) ≠ .line length := by
  intro framed
  obtain ⟨before, after, -, ending⟩ := frame_end _ _ framed
  have cut : cString (line ++ [10]) = cString line := by
    obtain ⟨start, rest, rfl, proper⟩ := List.eq_append_cons_of_mem nul
    rw [List.append_assoc, List.cons_append]
    have some_ : ∀ byte ∈ start, byte ≠ 0 := fun byte member equal => proper (equal ▸ member)
    rw [cString_append start _ some_, cString_append start _ some_]
  have feed : 10 ∈ cString line := by
    rw [← cut]
    rcases ending with split | ⟨split, -⟩ <;> simp [split]
  exact noFeed ((List.takeWhile_prefix _).subset feed)

theorem settles_of_nul (noFeed : 10 ∉ line) (nul : 0 ∈ line) (input : choice.input = .chunk (line ++ [10]))
    (fits : (Input.chunk (line ++ [10])).Fits) (serving : Serving kernel memory pid fd record conn) :
    ¬ Settles kernel memory pid fd record (conn.receive (line ++ [10])) choice := by
  rintro ⟨after, memory', message, performed, -, -⟩
  have read := perform_handleRead choice serving (line ++ [10]) input fits
  have unframed := frame_nul line noFeed nul
  simp only [writeStage1, Code.bind_run] at performed
  rcases ends : frame (line ++ [10]) with length | _ | _
  · exact unframed length ends
  · rw [ends] at read
    obtain ⟨final, memory'', released, -, -⟩ :=
      perform_release choice (serving.setConn (conn.receive (line ++ [10]))) .breakLoop
    rw [Prog.perform_bind _ read, if_pos (by decide), released] at performed
    simp at performed
  · rw [ends] at read
    rw [Prog.perform_halt _ read] at performed
    simp at performed

theorem settles_of_words (noFeed : 10 ∉ line) (proper : 0 ∉ line)
    (input : choice.input = .chunk (line ++ [10])) (fits : (Input.chunk (line ++ [10])).Fits)
    (serving : Serving kernel memory pid fd record conn) :
    Settles kernel memory pid fd record (conn.receive (line ++ [10])) choice ↔
      (checkWords (withoutCr line)).isSome := by
  have reads : Reads choice (line ++ [10]) (withoutCr line) := by
    refine ⟨input, fits, frame_single line [] (by simp [proper]) noFeed List.not_mem_nil, ?_⟩
    rcases withoutCr_cases line with cut | ⟨whole, -⟩
    · rw [cut, withoutCr_snoc, List.append_assoc, List.take_left]
    · rw [← whole, List.take_left]
  obtain ⟨middle, memory', performed, again, text, past, file⟩ := perform_writeStage1 reads serving
  rw [readCommand_checkWords, text] at performed
  unfold Settles
  rw [performed, ← file]
  rcases checkWords (withoutCr line) with _ | _ | delta
  · simp [Prog.perform]
  · obtain ⟨after, final, answered, closed, same⟩ := perform_answer choice again .failed
    simp only [Option.isSome_some, iff_true]
    exact ⟨after, final, .failed, answered, { closed with past := past ▸ closed.past }, same⟩
  · obtain ⟨after, final, booked, closed, content⟩ := perform_book choice again delta
    simp only [Option.isSome_some, iff_true]
    exact ⟨after, final, _, booked, { closed with past := past ▸ closed.past },
      verdict_outcome _ middle.file after.file record content⟩

/-- What a `read` into `buf[512]` delivers of a line that has come whole. -/
def delivered (line : CStr) : List UInt8 := (line ++ [10]).take 512

theorem delivered_short (short : line.length + 1 < 512) : delivered line = line ++ [10] :=
  List.take_of_length_le (by simp; omega)

-- A line that fills the buffer leaves no NUL for `strstr`, and what the handler does is undefined.
theorem settles_of_long (long : ¬ line.length + 1 < 512) (input : choice.input = .chunk (delivered line))
    (serving : Serving kernel memory pid fd record conn) :
    ¬ Settles kernel memory pid fd record (conn.receive (delivered line)) choice := by
  rintro ⟨after, memory', message, performed, -, -⟩
  have full : ¬ (Input.chunk (delivered line)).Fits := by
    simp only [Input.Fits, delivered, List.length_take, List.length_append, List.length_singleton]
    omega
  have nothing : kernel.exec pid fd choice (.recv (memory.requestP fd).connFd) = none := by
    simp only [Kernel.exec, serving.connAt, input, full, if_false]
  simp [writeStage1, handleRead, Prog.perform, alone, nothing] at performed

/-- A command line is answered exactly when it fits the buffer with its end, has no NUL and the handler
comes to no missing word. -/
theorem commands_answered_iff (noFeed : 10 ∉ line) (input : choice.input = .chunk (delivered line))
    (serving : Serving kernel memory pid fd record conn) :
    Settles kernel memory pid fd record (conn.receive (delivered line)) choice ↔
      line.length + 1 < 512 ∧ 0 ∉ line ∧ Checkable (withoutCr line) := by
  by_cases short : line.length + 1 < 512
  · rw [delivered_short short] at input ⊢
    have fits : (Input.chunk (line ++ [10])).Fits := by simpa [Input.Fits] using short
    by_cases nul : 0 ∈ line
    · have unsettled := settles_of_nul noFeed nul input fits serving
      simp [unsettled, nul]
    · rw [settles_of_words noFeed nul input fits serving, checkWords_iff]
      simp [nul, short]
  · have unsettled := settles_of_long short input serving
    simp [unsettled, short]

theorem commands_answered_word :
    Settles (onlyKernel fun _ => ⟨902001, 0⟩) onlyMemory () 5 0
      (Conn.receive (delivered (ofChars ['f', 'o', 'o'])) ⟨0, [], []⟩)
      ⟨true, .chunk (delivered (ofChars ['f', 'o', 'o']))⟩ :=
  (commands_answered_iff (by decide) rfl (onlyServing _)).mpr (by decide +kernel)

-- "1 2" ends the process: there is no third word.
theorem commands_two_words :
    ¬ Settles (onlyKernel fun _ => ⟨902001, 0⟩) onlyMemory () 5 0
      (Conn.receive (ofChars ['1', ' ', '2'] ++ [10]) ⟨0, [], []⟩)
      ⟨true, .chunk (ofChars ['1', ' ', '2'] ++ [10])⟩ := by
  rw [settles_of_words (by decide) (by decide) rfl (by decide) (onlyServing _)]
  decide +kernel

end SPHomework.Booking
