import SPHomework.Lib.CString

set_option autoImplicit false

/-!
# Words and lines

The words that `strtok` takes from a text, and the line that the first line end
found by `strstr` leaves.
-/

namespace SPHomework.Lib

def wordsOf (delimiters : List UInt8) (text : CStr) : List CStr :=
  (text.splitOnP fun byte => byte ∈ delimiters).filter fun word => !word.isEmpty

theorem wordsOf_delimiter (delimiters : List UInt8) (byte : UInt8) (rest : CStr)
    (separates : byte ∈ delimiters) : wordsOf delimiters (byte :: rest) = wordsOf delimiters rest := by
  have split := List.splitOnP_append_cons (p := fun other => decide (other ∈ delimiters)) [] rest
    (decide_eq_true separates)
  rw [List.nil_append, List.splitOnP_nil] at split
  simp [wordsOf, split]

theorem wordsOf_dropWhile (delimiters : List UInt8) (text : CStr) :
    wordsOf delimiters (text.dropWhile (· ∈ delimiters)) = wordsOf delimiters text := by
  induction text with
  | nil => rfl
  | cons byte rest ih =>
    by_cases separates : byte ∈ delimiters
    · rw [List.dropWhile_cons_of_pos (by simpa using separates), ih,
        wordsOf_delimiter delimiters byte rest separates]
    · rw [List.dropWhile_cons_of_neg (by simpa using separates)]

theorem wordsOf_word (delimiters : List UInt8) (word rest : CStr) (nonempty : word ≠ [])
    (proper : ∀ byte ∈ word, byte ∉ delimiters) (ends : ∀ byte ∈ rest.head?, byte ∈ delimiters) :
    wordsOf delimiters (word ++ rest) = word :: wordsOf delimiters (rest.drop 1) := by
  have within : ∀ byte ∈ word, decide (byte ∈ delimiters) = false := by
    intro byte member
    simpa using proper byte member
  cases rest with
  | nil => simp [wordsOf, List.splitOnP_eq_singleton within, nonempty]
  | cons byte rest =>
    have separates : decide (byte ∈ delimiters) = true := by simpa using ends byte rfl
    simp [wordsOf, List.splitOnP_append_cons_of_forall_mem within byte separates, nonempty]

theorem strtok_words (delimiters : List UInt8) (text : CStr) :
    (strtok text delimiters).1 = (wordsOf delimiters text).head? ∧
      wordsOf delimiters (strtok text delimiters).2 = (wordsOf delimiters text).tail := by
  rw [← wordsOf_dropWhile delimiters text]
  unfold strtok
  dsimp only
  split_ifs with empty
  · simp [empty, wordsOf]
  · obtain ⟨first, rest, split⟩ := List.exists_cons_of_ne_nil empty
    have begins : first ∉ delimiters := by
      have stopped := List.head?_dropWhile_not (fun byte => decide (byte ∈ delimiters)) text
      rw [split] at stopped
      simpa using stopped
    have ends : ∀ byte ∈ ((first :: rest).dropWhile (· ∉ delimiters)).head?, byte ∈ delimiters := by
      intro byte head
      have stopped := List.head?_dropWhile_not (fun byte => decide (byte ∉ delimiters)) (first :: rest)
      rw [Option.mem_def.mp head] at stopped
      simpa using stopped
    have found := wordsOf_word delimiters ((first :: rest).takeWhile (· ∉ delimiters)) _
      (by simp [begins]) (fun byte member => by simpa using List.mem_takeWhile_imp member) ends
    rw [List.takeWhile_append_dropWhile] at found
    rw [split, found]
    exact ⟨rfl, rfl⟩

-- A word that is there goes up to the first delimiter, which is used up.
theorem strtok_word (delimiters : List UInt8) (word rest : CStr) (nonempty : word ≠ [])
    (proper : ∀ byte ∈ word, byte ∉ delimiters) (ends : ∀ byte ∈ rest.head?, byte ∈ delimiters) :
    strtok (word ++ rest) delimiters = (some word, rest.drop 1) := by
  obtain ⟨first, more, rfl⟩ := List.exists_cons_of_ne_nil nonempty
  have begins : first ∉ delimiters := proper first (List.mem_cons_self ..)
  have within : ∀ byte ∈ first :: more, decide (byte ∉ delimiters) = true := fun byte member =>
    decide_eq_true (proper byte member)
  have start : (first :: more ++ rest).dropWhile (· ∈ delimiters) = first :: more ++ rest :=
    List.dropWhile_cons_of_neg (by simpa using begins)
  rw [strtok]
  simp only [start]
  rw [if_neg (by simp), List.takeWhile_append_of_pos within, List.dropWhile_append_of_pos within]
  cases rest with
  | nil => simp
  | cons mark rest =>
    have separates : mark ∈ delimiters := ends mark rfl
    simp [separates]

-- A token is not empty, and a delimiter stands between it and what is left.
theorem strtok_length (delimiters : List UInt8) (saved word : CStr)
    (found : (strtok saved delimiters).1 = some word) :
    0 < word.length ∧ word.length + (strtok saved delimiters).2.length +
      min 1 (strtok saved delimiters).2.length ≤ saved.length := by
  unfold strtok at found ⊢
  dsimp only at found ⊢
  split_ifs at found ⊢ with empty
  obtain rfl := Option.some.inj found
  have shorter : (saved.dropWhile (· ∈ delimiters)).length ≤ saved.length :=
    (List.dropWhile_suffix _).length_le
  have stopped := List.head?_dropWhile_not (fun byte => decide (byte ∈ delimiters)) saved
  generalize saved.dropWhile (fun byte => decide (byte ∈ delimiters)) = text at empty shorter stopped
  obtain ⟨first, more, rfl⟩ := List.exists_cons_of_ne_nil empty
  have begins : first ∉ delimiters := by simpa using stopped
  have parts := congrArg List.length
    (List.takeWhile_append_dropWhile (p := fun byte => decide (byte ∉ delimiters)) (l := first :: more))
  rw [List.length_append] at parts
  refine ⟨by simp [begins], ?_⟩
  rw [List.length_drop]
  omega

-- A line without the carriage return that may stand before its line feed.
def withoutCr (line : CStr) : CStr := if line.getLast? = some 13 then line.dropLast else line

theorem withoutCr_snoc (line : CStr) : withoutCr (line ++ [13]) = line := by
  simp [withoutCr]

theorem withoutCr_other (line : CStr) (other : line.getLast? ≠ some 13) : withoutCr line = line := by
  simp [withoutCr, other]

theorem withoutCr_cases (line : CStr) :
    line = withoutCr line ++ [13] ∨ line = withoutCr line ∧ line.getLast? ≠ some 13 := by
  by_cases ends : line.getLast? = some 13
  · left
    obtain ⟨before, rfl⟩ := List.getLast?_eq_some_iff.mp ends
    rw [withoutCr_snoc]
  · exact Or.inr ⟨(withoutCr_other line ends).symm, ends⟩

theorem mem_withoutCr (line : CStr) (byte : UInt8) (member : byte ∈ withoutCr line) : byte ∈ line := by
  unfold withoutCr at member
  split_ifs at member
  · exact (List.dropLast_sublist line).subset member
  · exact member

theorem strstr_none (text needle : CStr) (missing : strstr text needle = none) (before after : CStr) :
    text ≠ before ++ needle ++ after := by
  induction text generalizing before with
  | nil =>
    intro split
    have empty : needle = [] := by simp_all
    simp [strstr, empty] at missing
  | cons byte rest ih =>
    intro split
    simp only [strstr] at missing
    split_ifs at missing with here
    cases before with
    | nil => exact here (List.isPrefixOf_iff_prefix.mpr ⟨after, split.symm⟩)
    | cons first before =>
      simp only [List.cons_append, List.cons.injEq] at split
      exact ih (Option.map_eq_none_iff.mp missing) before split.2

theorem strstr_some (text needle : CStr) (position : Nat) (found : strstr text needle = some position) :
    ∃ before after, before.length = position ∧ text = before ++ needle ++ after := by
  induction text generalizing position with
  | nil =>
    simp only [strstr] at found
    split_ifs at found with empty
    exact ⟨[], [], Option.some.inj found, by simp [empty]⟩
  | cons byte rest ih =>
    simp only [strstr] at found
    split_ifs at found with here
    · obtain ⟨after, split⟩ := List.isPrefixOf_iff_prefix.mp here
      exact ⟨[], after, Option.some.inj found, split.symm⟩
    · obtain ⟨inner, inside, rfl⟩ := Option.map_eq_some_iff.mp found
      obtain ⟨before, after, rfl, split⟩ := ih inner inside
      exact ⟨byte :: before, after, rfl, by rw [split]; rfl⟩

theorem cString_whole (text : CStr) (proper : 0 ∉ text) : cString text = text := by
  unfold cString
  rw [List.takeWhile_eq_self_iff]
  intro byte member
  simp only [decide_eq_true_eq]
  rintro rfl
  exact proper member

theorem split_first {A : Type} (mark : A) (before other after rest : List A)
    (first : mark ∉ before) (second : mark ∉ other)
    (same : before ++ mark :: after = other ++ mark :: rest) : before = other ∧ after = rest := by
  induction before generalizing other with
  | nil =>
    cases other with
    | nil => simpa using same
    | cons byte other =>
      have head : mark = byte := (List.cons.inj same).1
      exact absurd (head ▸ List.mem_cons_self) second
  | cons byte before ih =>
    cases other with
    | nil =>
      have head : byte = mark := (List.cons.inj same).1
      exact absurd (head ▸ List.mem_cons_self) first
    | cons byte' other =>
      obtain ⟨head, tail⟩ := List.cons.inj same
      obtain ⟨equal, tails⟩ := ih other (fun member => first (List.mem_cons_of_mem _ member))
        (fun member => second (List.mem_cons_of_mem _ member)) tail
      exact ⟨by rw [head, equal], tails⟩

end SPHomework.Lib
