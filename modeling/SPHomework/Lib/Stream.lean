import SPHomework.Lib.CString

set_option autoImplicit false

/-!
# Lines of a stream

A stream is the list of the bytes that are still to be read.
-/

namespace SPHomework.Lib

-- The bytes of the next line with its line feed, of which `fgets` takes no more than `limit`.
def lineLength : Nat → List UInt8 → Nat
  | 0, _ => 0
  | _ + 1, [] => 0
  | limit + 1, byte :: rest => if byte = 10 then 1 else lineLength limit rest + 1

/-- `fgets` with a buffer of `size` bytes: what it stores before the NUL, and what is left. At the end
of the file it returns a null pointer. -/
def fgets (size : Nat) (file : List UInt8) : Option (List UInt8 × List UInt8) :=
  if file = [] then none else some (file.splitAt (lineLength (size - 1) file))

theorem lineLength_line (limit : Nat) (line rest : List UInt8) (short : line.length < limit)
    (oneLine : 10 ∉ line) : lineLength limit (line ++ 10 :: rest) = line.length + 1 := by
  induction line generalizing limit with
  | nil =>
    obtain ⟨limit, rfl⟩ : ∃ less, limit = less + 1 := ⟨limit - 1, by simp at short; omega⟩
    simp [lineLength]
  | cons byte line ih =>
    obtain ⟨limit, rfl⟩ : ∃ less, limit = less + 1 := ⟨limit - 1, by simp at short; omega⟩
    have other : byte ≠ 10 := by
      rintro rfl
      simp at oneLine
    have later := ih limit (by simpa using short) fun member => oneLine (List.mem_cons_of_mem _ member)
    simp [lineLength, other, later]

/-- A line that the buffer holds with its line feed is read as a whole. -/
theorem fgets_line (size : Nat) (line rest : List UInt8) (short : line.length + 1 < size)
    (oneLine : 10 ∉ line) : fgets size (line ++ 10 :: rest) = some (line ++ [10], rest) := by
  have whole : line ++ 10 :: rest = (line ++ [10]) ++ rest := by simp
  have length := lineLength_line (size - 1) line rest (by omega) oneLine
  rw [fgets, if_neg (by simp), length, List.splitAt_eq, whole, List.take_left' (by simp), List.drop_left' (by simp)]

theorem lineLength_pos (limit : Nat) (file : List UInt8) (room : 0 < limit) (more : file ≠ []) :
    0 < lineLength limit file := by
  obtain ⟨limit, rfl⟩ : ∃ less, limit = less + 1 := ⟨limit - 1, by omega⟩
  obtain ⟨byte, rest, rfl⟩ := List.exists_cons_of_ne_nil more
  rw [lineLength]
  split <;> omega

theorem lineLength_le (limit : Nat) (file : List UInt8) :
    lineLength limit file ≤ limit ∧ lineLength limit file ≤ file.length := by
  induction limit generalizing file with
  | zero => simp [lineLength]
  | succ limit ih =>
    cases file with
    | nil => simp [lineLength]
    | cons byte rest =>
      have later := ih rest
      rw [lineLength, List.length_cons]
      split <;> omega

/-- What `fgets` returns is at most what the buffer holds, and the file gets shorter. -/
theorem fgets_cases (size : Nat) (file line rest : List UInt8) (room : 1 < size)
    (read : fgets size file = some (line, rest)) :
    file = line ++ rest ∧ line ≠ [] ∧ line.length < size := by
  unfold fgets at read
  split at read
  · cases read
  rename_i more
  obtain ⟨below, inside⟩ := lineLength_le (size - 1) file
  have positive := lineLength_pos (size - 1) file (by omega) more
  rw [List.splitAt_eq, Option.some.injEq, Prod.mk.injEq] at read
  obtain ⟨rfl, rfl⟩ := read
  refine ⟨(List.take_append_drop _ file).symm, ?_, ?_⟩
  · rw [← List.length_pos_iff, List.length_take]
    omega
  · rw [List.length_take]
    omega

end SPHomework.Lib
