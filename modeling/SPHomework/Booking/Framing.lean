import SPHomework.Booking.Server
import SPHomework.Lib.Text

set_option autoImplicit false

/-!
# Lines and segments

What `handle_read` makes of a stream of lines, however TCP cuts it into chunks.
-/

namespace SPHomework.Booking

open Lib

-- The stream of lines that each end in LF, and may have a CR before it.
def streamOf (bodies : List CStr) : List UInt8 := (bodies.map (· ++ lf)).flatten

/-- What `strstr` sees of a chunk: a full `buf[512]` has no NUL, and the bytes behind it follow. -/
def inBuffer (behind chunk : List UInt8) : List UInt8 :=
  if chunk.length < 512 then chunk else chunk ++ behind

-- A world in which the one read returns the given input.
def reading (input : Input) (world : Unit) : (call : Call) → Option (Answer call × Unit)
  | .recv _ => some (input, world)
  | _ => none

/-- The lines that `handle_read` hands on, until it closes the connection or reads the last chunk;
nothing when it ends the process. `behind` is what follows `buf` when so many chunks are left. -/
def handed (fd : Nat) (behind : Nat → List UInt8) (memory : Memory) :
    List (List UInt8) → Option (List CStr)
  | [] => some []
  | chunk :: rest =>
    match (handleRead fd memory).perform (reading (.chunk (inBuffer (behind rest.length) chunk))) () with
    | some (_, .done after ret) =>
      if ret ≤ 0 then some []
      else (handed fd behind after rest).map (cString (after.requestP fd).buf :: ·)
    | _ => none

theorem frame_end (bytes : List UInt8) (length : Nat) (framed : frame bytes = .line length) :
    ∃ before after, before.length = length ∧
      (cString bytes = before ++ [13] ++ 10 :: after ∨
        cString bytes = before ++ 10 :: after ∧ before.getLast? ≠ some 13) := by
  rcases frame_position framed with found | ⟨ends, found⟩
  · obtain ⟨before, after, length, split⟩ := strstr_some _ crlf _ found
    exact ⟨before, after, length, Or.inl (by simpa [crlf] using split)⟩
  · obtain ⟨before, after, length, split⟩ := strstr_some _ lf _ found
    refine ⟨before, after, length, Or.inr ⟨by simpa [lf] using split, ?_⟩⟩
    intro last
    obtain ⟨start, rfl⟩ := List.getLast?_eq_some_iff.mp last
    exact strstr_none _ crlf ends start after (by simpa [lf, crlf] using split)

theorem frame_found (body after : CStr) (proper : 0 ∉ body ++ 10 :: after) :
    ∃ length, frame (body ++ 10 :: after) = .line length := by
  unfold frame
  rw [cString_whole _ proper]
  rcases strstr (body ++ 10 :: after) crlf with _ | position
  · rcases stops : strstr (body ++ 10 :: after) lf with _ | position
    · exact absurd (by simp [lf]) (strstr_none _ lf stops body after)
    · exact ⟨position, rfl⟩
  · exact ⟨position, rfl⟩

theorem frame_single (body after : CStr) (proper : 0 ∉ body ++ 10 :: after) (first : 10 ∉ body)
    (only : 10 ∉ after) : frame (body ++ 10 :: after) = .line (withoutCr body).length := by
  obtain ⟨length, framed⟩ := frame_found body after proper
  obtain ⟨before, rest, rfl, cases_⟩ := frame_end _ _ framed
  rw [cString_whole _ proper] at cases_
  rw [framed]
  rcases cases_ with split | ⟨split, plain⟩
  · have same := (List.append_cons_inj_of_notMem first only).mp split
    rw [same.1, withoutCr_snoc]
  · have same := (List.append_cons_inj_of_notMem first only).mp split
    rw [same.1, withoutCr_other before plain]

def framed (behind : Nat → List UInt8) : List (List UInt8) → Option (List CStr)
  | [] => some []
  | chunk :: rest =>
    match frame (inBuffer (behind rest.length) chunk) with
    | .line length =>
      (framed behind rest).map ((inBuffer (behind rest.length) chunk).take length :: ·)
    | .interrupted => some []
    | .fatal => none

-- The lines do not depend on what the buffer held before.
theorem handed_framed (fd : Nat) (behind : Nat → List UInt8) (memory : Memory)
    (chunks : List (List UInt8)) : handed fd behind memory chunks = framed behind chunks := by
  induction chunks generalizing memory with
  | nil => rfl
  | cons chunk rest ih =>
    have performed : (handleRead fd memory).perform
        (reading (.chunk (inBuffer (behind rest.length) chunk))) () =
          match frame (inBuffer (behind rest.length) chunk) with
          | .line length =>
            some ((), .done (setRequest fd ((memory.requestP fd).fill
              (inBuffer (behind rest.length) chunk) length) memory) 1)
          | .interrupted => some ((), .done memory 0)
          | .fatal => some ((), .halt memory) := by
      simp only [handleRead, Code.bind_run, slot_run, syscall_run, Prog.bind_done, Prog.bind_call,
        Prog.perform, reading]
      rcases frame (inBuffer (behind rest.length) chunk) with length | _ | _ <;> rfl
    unfold handed framed
    rw [performed]
    rcases ends : frame (inBuffer (behind rest.length) chunk) with length | _ | _
    · simp [Request.fill_line _ _ _ ends, ih]
    · rfl
    · rfl

def afterLf (chunk : List UInt8) : List UInt8 := (chunk.dropWhile (· ≠ 10)).drop 1

/-- Each chunk holds one LF, and after it nothing, or only the CR of an empty line whose LF begins
the next chunk. -/
def Aligned : List (List UInt8) → Prop
  | [] => True
  | chunk :: rest =>
    10 ∈ chunk ∧
      (afterLf chunk = [] ∨ afterLf chunk = [13] ∧ rest.head?.bind List.head? = some 10) ∧
      Aligned rest

def alignedDecidable : (chunks : List (List UInt8)) → Decidable (Aligned chunks)
  | [] => inferInstanceAs (Decidable True)
  | chunk :: rest =>
    have : Decidable (Aligned rest) := alignedDecidable rest
    inferInstanceAs (Decidable (10 ∈ chunk ∧
      (afterLf chunk = [] ∨ afterLf chunk = [13] ∧ rest.head?.bind List.head? = some 10) ∧
      Aligned rest))

instance (chunks : List (List UInt8)) : Decidable (Aligned chunks) := alignedDecidable chunks

-- A byte stream of complete lines, and the chunks in which it is read.
structure Segmentation (bodies : List CStr) (chunks : List (List UInt8)) : Prop where
  lines : ∀ body ∈ bodies, 0 ∉ body ∧ 10 ∉ body ∧ (withoutCr body).length < 500
  pieces : ∀ chunk ∈ chunks, chunk ≠ [] ∧ chunk.length ≤ 512
  stream : chunks.flatten = streamOf bodies

theorem afterLf_append (body after : List UInt8) (first : 10 ∉ body) :
    afterLf (body ++ 10 :: after) = after := by
  have past : ∀ byte ∈ body, decide (byte ≠ 10) = true := by
    intro byte member
    simpa using fun equal : byte = 10 => first (equal ▸ member)
  unfold afterLf
  rw [List.dropWhile_append_of_pos past]
  rfl

theorem afterLf_split (chunk : List UInt8) (some_ : 10 ∈ chunk) :
    ∃ body, 10 ∉ body ∧ chunk = body ++ 10 :: afterLf chunk := by
  obtain ⟨body, after, split, first⟩ := List.eq_append_cons_of_mem some_
  refine ⟨body, first, ?_⟩
  rw [split, afterLf_append body after first]

theorem cString_inBuffer (behind chunk : List UInt8) (proper : 0 ∉ chunk) :
    ∃ more, cString (inBuffer behind chunk) = chunk ++ more ∧ (more = [] ∨ 512 ≤ chunk.length) := by
  unfold inBuffer
  split_ifs with short
  · exact ⟨[], by rw [cString_whole chunk proper, List.append_nil], Or.inl rfl⟩
  · refine ⟨cString behind, ?_, Or.inr (by omega)⟩
    unfold cString
    apply List.takeWhile_append_of_pos
    intro byte member
    simpa using fun equal : byte = 0 => proper (equal ▸ member)

theorem line_of_chunk (behind chunk : List UInt8) (length : Nat) (proper : 0 ∉ chunk)
    (framed : frame (inBuffer behind chunk) = .line length) (short : length < 500) :
    ∃ line cr after, (inBuffer behind chunk).take length = line ∧
      chunk = line ++ cr ++ 10 :: after ∧ (cr = [13] ∨ cr = [] ∧ line.getLast? ≠ some 13) := by
  obtain ⟨line, rest, rfl, ending⟩ := frame_end _ _ framed
  obtain ⟨more, whole, full⟩ := cString_inBuffer behind chunk proper
  obtain ⟨cr, split, mark⟩ : ∃ cr, chunk ++ more = line ++ cr ++ 10 :: rest ∧
      (cr = [13] ∨ cr = [] ∧ line.getLast? ≠ some 13) := by
    rcases ending with split | ⟨split, plain⟩
    · exact ⟨[13], whole ▸ split, Or.inl rfl⟩
    · exact ⟨[], by rw [← whole, split, List.append_nil], Or.inr ⟨rfl, plain⟩⟩
  have small : cr.length ≤ 1 := by
    rcases mark with rfl | ⟨rfl, plain⟩ <;> simp
  have inside : ∃ after, chunk = line ++ cr ++ 10 :: after := by
    have pieces : chunk ++ more = (line ++ cr ++ [10]) ++ rest := by simpa using split
    rcases List.append_eq_append_iff.mp pieces with ⟨extra, longer, behind_⟩ | ⟨extra, shorter, rest_⟩
    · rcases full with rfl | full
      · have nothing := (List.append_eq_nil_iff.mp behind_.symm).1
        exact ⟨[], by rw [nothing, List.append_nil] at longer; simpa using longer.symm⟩
      · have count := congrArg List.length longer
        simp only [List.length_append, List.length_singleton] at count
        omega
    · exact ⟨extra, by simpa using shorter⟩
  obtain ⟨after, inside⟩ := inside
  refine ⟨line, cr, after, ?_, inside, mark⟩
  have begins : ∃ rest, inBuffer behind chunk = line ++ rest := by
    unfold inBuffer
    split_ifs
    · exact ⟨cr ++ 10 :: after, by simpa using inside⟩
    · exact ⟨cr ++ 10 :: after ++ behind, by rw [inside]; simp⟩
  obtain ⟨rest, begins⟩ := begins
  rw [begins, List.take_left]

@[simp] theorem streamOf_cons (body : CStr) (bodies : List CStr) :
    streamOf (body :: bodies) = body ++ 10 :: streamOf bodies := by
  simp [streamOf, lf]

theorem streamOf_count (bodies : List CStr) (lines : ∀ body ∈ bodies, 10 ∉ body) :
    (streamOf bodies).count 10 = bodies.length := by
  induction bodies with
  | nil => rfl
  | cons body rest ih =>
    have none_ := List.count_eq_zero.mpr (lines body List.mem_cons_self)
    have more := ih fun other member => lines other (List.mem_cons_of_mem _ member)
    simp [none_, more]

theorem streamOf_proper (bodies : List CStr) (lines : ∀ body ∈ bodies, 0 ∉ body) :
    0 ∉ streamOf bodies := by
  induction bodies with
  | nil => exact List.not_mem_nil
  | cons body rest ih =>
    have more := ih fun other member => lines other (List.mem_cons_of_mem _ member)
    simpa [lines body List.mem_cons_self] using more

-- A stream that is not at its end has a next line, up to its first LF.
theorem streamOf_next (bodies : List CStr) (lines : ∀ body ∈ bodies, 10 ∉ body)
    (start rest : List UInt8) (first : 10 ∉ start) (stream : start ++ 10 :: rest = streamOf bodies) :
    ∃ more, bodies = start :: more ∧ rest = streamOf more := by
  cases bodies with
  | nil => simp [streamOf] at stream
  | cons body more =>
    rw [streamOf_cons] at stream
    obtain ⟨rfl, rfl⟩ := split_first 10 start body rest (streamOf more) first
      (lines body List.mem_cons_self) stream
    exact ⟨more, rfl, rfl⟩

-- What a chunk leaves of the next line: nothing, or the CR of an empty one.
def Carried (carry : List UInt8) (chunks : List (List UInt8)) : Prop :=
  carry = [] ∨ carry = [13] ∧ chunks.head?.bind List.head? = some 10

theorem Carried.quiet {carry : List UInt8} {chunks : List (List UInt8)}
    (carried : Carried carry chunks) : 10 ∉ carry := by
  rcases carried with rfl | ⟨rfl, next⟩ <;> decide

theorem withoutCr_length (line : CStr) : line.length ≤ (withoutCr line).length + 1 := by
  rcases withoutCr_cases line with split | ⟨same, plain⟩
  · have length := congrArg List.length split
    simp only [List.length_append, List.length_singleton] at length
    omega
  · rw [← same]
    omega

-- The CR that a chunk has left over belongs to an empty line, and goes with it.
theorem withoutCr_carried {carry body after : List UInt8} {rest : List (List UInt8)}
    (carried : Carried carry ((body ++ 10 :: after) :: rest)) (first : 10 ∉ body) :
    withoutCr (carry ++ body) = withoutCr body := by
  rcases carried with rfl | ⟨rfl, next⟩
  · rfl
  · cases body with
    | nil => rfl
    | cons byte body =>
      have head : byte = 10 := by simpa using next
      exact absurd (head ▸ List.mem_cons_self) first

-- A chunk with one LF is read as the line before it.
theorem frame_aligned (behind body after : List UInt8) (first : 10 ∉ body) (last : 10 ∉ after)
    (proper : 0 ∉ body ++ 10 :: after) (fits : (body ++ 10 :: after).length < 512) :
    frame (inBuffer behind (body ++ 10 :: after)) = .line (withoutCr body).length ∧
      (inBuffer behind (body ++ 10 :: after)).take (withoutCr body).length = withoutCr body := by
  have visible : inBuffer behind (body ++ 10 :: after) = body ++ 10 :: after := if_pos fits
  rw [visible]
  refine ⟨frame_single body after proper first last, ?_⟩
  rcases withoutCr_cases body with cut | ⟨whole, plain⟩
  · rw [cut, withoutCr_snoc, List.append_assoc, List.take_left]
  · rw [← whole, List.take_left]

theorem aligned_framed (behind : Nat → List UInt8) (bodies : List CStr) (chunks : List (List UInt8))
    (carry : List UInt8)
    (lines : ∀ body ∈ bodies, 0 ∉ body ∧ 10 ∉ body ∧ (withoutCr body).length < 500)
    (stream : carry ++ chunks.flatten = streamOf bodies) (carried : Carried carry chunks)
    (aligned : Aligned chunks) : framed behind chunks = some (bodies.map withoutCr) := by
  induction chunks generalizing bodies carry with
  | nil =>
    rcases carried with rfl | ⟨rfl, next⟩
    · cases bodies with
      | nil => rfl
      | cons body more => simp at stream
    · simp at next
  | cons chunk rest ih =>
    obtain ⟨here, after, later⟩ := aligned
    obtain ⟨body, first, split⟩ := afterLf_split chunk here
    have quiet := carried.quiet
    have stream' : (carry ++ body) ++ 10 :: (afterLf chunk ++ rest.flatten) = streamOf bodies := by
      rw [← stream]
      conv_rhs => rw [List.flatten_cons, split]
      simp
    obtain ⟨more, rfl, tail⟩ := streamOf_next bodies (fun other member => (lines other member).2.1)
      (carry ++ body) _ (by simp [quiet, first]) stream'
    obtain ⟨⟨proper, -, short⟩, lines⟩ := List.forall_mem_cons.mp lines
    have long := withoutCr_length (carry ++ body)
    have small : (afterLf chunk).length ≤ 1 ∧ 0 ∉ afterLf chunk ∧ 10 ∉ afterLf chunk := by
      rcases after with empty | ⟨cr, next⟩
      · simp [empty]
      · simp [cr]
    have whole : 0 ∉ body ++ 10 :: afterLf chunk := by
      rw [List.mem_append, List.mem_cons]
      rintro (inside | mark | inside)
      · exact proper (List.mem_append_right carry inside)
      · exact absurd mark (by decide)
      · exact small.2.1 inside
    have fits : (body ++ 10 :: afterLf chunk).length < 512 := by
      rw [List.length_append] at long
      rw [List.length_append, List.length_cons]
      omega
    obtain ⟨line, begins⟩ := frame_aligned (behind rest.length) body (afterLf chunk) first small.2.2 whole fits
    rw [← split] at line begins
    have same : withoutCr (carry ++ body) = withoutCr body := withoutCr_carried (split ▸ carried) first
    rw [framed, line, ih more (afterLf chunk) lines tail after later]
    simp [begins, same]

theorem framed_cons (behind : Nat → List UInt8) (chunk : List UInt8) (rest : List (List UInt8))
    (line : CStr) (lines : List CStr) (hand : framed behind (chunk :: rest) = some (line :: lines)) :
    framed behind rest = some lines ∧ frame (inBuffer (behind rest.length) chunk) = .line line.length ∧
      (inBuffer (behind rest.length) chunk).take line.length = line := by
  unfold framed at hand
  rcases ends : frame (inBuffer (behind rest.length) chunk) with length | _ | _
  · rw [ends] at hand
    obtain ⟨others, found, same⟩ := Option.map_eq_some_iff.mp hand
    obtain ⟨head, rfl⟩ := List.cons.inj same
    have inside := frame_line _ _ ends
    have shorter : (cString (inBuffer (behind rest.length) chunk)).length
        ≤ (inBuffer (behind rest.length) chunk).length := (List.takeWhile_prefix _).length_le
    have size : line.length = length := by
      rw [← head, List.length_take]
      omega
    rw [size]
    exact ⟨found, rfl, head⟩
  · rw [ends] at hand
    simp at hand
  · rw [ends] at hand
    simp at hand

theorem framed_chunk (behind : Nat → List UInt8) (chunk : List UInt8) (rest : List (List UInt8))
    (line : CStr) (lines : List CStr) (hand : framed behind (chunk :: rest) = some (line :: lines))
    (proper : 0 ∉ chunk) (short : line.length < 500) :
    framed behind rest = some lines ∧ ∃ cr after, chunk = line ++ cr ++ 10 :: after ∧
      (cr = [13] ∨ cr = [] ∧ line.getLast? ≠ some 13) := by
  obtain ⟨others, ends, head⟩ := framed_cons behind chunk rest line lines hand
  obtain ⟨line', cr, after, same, split, mark⟩ := line_of_chunk _ chunk _ proper ends short
  obtain rfl := head.symm.trans same
  exact ⟨others, cr, after, split, mark⟩

theorem framed_count (behind : Nat → List UInt8) (chunks : List (List UInt8)) (lines : List CStr)
    (hand : framed behind chunks = some lines) (proper : 0 ∉ chunks.flatten)
    (short : ∀ line ∈ lines, line.length < 500) : lines.length ≤ chunks.flatten.count 10 := by
  induction chunks generalizing lines with
  | nil =>
    obtain rfl := Option.some.inj hand
    exact Nat.le_refl 0
  | cons chunk rest ih =>
    rw [List.flatten_cons, List.mem_append, not_or] at proper
    cases lines with
    | nil => exact Nat.zero_le _
    | cons line lines =>
      obtain ⟨others, cr, after, split, mark⟩ := framed_chunk behind chunk rest line lines hand
        proper.1 (short line List.mem_cons_self)
      have more := ih lines others proper.2 fun other member =>
        short other (List.mem_cons_of_mem _ member)
      have one : 0 < chunk.count 10 := List.count_pos_iff.mpr (by rw [split]; simp)
      rw [List.flatten_cons, List.count_append, List.length_cons]
      omega

-- A line read right tells what the chunk before it left over.
theorem carried_of_line (carry line cr after : List UInt8) (rest : List (List UInt8))
    (read : withoutCr (carry ++ line ++ cr) = line)
    (mark : cr = [13] ∨ cr = [] ∧ line.getLast? ≠ some 13) :
    Carried carry ((line ++ cr ++ 10 :: after) :: rest) := by
  rcases mark with rfl | ⟨rfl, plain⟩
  · rw [withoutCr_snoc] at read
    exact Or.inl (List.append_left_eq_self.mp read)
  · rw [List.append_nil] at read ⊢
    rcases withoutCr_cases (carry ++ line) with cut | ⟨whole, -⟩
    · rw [read] at cut
      by_cases empty : line = []
      · subst empty
        rw [List.append_nil] at cut
        exact Or.inr ⟨cut, rfl⟩
      · have last := congrArg List.getLast? cut
        rw [List.getLast?_append_of_ne_nil carry empty, List.getLast?_concat] at last
        exact absurd last plain
    · rw [read] at whole
      exact Or.inl (List.append_left_eq_self.mp whole)

theorem framed_aligned (behind : Nat → List UInt8) (bodies : List CStr) (chunks : List (List UInt8))
    (carry : List UInt8)
    (lines : ∀ body ∈ bodies, 0 ∉ body ∧ 10 ∉ body ∧ (withoutCr body).length < 500)
    (pieces : ∀ chunk ∈ chunks, chunk ≠ []) (stream : carry ++ chunks.flatten = streamOf bodies)
    (quiet : 10 ∉ carry) (hand : framed behind chunks = some (bodies.map withoutCr)) :
    Carried carry chunks ∧ Aligned chunks := by
  induction chunks generalizing bodies carry with
  | nil =>
    rw [List.flatten_nil, List.append_nil] at stream
    cases bodies with
    | nil => exact ⟨Or.inl stream, trivial⟩
    | cons body more => simp [stream] at quiet
  | cons chunk rest ih =>
    cases bodies with
    | nil =>
      have empty : chunk = [] := by
        have none_ := (List.append_eq_nil_iff.mp stream).2
        rw [List.flatten_cons] at none_
        exact (List.append_eq_nil_iff.mp none_).1
      exact absurd empty (pieces chunk List.mem_cons_self)
    | cons body more =>
      have whole : 0 ∉ carry ++ (chunk :: rest).flatten := by
        rw [stream]
        exact streamOf_proper _ fun other member => (lines other member).1
      have feeds : ∀ other ∈ body :: more, 10 ∉ other := fun other member => (lines other member).2.1
      obtain ⟨⟨-, noLf, short⟩, lines⟩ := List.forall_mem_cons.mp lines
      rw [List.flatten_cons, List.mem_append, List.mem_append, not_or, not_or] at whole
      obtain ⟨others, cr, after, split, mark⟩ := framed_chunk behind chunk rest (withoutCr body)
        (more.map withoutCr) hand whole.2.1 short
      have noFeed : 10 ∉ carry ++ withoutCr body ++ cr := by
        have noCr : 10 ∉ cr := by
          rcases mark with rfl | ⟨rfl, -⟩ <;> decide
        rw [List.mem_append, List.mem_append]
        rintro ((inside | inside) | inside)
        · exact quiet inside
        · exact noLf (mem_withoutCr body 10 inside)
        · exact noCr inside
      have stream' : (carry ++ withoutCr body ++ cr) ++ 10 :: (after ++ rest.flatten)
          = streamOf (body :: more) := by
        rw [← stream, List.flatten_cons]
        conv_rhs => rw [split]
        simp
      obtain ⟨more', same, tail⟩ := streamOf_next _ feeds _ _ noFeed stream'
      obtain ⟨whole', rfl⟩ := List.cons.inj same
      have count := streamOf_count more fun other member => (lines other member).2.1
      have most := framed_count behind rest (more.map withoutCr) others whole.2.2 (by
        intro line member
        obtain ⟨other, inside, rfl⟩ := List.mem_map.mp member
        exact (lines other inside).2.2)
      -- As many lines as chunks, so the chunk has no second LF.
      have once : 10 ∉ after := by
        rw [← tail, List.count_append] at count
        rw [List.length_map] at most
        exact List.count_eq_zero.mp (by omega)
      obtain ⟨carried, aligned⟩ := ih more after lines (List.forall_mem_cons.mp pieces).2 tail once others
      have line : 10 ∉ withoutCr body ++ cr := fun inside => noFeed (by
        rw [List.append_assoc]
        exact List.mem_append_right carry inside)
      refine ⟨?_, ?_, ?_, aligned⟩
      · rw [split]
        exact carried_of_line carry _ cr after rest (by rw [← whole']) mark
      · rw [split]
        simp
      · rw [split, afterLf_append _ after line]
        exact carried

/-- `handle_read` hands on the lines of the stream exactly when every chunk ends where a line ends,
up to the CR of an empty line. -/
theorem framing_iff (fd : Nat) (behind : Nat → List UInt8) (memory : Memory) (bodies : List CStr)
    (chunks : List (List UInt8)) (segments : Segmentation bodies chunks) :
    handed fd behind memory chunks = some (bodies.map withoutCr) ↔ Aligned chunks := by
  rw [handed_framed]
  constructor
  · intro hand
    have pieces : ∀ chunk ∈ chunks, chunk ≠ [] := fun chunk member => (segments.pieces chunk member).1
    exact (framed_aligned behind bodies chunks [] segments.lines pieces segments.stream
      List.not_mem_nil hand).2
  · intro aligned
    exact aligned_framed behind bodies chunks [] segments.lines segments.stream (Or.inl rfl) aligned

def blankMemory : Memory where
  requestP _ := ⟨-1, [], 0, 0, 0⟩
  readLock _ := 0
  writeLock _ := false
  masterSet _ := false

def idText : CStr := ofChars ['9', '0', '2', '0', '0', '1']

theorem framing_two_lines :
    handed 4 (fun _ => []) blankMemory [idText ++ [13, 10], ofChars ['0'] ++ [10]] =
      some [idText, ofChars ['0']] := by
  have segments : Segmentation [idText ++ [13], ofChars ['0']]
      [idText ++ [13, 10], ofChars ['0'] ++ [10]] :=
    ⟨by decide +kernel, by decide +kernel, by decide +kernel⟩
  exact (framing_iff 4 (fun _ => []) blankMemory _ _ segments).mpr (by decide +kernel)

-- One line in two segments ends the process.
theorem framing_split :
    Segmentation [idText] [idText.take 4, idText.drop 4 ++ [10]] ∧
      handed 4 (fun _ => []) blankMemory [idText.take 4, idText.drop 4 ++ [10]] = none := by
  refine ⟨⟨by decide +kernel, by decide +kernel, by decide +kernel⟩, ?_⟩
  rw [handed_framed]
  decide +kernel

end SPHomework.Booking
