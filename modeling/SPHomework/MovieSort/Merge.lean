import SPHomework.MovieSort.Filter

set_option autoImplicit false

/-!
# The merge loop

Both servers merge with the same loop. It picks indices; what it copies to the
temporary arrays and back is what the arrays hold there.
-/

namespace SPHomework.MovieSort

open Lib

/-- The indices that the loop copies from, in order: `first` says whether the left one goes first. -/
def mergeLoop (first : Nat → Nat → Bool) (mid r : Nat) : Nat → Nat → Nat → List Nat
  | 0, _, _ => []
  | count + 1, lptr, rptr =>
    if rptr = r then lptr :: mergeLoop first mid r count (lptr + 1) rptr
    else if lptr = mid then rptr :: mergeLoop first mid r count lptr (rptr + 1)
    else if first lptr rptr then lptr :: mergeLoop first mid r count (lptr + 1) rptr
    else rptr :: mergeLoop first mid r count lptr (rptr + 1)

def writeBack {A : Type} (array : Nat → A) : Nat → List A → Nat → A
  | _, [] => array
  | writePtr, value :: rest => writeBack (Function.update array writePtr value) (writePtr + 1) rest

def span (l r : Nat) : List Nat := List.range' l (r - l)

theorem span_cons (l r : Nat) (inside : l < r) : span l r = l :: span (l + 1) r := by
  have width : r - l = r - (l + 1) + 1 := by omega
  rw [span, width, List.range'_succ, span]

theorem span_self (l : Nat) : span l l = [] := by simp [span]

theorem mem_span {l r i : Nat} : i ∈ span l r ↔ l ≤ i ∧ i < r := by
  simp only [span, List.mem_range'_1]
  omega

theorem span_append (l mid r : Nat) (low : l ≤ mid) (high : mid ≤ r) :
    span l mid ++ span mid r = span l r := by
  have width : r - l = (mid - l) + (r - mid) := by omega
  have start : mid = l + (mid - l) := by omega
  simp only [span]
  rw [width]
  nth_rewrite 2 [start]
  exact List.range'_append_1

theorem mergeLoop_perm (first : Nat → Nat → Bool) (mid r count lptr rptr : Nat) (low : lptr ≤ mid)
    (high : rptr ≤ r) (total : count = (mid - lptr) + (r - rptr)) :
    (mergeLoop first mid r count lptr rptr).Perm (span lptr mid ++ span rptr r) := by
  induction count generalizing lptr rptr with
  | zero =>
    obtain rfl : lptr = mid := by omega
    obtain rfl : rptr = r := by omega
    simp [mergeLoop, span_self]
  | succ count ih =>
    have left : lptr < mid → (lptr :: mergeLoop first mid r count (lptr + 1) rptr).Perm
        (span lptr mid ++ span rptr r) := by
      intro inside
      rw [span_cons lptr mid inside]
      exact (ih (lptr + 1) rptr inside high (by omega)).cons lptr
    have right : rptr < r → (rptr :: mergeLoop first mid r count lptr (rptr + 1)).Perm
        (span lptr mid ++ span rptr r) := by
      intro inside
      rw [span_cons rptr r inside]
      exact ((ih lptr (rptr + 1) low inside (by omega)).cons rptr).trans List.perm_middle.symm
    simp only [mergeLoop]
    split_ifs
    · exact left (by omega)
    · exact right (by omega)
    · exact left (by omega)
    · exact right (by omega)

theorem mergeLoop_sorted (R : Nat → Nat → Prop) (first : Nat → Nat → Bool) (mid r count lptr rptr : Nat)
    (trans : ∀ i j k, R i j → R j k → R i k)
    (takes : ∀ i j, first i j = true → R i j) (leaves : ∀ i j, first i j = false → R j i)
    (low : lptr ≤ mid) (high : rptr ≤ r) (total : count = (mid - lptr) + (r - rptr))
    (left : (span lptr mid).Pairwise R) (right : (span rptr r).Pairwise R) :
    (mergeLoop first mid r count lptr rptr).Pairwise R := by
  induction count generalizing lptr rptr with
  | zero => exact .nil
  | succ count ih =>
    have takeLeft : lptr < mid → (∀ j, rptr ≤ j → j < r → R lptr j) →
        (lptr :: mergeLoop first mid r count (lptr + 1) rptr).Pairwise R := by
      intro inside smaller
      rw [span_cons lptr mid inside, List.pairwise_cons] at left
      refine List.pairwise_cons.mpr ⟨fun j member => ?_, ih (lptr + 1) rptr inside high (by omega) left.2 right⟩
      have whole := (mergeLoop_perm first mid r count (lptr + 1) rptr inside high (by omega)).subset member
      rcases List.mem_append.mp whole with here | there
      · exact left.1 j here
      · exact smaller j (mem_span.mp there).1 (mem_span.mp there).2
    have takeRight : rptr < r → (∀ i, lptr ≤ i → i < mid → R rptr i) →
        (rptr :: mergeLoop first mid r count lptr (rptr + 1)).Pairwise R := by
      intro inside smaller
      rw [span_cons rptr r inside, List.pairwise_cons] at right
      refine List.pairwise_cons.mpr ⟨fun i member => ?_, ih lptr (rptr + 1) low inside (by omega) left right.2⟩
      have whole := (mergeLoop_perm first mid r count lptr (rptr + 1) low inside (by omega)).subset member
      rcases List.mem_append.mp whole with here | there
      · exact smaller i (mem_span.mp here).1 (mem_span.mp here).2
      · exact right.1 i there
    simp only [mergeLoop]
    split_ifs with rightDone leftDone chosen
    · exact takeLeft (by omega) fun j low' high' => by omega
    · exact takeRight (by omega) fun i low' high' => by omega
    · refine takeLeft (by omega) fun j low' high' => ?_
      rcases Nat.eq_or_lt_of_le low' with same | later
      · exact same ▸ takes lptr rptr chosen
      · rw [span_cons rptr r (by omega), List.pairwise_cons] at right
        exact trans _ _ _ (takes lptr rptr chosen) (right.1 j (mem_span.mpr ⟨later, high'⟩))
    · have skipped := leaves lptr rptr (Bool.eq_false_iff.mpr chosen)
      refine takeRight (by omega) fun i low' high' => ?_
      rcases Nat.eq_or_lt_of_le low' with same | later
      · exact same ▸ skipped
      · rw [span_cons lptr mid (by omega), List.pairwise_cons] at left
        exact trans _ _ _ skipped (left.1 i (mem_span.mpr ⟨later, high'⟩))

-- The loop compares indices of the range only.
theorem mergeLoop_local (first first' : Nat → Nat → Bool) (l mid r count lptr rptr : Nat)
    (same : ∀ i j, i ∈ Set.Ico l r → j ∈ Set.Ico l r → first' i j = first i j) (low : l ≤ lptr)
    (middle : lptr ≤ mid) (start : mid ≤ rptr) (high : rptr ≤ r)
    (total : count = (mid - lptr) + (r - rptr)) :
    mergeLoop first' mid r count lptr rptr = mergeLoop first mid r count lptr rptr := by
  induction count generalizing lptr rptr with
  | zero => rfl
  | succ count ih =>
    simp only [mergeLoop]
    split_ifs with rightDone leftDone one other other
    · rw [ih (lptr + 1) rptr (by omega) (by omega) start high (by omega)]
    · rw [ih lptr (rptr + 1) low middle (by omega) (by omega) (by omega)]
    · rw [ih (lptr + 1) rptr (by omega) (by omega) start high (by omega)]
    · exact absurd (same lptr rptr ⟨low, by omega⟩ ⟨by omega, by omega⟩ ▸ one) other
    · exact absurd (same lptr rptr ⟨low, by omega⟩ ⟨by omega, by omega⟩ ▸ other) one
    · rw [ih lptr (rptr + 1) low middle (by omega) (by omega) (by omega)]

theorem writeBack_outside {A : Type} (array : Nat → A) (writePtr : Nat) (values : List A) (i : Nat)
    (outside : i < writePtr ∨ writePtr + values.length ≤ i) :
    writeBack array writePtr values i = array i := by
  induction values generalizing array writePtr with
  | nil => rfl
  | cons value rest ih =>
    simp only [List.length_cons] at outside
    rw [writeBack, ih _ _ (by omega), Function.update_of_ne (by omega)]

theorem writeBack_span {A : Type} (array : Nat → A) (writePtr : Nat) (values : List A) :
    (List.range' writePtr values.length).map (writeBack array writePtr values) = values := by
  induction values generalizing array writePtr with
  | nil => rfl
  | cons value rest ih =>
    rw [List.length_cons, List.range'_succ, List.map_cons, writeBack, ih,
      writeBack_outside _ _ _ _ (.inl (Nat.lt_succ_self writePtr)), Function.update_self]

theorem writeBack_zip {A B C : Type} (f : A → B → C) (as : Nat → A) (bs : Nat → B) (lefts : List A)
    (rights : List B) (same : lefts.length = rights.length) (writePtr i : Nat) :
    f (writeBack as writePtr lefts i) (writeBack bs writePtr rights i) =
      writeBack (fun i => f (as i) (bs i)) writePtr (List.zipWith f lefts rights) i := by
  induction lefts generalizing as bs rights writePtr with
  | nil =>
    cases rights with
    | nil => rfl
    | cons right rights => simp at same
  | cons left lefts ih =>
    cases rights with
    | nil => simp at same
    | cons right rights =>
      have updated : (fun i => f (Function.update as writePtr left i) (Function.update bs writePtr right i)) =
          Function.update (fun i => f (as i) (bs i)) writePtr (f left right) := by
        funext j
        by_cases here : j = writePtr <;> simp [here]
      simp only [writeBack, List.zipWith_cons_cons]
      rw [ih _ _ rights (by simpa using same), updated]

section

variable {S : Type}

/-- A part of the arrays at any time: each entry once, plain or with the secret. -/
def Held (raw out : List (Entry S)) : Prop :=
  ∃ order : List (Entry S), order.Perm raw ∧
    List.Forall₂ (fun entry now => now = entry ∨ now = decorate entry) order out

theorem Held.refl (raw : List (Entry S)) : Held raw raw :=
  ⟨raw, .refl raw, List.forall₂_same.mpr fun _ _ => .inl rfl⟩

theorem Held.append {raw raw' out out' : List (Entry S)} (one : Held raw out) (other : Held raw' out') :
    Held (raw ++ raw') (out ++ out') := by
  obtain ⟨order, perm, entries⟩ := one
  obtain ⟨order', perm', entries'⟩ := other
  exact ⟨order ++ order', perm.append perm', List.rel_append entries entries'⟩

variable [Score S]

-- A part of the arrays that has been sorted: the decorated entries, in order.
structure Arranged (raw out : List (Entry S)) : Prop where
  perm : out.Perm (raw.map decorate)
  sorted : out.Pairwise Before

theorem arranged_decorate {raw order : List (Entry S)} (proper : ∀ entry ∈ raw, Proper entry)
    (perm : order.Perm raw) (sorted : order.Pairwise Before) :
    Arranged raw (order.map decorate) := by
  refine ⟨perm.map decorate, List.pairwise_map.mpr ?_⟩
  refine sorted.imp_of_mem fun {one other} member member' before => ?_
  exact (before_decorate (proper one (perm.subset member)).above (proper other (perm.subset member')).above).mpr
    before

theorem Arranged.exists_order {raw out : List (Entry S)} (arranged : Arranged raw out) :
    ∃ order : List (Entry S), order.Perm raw ∧ order.map decorate = out := by
  have comp : Relation.Comp (fun out order : List (Entry S) => out = order.map decorate) List.Perm out raw :=
    (congrFun₂ (List.eq_map_comp_perm decorate) out raw).mpr arranged.perm
  obtain ⟨order, rfl, perm⟩ := comp
  exact ⟨order, perm, rfl⟩

theorem Arranged.order {raw out : List (Entry S)} (proper : ∀ entry ∈ raw, Proper entry)
    (arranged : Arranged raw out) : ∃ order : List (Entry S),
      order.Perm raw ∧ order.Pairwise Before ∧ order.map decorate = out := by
  obtain ⟨order, perm, rfl⟩ := arranged.exists_order
  refine ⟨order, perm, ?_, rfl⟩
  refine (List.pairwise_map.mp arranged.sorted).imp_of_mem fun {one other} member member' before => ?_
  exact (before_decorate (proper one (perm.subset member)).above (proper other (perm.subset member')).above).mp
    before

theorem Arranged.held {raw out : List (Entry S)} (arranged : Arranged raw out) : Held raw out := by
  obtain ⟨order, perm, rfl⟩ := arranged.exists_order
  refine ⟨order, perm, ?_⟩
  rw [List.forall₂_map_right_iff]
  exact List.forall₂_same.mpr fun _ _ => .inr rfl

-- The comparison of the loop. Equal entries count as the right one first.
def leftFirst (left right : Entry S) : Bool :=
  right.score < left.score || (left.score = right.score && strcmp left.title right.title = .lt)

theorem leftFirst_takes {left right : Entry S} (taken : leftFirst left right = true) :
    Before left right := by
  simp only [leftFirst, Bool.or_eq_true, Bool.and_eq_true, decide_eq_true_eq] at taken
  rcases taken with more | ⟨same, titles⟩
  · exact .inl more
  · exact .inr ⟨same, by simp [titles]⟩

theorem leftFirst_leaves {left right : Entry S} (left_stays : leftFirst left right = false) :
    Before right left := by
  simp only [leftFirst, Bool.or_eq_false_iff, Bool.and_eq_false_iff, decide_eq_false_iff_not] at left_stays
  obtain ⟨notMore, titles⟩ := left_stays
  rcases lt_or_eq_of_le (not_lt.mp notMore) with less | same
  · exact .inl less
  · have notLess : strcmp left.title right.title ≠ .lt := titles.resolve_left (· same)
    refine .inr ⟨same.symm, ?_⟩
    rw [strcmp_swap]
    cases order : strcmp left.title right.title <;> simp_all

def mergeOrder (cell : Nat → Entry S) (l mid r : Nat) : List Nat :=
  mergeLoop (fun i j => leftFirst (cell i) (cell j)) mid r (r - l) l mid

theorem mergeOrder_perm (cell : Nat → Entry S) (l mid r : Nat) (low : l ≤ mid) (high : mid ≤ r) :
    (mergeOrder cell l mid r).Perm (span l r) := by
  rw [← span_append l mid r low high]
  exact mergeLoop_perm _ mid r (r - l) l mid low high (by omega)

theorem mergeOrder_length (cell : Nat → Entry S) (l mid r : Nat) (low : l ≤ mid) (high : mid ≤ r) :
    (mergeOrder cell l mid r).length = r - l := by
  rw [(mergeOrder_perm cell l mid r low high).length_eq, span, List.length_range']

theorem mergeOrder_arranged (cell : Nat → Entry S) (l mid r : Nat) (low : l ≤ mid) (high : mid ≤ r)
    {lefts rights : List (Entry S)} (left : Arranged lefts ((span l mid).map cell))
    (right : Arranged rights ((span mid r).map cell)) :
    Arranged (lefts ++ rights) ((mergeOrder cell l mid r).map cell) := by
  constructor
  · have order := (mergeOrder_perm cell l mid r low high).map cell
    rw [← span_append l mid r low high, List.map_append] at order
    rw [List.map_append]
    exact order.trans (left.perm.append right.perm)
  · rw [List.pairwise_map]
    exact mergeLoop_sorted (fun i j => Before (cell i) (cell j)) _ mid r (r - l) l mid
      (fun _ _ _ => Before.trans) (fun _ _ => leftFirst_takes) (fun _ _ => leftFirst_leaves) low high
      (by omega) (List.pairwise_map.mp left.sorted) (List.pairwise_map.mp right.sorted)

theorem leftFirst_decorate {left right : Entry S} (above : ∀ byte ∈ left.title, 9 < byte)
    (above' : ∀ byte ∈ right.title, 9 < byte) :
    leftFirst (decorate left) (decorate right) = leftFirst left right := by
  simp only [leftFirst, decorate, strcmp_secret above above']
  rfl

-- `argmax` moves to the index `i` where the merge loop would take its entry first.
theorem argmaxStep_leftFirst (arrays : Arrays S) (best i : Nat) :
    argmaxStep arrays.scores arrays.movies (arrays.scores best, best) i =
      if leftFirst (arrays.cell i) (arrays.cell best) then (arrays.scores i, i)
      else (arrays.scores best, best) := by
  have less : strcmp (arrays.movies i) (arrays.movies best) = .lt ↔
      strcmp (arrays.movies best) (arrays.movies i) = .gt := by
    rw [strcmp_swap]
    cases strcmp (arrays.movies best) (arrays.movies i) <;> simp
  simp only [argmaxStep, leftFirst, Arrays.cell, Bool.or_eq_true, Bool.and_eq_true, decide_eq_true_eq, less]
  by_cases more : arrays.scores best < arrays.scores i
  · simp [more]
  by_cases same : arrays.scores i = arrays.scores best <;> simp [more, same]

theorem mergeOrder_decorate (cell : Nat → Entry S) (l mid r : Nat) (low : l ≤ mid) (high : mid ≤ r)
    (above : ∀ i ∈ span l r, ∀ byte ∈ (cell i).title, 9 < byte) :
    mergeOrder (fun i => decorate (cell i)) l mid r = mergeOrder cell l mid r :=
  mergeLoop_local _ _ l mid r (r - l) l mid
    (fun i j inside inside' => leftFirst_decorate (above i (mem_span.mpr inside)) (above j (mem_span.mpr inside')))
    le_rfl low le_rfl high (by omega)

/-- The secret does not change how two titles compare, so the leaves and the merges sort by one order:
`argmax` prefers the entries that the merge loop takes first, and the merge loop takes the entries in
the order in which it would take the plain ones. -/
theorem decorate_order (first second : Entry S) (above : ∀ byte ∈ first.title, 9 < byte)
    (above' : ∀ byte ∈ second.title, 9 < byte) :
    strcmp (first.title ++ secret) (second.title ++ secret) = strcmp first.title second.title ∧
      (Before (decorate first) (decorate second) ↔ Before first second) ∧
      (∀ (arrays : Arrays S) (best i : Nat), arrays.cell i = first → arrays.cell best = second →
        argmaxStep arrays.scores arrays.movies (arrays.scores best, best) i =
          if leftFirst (decorate first) (decorate second) then (arrays.scores i, i)
          else (arrays.scores best, best)) ∧
      ∀ (cell : Nat → Entry S) (l mid r : Nat), l ≤ mid → mid ≤ r →
        (∀ i ∈ span l r, ∀ byte ∈ (cell i).title, 9 < byte) →
        mergeOrder (fun i => decorate (cell i)) l mid r = mergeOrder cell l mid r := by
  refine ⟨strcmp_secret above above', before_decorate above above', ?_, mergeOrder_decorate⟩
  intro arrays best i here there
  rw [leftFirst_decorate above above', ← here, ← there]
  exact argmaxStep_leftFirst arrays best i

-- One title is the beginning of the other.
theorem decorate_order_shorter :
    strcmp (ofChars ['U', 'p'] ++ secret) (ofChars ['U', 'p', ' ', '2'] ++ secret) = .lt :=
  (decorate_order (S := Int) ⟨0, ofChars ['U', 'p']⟩ ⟨0, ofChars ['U', 'p', ' ', '2']⟩
    (by simp [ofChars, ascii]) (by simp [ofChars, ascii])).1

end

end SPHomework.MovieSort
