import Mathlib.Data.List.Perm.Basic
import Mathlib.Data.List.Nodup
import Mathlib.Logic.Equiv.Basic
import Mathlib.Tactic
import SPHomework.Lib.CString

set_option autoImplicit false

/-!
# The sort library

`sort` selects the entries with the highest score first, and adds the secret to
each title once it is in place. Titles and scores are two arrays.
-/

namespace SPHomework.MovieSort

open Lib

/-- The scores: doubles without NaN. `negOne` is the `-1.0` that `argmax` starts from. -/
class Score (S : Type) extends LinearOrder S, Zero S where
  negOne : S
  negOne_lt : negOne < 0

instance : Score Int where
  negOne := -1
  negOne_lt := by decide

@[ext]
structure Entry (S : Type) where
  score : S
  title : CStr
  deriving DecidableEq

def maxLen : Nat := 0xff

-- `"\t[It's top secret.]"`
def secret : CStr :=
  9 :: ofChars ['[', 'I', 't'] ++ 39 :: ofChars ['s', ' ', 't', 'o', 'p', ' ', 's', 'e', 'c', 'r', 'e', 't', '.', ']']

def decorate {S : Type} (entry : Entry S) : Entry S := { entry with title := entry.title ++ secret }

structure Arrays (S : Type) where
  movies : Nat → CStr
  scores : Nat → S

variable {S : Type}

def Arrays.cell (arrays : Arrays S) (i : Nat) : Entry S := ⟨arrays.scores i, arrays.movies i⟩

/-- How a call goes wrong: an assertion fails, or the language leaves open what happens. -/
inductive Fault where
  | abort
  | undefined
  deriving DecidableEq

def require (condition : Prop) [Decidable condition] (fault : Fault) : Except Fault Unit :=
  if condition then .ok () else .error fault

@[simp] theorem require_bind {A : Type} (condition : Prop) [Decidable condition] (fault : Fault)
    (rest : Unit → Except Fault A) :
    (require condition fault >>= rest) = if condition then rest () else .error fault := by
  unfold require
  split_ifs <;> rfl

@[simp] theorem ok_bind {A B : Type} (value : A) (rest : A → Except Fault B) : (Except.ok value >>= rest) = rest value := rfl

@[simp] theorem error_bind {A B : Type} (fault : Fault) (rest : A → Except Fault B) :
    ((Except.error fault : Except Fault A) >>= rest) = .error fault := rfl

theorem toOption_some {A : Type} {call : Except Fault A} {value : A} :
    call.toOption = some value ↔ call = .ok value := by
  cases call <;> simp [Except.toOption]

theorem toOption_bind {A B : Type} (call : Except Fault A) (rest : A → Except Fault B) :
    (call >>= rest).toOption = call.toOption.bind fun value => (rest value).toOption := by
  cases call <;> rfl

theorem toOption_foldlM {A B : Type} (step : A → B → Except Fault A) (labels : List B) (value : A) :
    (labels.foldlM step value).toOption = labels.foldlM (fun value label => (step value label).toOption) value := by
  induction labels generalizing value with
  | nil => rfl
  | cons label rest ih =>
    rw [List.foldlM_cons, List.foldlM_cons, toOption_bind]
    exact congrArg (Option.bind _) (funext ih)

-- The assertion is on the length of the title; the new string has `MAX_LEN` bytes for the secret too.
def addSecret (s : CStr) (length : Nat) : Except Fault CStr := do
  require (length < maxLen) .abort
  require (s.length + secret.length < maxLen) .undefined
  return s ++ secret

def swap {A : Type} (i j : Nat) (array : Nat → A) : Nat → A :=
  Function.update (Function.update array i (array j)) j (array i)

section

variable [Score S]

def argmaxStep (src : Nat → S) (movie : Nat → CStr) (best : S × Nat) (i : Nat) : S × Nat :=
  if best.1 < src i then (src i, i)
  else if src i = best.1 then
    if strcmp (movie best.2) (movie i) = .gt then (best.1, i) else best
  else best

def argmax (src : Nat → S) (movie : Nat → CStr) (start stop : Nat) : Except Fault Nat :=
  let best := (List.range' start (stop - start)).foldl (argmaxStep src movie) (Score.negOne, start)
  if 0 ≤ best.1 then .ok best.2 else .error .abort

def sortStep (size : Nat) (arrays : Arrays S) (i : Nat) : Except Fault (Arrays S) := do
  let idx ← argmax arrays.scores arrays.movies i size
  require (idx < size) .abort
  let movies := swap i idx arrays.movies
  let scores := swap i idx arrays.scores
  let title ← addSecret (movies i) (movies i).length
  return ⟨Function.update movies i title, scores⟩

/-- `validate` checks the size (the titles are strings here, so none is a null pointer). With
size 0 the last title read would be `movies[-1]`. -/
def sort (numOfMovies : Nat) (arrays : Arrays S) (size : Nat) : Except Fault (Arrays S) := do
  require (size ≤ numOfMovies) .abort
  let arrays ← (List.range (size - 1)).foldlM (sortStep size) arrays
  require (size ≠ 0) .undefined
  let last ← addSecret (arrays.movies (size - 1)) (arrays.movies (size - 1)).length
  return { arrays with movies := Function.update arrays.movies (size - 1) last }

-- The order of the output: higher scores first, then by title.
def Before (first second : Entry S) : Prop :=
  second.score < first.score ∨
    first.score = second.score ∧ strcmp first.title second.title ≠ .gt

theorem Before.refl (entry : Entry S) : Before entry entry :=
  .inr ⟨rfl, by simp [strcmp_self]⟩

theorem Before.trans {first second third : Entry S} (one : Before first second)
    (two : Before second third) : Before first third := by
  rcases one with more | ⟨same, titles⟩
  · rcases two with more' | ⟨same', _⟩
    · exact .inl (more'.trans more)
    · exact .inl (same' ▸ more)
  · rcases two with more' | ⟨same', titles'⟩
    · exact .inl (same ▸ more')
    · exact .inr ⟨same.trans same', strcmp_trans _ _ _ titles titles'⟩

theorem Before.total (first second : Entry S) : Before first second ∨ Before second first := by
  rcases lt_trichotomy first.score second.score with less | same | more
  · exact .inr (.inl less)
  · cases titles : strcmp first.title second.title with
    | gt => exact .inr (.inr ⟨same.symm, by simp [strcmp_swap first.title, titles]⟩)
    | _ => exact .inl (.inr ⟨same, by simp [titles]⟩)
  · exact .inl (.inl more)

open Classical in
theorem exists_sorted (entries : List (Entry S)) :
    ∃ order : List (Entry S), order.Perm entries ∧ order.Pairwise Before := by
  refine ⟨entries.mergeSort fun one other => decide (Before one other), List.mergeSort_perm _ _, ?_⟩
  have sorted := @List.pairwise_mergeSort _ (fun one other : Entry S => decide (Before one other))
    (fun one middle other => by simpa using Before.trans) (fun one other => by simpa using Before.total one other) entries
  simpa using sorted

theorem Before.antisymm {first second : Entry S} (one : Before first second)
    (two : Before second first) : first = second := by
  rcases one with more | ⟨same, titles⟩
  · rcases two with less | ⟨same, _⟩
    · exact absurd more (lt_asymm less)
    · exact absurd more (same ▸ lt_irrefl _)
  · rcases two with less | ⟨_, titles'⟩
    · exact absurd less (same ▸ lt_irrefl _)
    · refine Entry.ext same (strcmp_eq _ _ ?_)
      rw [strcmp_swap] at titles'
      cases order : strcmp first.title second.title <;> simp_all

/-- What `sort` relies on: the title fits with its secret, and its bytes are above the tab. -/
structure Proper (entry : Entry S) : Prop where
  above : ∀ byte ∈ entry.title, 9 < byte
  fits : entry.title.length + secret.length < maxLen
  nonneg : 0 ≤ entry.score

theorem strcmp_secret {first second : CStr} (above : ∀ byte ∈ first, 9 < byte)
    (above' : ∀ byte ∈ second, 9 < byte) :
    strcmp (first ++ secret) (second ++ secret) = strcmp first second :=
  strcmp_append first second _ 9 above above'

theorem before_decorate {first second : Entry S} (above : ∀ byte ∈ first.title, 9 < byte)
    (above' : ∀ byte ∈ second.title, 9 < byte) :
    Before (decorate first) (decorate second) ↔ Before first second := by
  simp only [Before, decorate, strcmp_secret above above']

theorem argmaxStep_better (arrays : Arrays S) (idx i : Nat) :
    ∃ best, argmaxStep arrays.scores arrays.movies (arrays.scores idx, idx) i =
        (arrays.scores best, best) ∧ (best = idx ∨ best = i) ∧
      Before (arrays.cell best) (arrays.cell idx) ∧ Before (arrays.cell best) (arrays.cell i) := by
  simp only [argmaxStep]
  by_cases more : arrays.scores idx < arrays.scores i
  · exact ⟨i, by simp [more], .inr rfl, .inl more, .refl _⟩
  by_cases same : arrays.scores i = arrays.scores idx
  · by_cases later : strcmp (arrays.movies idx) (arrays.movies i) = .gt
    · refine ⟨i, by simp [same, later], .inr rfl, .inr ⟨same, ?_⟩, .refl _⟩
      simp [Arrays.cell, strcmp_swap (arrays.movies idx), later]
    · exact ⟨idx, by simp [same, later], .inl rfl, .refl _, .inr ⟨same.symm, later⟩⟩
  · have less : arrays.scores i < arrays.scores idx := lt_of_le_of_ne (not_lt.mp more) same
    exact ⟨idx, by simp [more, same], .inl rfl, .refl _, .inl less⟩

theorem argmax_loop (arrays : Arrays S) (start count : Nat) (nonneg : 0 ≤ arrays.scores start) :
    ∃ idx, (List.range' start (count + 1)).foldl (argmaxStep arrays.scores arrays.movies)
        (Score.negOne, start) = (arrays.scores idx, idx) ∧ start ≤ idx ∧ idx ≤ start + count ∧
      ∀ i, start ≤ i → i ≤ start + count → Before (arrays.cell idx) (arrays.cell i) := by
  induction count with
  | zero =>
    have positive : Score.negOne < arrays.scores start := lt_of_lt_of_le Score.negOne_lt nonneg
    refine ⟨start, by simp [argmaxStep, positive], le_refl start, le_refl start, fun i low high => ?_⟩
    obtain rfl : i = start := by omega
    exact .refl _
  | succ count ih =>
    obtain ⟨idx, folded, low, high, first⟩ := ih
    obtain ⟨best, stepped, chosen, better, better'⟩ :=
      argmaxStep_better arrays idx (start + (count + 1))
    rw [List.range'_1_concat, List.foldl_append, folded]
    refine ⟨best, stepped, by omega, by omega, fun i low' high' => ?_⟩
    by_cases last : i = start + (count + 1)
    · exact last ▸ better'
    · exact better.trans (first i low' (by omega))

theorem argmax_correct (arrays : Arrays S) (start stop : Nat) (inside : start < stop)
    (nonneg : ∀ i, start ≤ i → i < stop → 0 ≤ arrays.scores i) :
    ∃ idx, argmax arrays.scores arrays.movies start stop = .ok idx ∧ start ≤ idx ∧ idx < stop ∧
      ∀ i, start ≤ i → i < stop → Before (arrays.cell idx) (arrays.cell i) := by
  obtain ⟨idx, folded, low, high, first⟩ :=
    argmax_loop arrays start (stop - start - 1) (nonneg start (le_refl start) inside)
  have width : stop - start - 1 + 1 = stop - start := by omega
  rw [width] at folded
  refine ⟨idx, ?_, low, by omega, fun i low' high' => first i low' (by omega)⟩
  simp [argmax, folded, nonneg idx low (by omega)]

-- The pairs of indices whose titles `argmax` passes to `strcmp`.
def compared (src : Nat → S) (movie : Nat → CStr) : S × Nat → List Nat → List (Nat × Nat)
  | _, [] => []
  | best, i :: rest =>
    let later := compared src movie (argmaxStep src movie best i) rest
    if ¬ best.1 < src i ∧ src i = best.1 then (best.2, i) :: later else later

theorem argmaxStep_index (src : Nat → S) (movie : Nat → CStr) (best : S × Nat) (i : Nat) :
    (argmaxStep src movie best i).2 = best.2 ∨ (argmaxStep src movie best i).2 = i := by
  simp only [argmaxStep]
  split_ifs <;> simp

theorem compared_inside (src : Nat → S) (movie : Nat → CStr) (best : S × Nat) (indices : List Nat)
    (pair : Nat × Nat) (member : pair ∈ compared src movie best indices) :
    (pair.1 = best.2 ∨ pair.1 ∈ indices) ∧ pair.2 ∈ indices := by
  induction indices generalizing best with
  | nil => simp [compared] at member
  | cons i rest ih =>
    have later : pair ∈ compared src movie (argmaxStep src movie best i) rest →
        (pair.1 = best.2 ∨ pair.1 ∈ i :: rest) ∧ pair.2 ∈ i :: rest := by
      intro member
      obtain ⟨first, second⟩ := ih _ member
      refine ⟨?_, List.mem_cons_of_mem _ second⟩
      rcases argmaxStep_index src movie best i with same | same <;> rw [same] at first
      · exact first.imp_right (List.mem_cons_of_mem _)
      · exact .inr (List.mem_cons.mpr first)
    simp only [compared] at member
    split_ifs at member with tie
    · rcases List.mem_cons.mp member with rfl | member
      · simp
      · exact later member
    · exact later member

end

theorem swap_eq {A : Type} (i j : Nat) (array : Nat → A) : swap i j array = array ∘ Equiv.swap i j := by
  funext k
  simp only [swap, Function.update_apply, Function.comp_apply, Equiv.swap_apply_def]
  split_ifs <;> simp_all

theorem swap_lt {i j size : Nat} (inside : i < size) (inside' : j < size) (k : Nat) (bound : k < size) :
    Equiv.swap i j k < size := by
  rw [Equiv.swap_apply_def]
  split_ifs <;> assumption

theorem le_swap {i j : Nat} (less : i ≤ j) (k : Nat) (from_ : i ≤ k) : i ≤ Equiv.swap i j k := by
  rw [Equiv.swap_apply_def]
  split_ifs <;> omega

theorem swap_below {i j : Nat} (less : i ≤ j) (k : Nat) (early : k < i) : Equiv.swap i j k = k :=
  Equiv.swap_apply_of_ne_of_ne (by omega) (by omega)

theorem swap_cell (arrays : Arrays S) (i j k : Nat) :
    Arrays.cell ⟨swap i j arrays.movies, swap i j arrays.scores⟩ k = arrays.cell (Equiv.swap i j k) := by
  simp [swap_eq, Arrays.cell]

theorem swap_perm {A : Type} (i j size : Nat) (array : Nat → A) (inside : i < size) (inside' : j < size) :
    ((List.range size).map (swap i j array)).Perm ((List.range size).map array) := by
  rw [swap_eq, ← List.map_map]
  refine List.Perm.map array ((List.perm_ext_iff_of_nodup ?_ List.nodup_range).mpr fun k => ?_)
  · exact List.nodup_range.map (Equiv.injective _)
  · simp only [List.mem_map, List.mem_range]
    constructor
    · rintro ⟨k, bound, rfl⟩
      exact swap_lt inside inside' k bound
    · intro bound
      exact ⟨Equiv.swap i j k, swap_lt inside inside' k bound, Equiv.swap_apply_self i j k⟩

-- The string with the secret, and its NUL, in the new `MAX_LEN` bytes.
def Fits (title : CStr) : Prop := title.length + secret.length < maxLen

instance (title : CStr) : Decidable (Fits title) := inferInstanceAs (Decidable (_ < _))

-- What becomes of a title that does not fit.
def misfit (title : CStr) : Fault := if title.length < maxLen then .undefined else .abort

theorem addSecret_eq (title : CStr) :
    addSecret title title.length = if Fits title then .ok (title ++ secret) else .error (misfit title) := by
  have assertion : Fits title → title.length < maxLen := fun fits => Nat.lt_of_add_right_lt fits
  simp only [addSecret, require_bind, misfit]
  by_cases fits : Fits title
  · rw [if_pos (assertion fits), if_pos (show title.length + secret.length < maxLen from fits), if_pos fits]
    rfl
  · rw [if_neg (show ¬ title.length + secret.length < maxLen from fits), if_neg fits]
    split_ifs <;> rfl

variable [Score S]

-- What a round comes to, by the index that it finds.
theorem sortStep_eq (size i : Nat) (arrays : Arrays S) : sortStep size arrays i =
    (argmax arrays.scores arrays.movies i size).bind fun idx =>
      if idx < size then
        (addSecret (arrays.movies idx) (arrays.movies idx).length).map fun title =>
          ⟨Function.update (swap i idx arrays.movies) i title, swap i idx arrays.scores⟩
      else .error .abort := by
  have moved : ∀ idx, swap i idx arrays.movies i = arrays.movies idx := fun idx => by
    rw [swap_eq, Function.comp_apply, Equiv.swap_apply_left]
  cases found : argmax arrays.scores arrays.movies i size with
  | error fault =>
    simp only [sortStep, found, error_bind]
    rfl
  | ok idx =>
    simp only [sortStep, found, ok_bind, require_bind, Except.bind, moved]
    split_ifs with below
    · cases addSecret (arrays.movies idx) (arrays.movies idx).length <;> rfl
    · rfl

/-- The arrays after some rounds: `raw` is the order so far, of which the first `done` entries
are in place and carry the secret. -/
structure Selected (size done : Nat) (original raw : Nat → Entry S) (arrays : Arrays S) : Prop where
  perm : ((List.range size).map raw).Perm ((List.range size).map original)
  rest : ∀ i, size ≤ i → raw i = original i
  cells : ∀ i, arrays.cell i = if i < done then decorate (raw i) else raw i
  sorted : ∀ i j, i < done → i < j → j < size → Before (raw i) (raw j)

theorem Selected.mem {size done : Nat} {original raw : Nat → Entry S} {arrays : Arrays S}
    (selected : Selected size done original raw arrays) (i : Nat) (inside : i < size) :
    ∃ j < size, original j = raw i := by
  have member : raw i ∈ (List.range size).map original :=
    selected.perm.subset (List.mem_map.mpr ⟨i, List.mem_range.mpr inside, rfl⟩)
  simpa using member

theorem Selected.plain {size done : Nat} {original raw : Nat → Entry S} {arrays : Arrays S}
    (selected : Selected size done original raw arrays) (i : Nat) (later : done ≤ i) :
    arrays.cell i = raw i := by
  rw [selected.cells, if_neg (Nat.not_lt.mpr later)]

theorem Selected.found {size done : Nat} {original raw : Nat → Entry S} {arrays : Arrays S}
    (selected : Selected size done original raw arrays) (inside : done < size)
    (nonneg : ∀ i < size, 0 ≤ (original i).score) :
    ∃ idx, argmax arrays.scores arrays.movies done size = .ok idx ∧ done ≤ idx ∧ idx < size ∧
      ∀ i, done ≤ i → i < size → Before (raw idx) (raw i) := by
  have positive : ∀ i, done ≤ i → i < size → 0 ≤ arrays.scores i := by
    intro i later bound
    obtain ⟨j, bound', same⟩ := selected.mem i bound
    have score : arrays.scores i = (raw i).score := congrArg Entry.score (selected.plain i later)
    rw [score, ← same]
    exact nonneg j bound'
  obtain ⟨idx, found, low, high, first⟩ := argmax_correct arrays done size inside positive
  refine ⟨idx, found, low, high, fun i later bound => ?_⟩
  rw [← selected.plain idx low, ← selected.plain i later]
  exact first i later bound

-- The first of the entries that are left comes to the index `done` and gets the secret.
theorem Selected.choose {size done idx : Nat} {original raw : Nat → Entry S} {arrays : Arrays S}
    (selected : Selected size done original raw arrays) (low : done ≤ idx) (high : idx < size)
    (first : ∀ i, done ≤ i → i < size → Before (raw idx) (raw i)) :
    Selected size (done + 1) original (swap done idx raw)
      ⟨Function.update (swap done idx arrays.movies) done ((raw idx).title ++ secret),
        swap done idx arrays.scores⟩ := by
  have before := swap_below low
  have later := le_swap low
  constructor
  · exact (swap_perm done idx size raw (by omega) high).trans selected.perm
  · intro i outside
    rw [swap_eq, Function.comp_apply, Equiv.swap_apply_of_ne_of_ne (by omega) (by omega)]
    exact selected.rest i outside
  · intro i
    rw [swap_eq done idx raw, Function.comp_apply]
    by_cases same : i = done
    · subst same
      have here := swap_cell arrays i idx i
      rw [Equiv.swap_apply_left, selected.plain idx low] at here
      have score : swap i idx arrays.scores i = (raw idx).score := congrArg Entry.score here
      rw [if_pos (Nat.lt_succ_self _), Equiv.swap_apply_left]
      simp [Arrays.cell, decorate, score]
    · have other : Arrays.cell ⟨Function.update (swap done idx arrays.movies) done
          ((raw idx).title ++ secret), swap done idx arrays.scores⟩ i =
          arrays.cell (Equiv.swap done idx i) := by
        rw [← swap_cell]
        simp [Arrays.cell, same]
      rw [other]
      by_cases early : i < done
      · rw [before i early, selected.cells, if_pos early, if_pos (by omega)]
      · rw [selected.plain _ (later i (by omega)), if_neg (by omega)]
  · intro i j early less bound
    have within : Equiv.swap done idx j < size := swap_lt (by omega) high j bound
    simp only [swap_eq, Function.comp_apply]
    by_cases same : i = done
    · subst same
      rw [Equiv.swap_apply_left]
      exact first _ (later j (by omega)) within
    · rw [before i (by omega)]
      refine selected.sorted i _ (by omega) ?_ within
      by_cases late : done ≤ j
      · have := later j late
        omega
      · rw [before j (by omega)]
        exact less

/-- One round: it chooses the entry of the index `done`, and goes through if the title fits. -/
theorem sortStep_selects {size done : Nat} {original raw : Nat → Entry S} {arrays : Arrays S}
    (selected : Selected size done original raw arrays) (inside : done < size)
    (nonneg : ∀ i < size, 0 ≤ (original i).score) :
    ∃ after raw', Selected size (done + 1) original raw' after ∧ (∀ i < done, raw' i = raw i) ∧
      sortStep size arrays done =
        if Fits (raw' done).title then .ok after else .error (misfit (raw' done).title) := by
  obtain ⟨idx, found, low, high, first⟩ := selected.found inside nonneg
  refine ⟨_, swap done idx raw, selected.choose low high first, fun i early => ?_, ?_⟩
  · rw [swap_eq, Function.comp_apply, swap_below low i early]
  have title : arrays.movies idx = (raw idx).title := congrArg Entry.title (selected.plain idx low)
  have chosen : swap done idx raw done = raw idx := by
    rw [swap_eq, Function.comp_apply, Equiv.swap_apply_left]
  rw [sortStep_eq, found, Except.bind, if_pos high, title, addSecret_eq, chosen]
  split <;> rfl

/-- The rounds so far: all the titles that were chosen fit, or the rounds ended at one that does not. -/
theorem sort_rounds {size : Nat} (arrays : Arrays S) (nonneg : ∀ i < size, 0 ≤ arrays.scores i)
    (done : Nat) (bound : done < size) :
    (∃ k < done, ∃ raw after, Selected size (k + 1) arrays.cell raw after ∧ (∀ i < k, Fits (raw i).title) ∧
        ¬ Fits (raw k).title ∧ (List.range done).foldlM (sortStep size) arrays = .error (misfit (raw k).title)) ∨
      ∃ middle raw, (List.range done).foldlM (sortStep size) arrays = .ok middle ∧
        Selected size done arrays.cell raw middle ∧ ∀ i < done, Fits (raw i).title := by
  induction done with
  | zero =>
    exact .inr ⟨arrays, arrays.cell, rfl,
      ⟨.refl _, fun _ _ => rfl, fun i => by simp, fun i j early => by omega⟩, fun i early => by omega⟩
  | succ done ih =>
    rw [List.range_succ, List.foldlM_append]
    rcases ih (by omega) with ⟨k, less, raw, after, selected, before, long, stopped⟩ | ⟨middle, raw, ran, selected, fits⟩
    · exact .inl ⟨k, by omega, raw, after, selected, before, long, by rw [stopped, error_bind]⟩
    obtain ⟨after, raw', selected', same, stepped⟩ := sortStep_selects selected (by omega) nonneg
    have before : ∀ i < done, Fits (raw' i).title := by
      intro i early
      rw [same i early]
      exact fits i early
    rw [ran, ok_bind, List.foldlM_cons, stepped]
    by_cases fit : Fits (raw' done).title
    · refine .inr ⟨after, raw', ?_, selected', fun i early => ?_⟩
      · rw [if_pos fit, ok_bind]
        rfl
      · by_cases last : i = done
        · exact last ▸ fit
        · exact before i (by omega)
    · refine .inl ⟨done, Nat.lt_succ_self _, raw', after, selected', before, fit, ?_⟩
      rw [if_neg fit, error_bind]

/-- What was chosen so far begins the order of all. -/
theorem Selected.order {size done : Nat} {original raw : Nat → Entry S} {arrays : Arrays S}
    (selected : Selected size done original raw arrays) (bound : done ≤ size) :
    ∃ rest, ((List.range done).map raw ++ rest).Perm ((List.range size).map original) ∧
      ((List.range done).map raw ++ rest).Pairwise Before := by
  obtain ⟨rest, perm, sorted⟩ := exists_sorted ((List.range' done (size - done)).map raw)
  have split : List.range size = List.range done ++ List.range' done (size - done) := by
    have joined := List.range'_append_1 (s := 0) (m := done) (n := size - done)
    rw [Nat.zero_add, Nat.add_sub_cancel' bound] at joined
    rw [List.range_eq_range', List.range_eq_range', joined]
  refine ⟨rest, (List.Perm.append_left _ perm).trans ?_, List.pairwise_append.mpr ⟨?_, sorted, ?_⟩⟩
  · rw [← List.map_append, ← split]
    exact selected.perm
  · rw [List.pairwise_map]
    refine List.pairwise_lt_range.imp_of_mem fun {i j} member member' less => ?_
    have early := List.mem_range.mp member
    have bound' := List.mem_range.mp member'
    exact selected.sorted i j early less (by omega)
  · intro one member other later
    obtain ⟨i, early, rfl⟩ := List.mem_map.mp member
    obtain ⟨j, late, rfl⟩ := List.mem_map.mp (perm.subset later)
    have early := List.mem_range.mp early
    have late := List.mem_range'_1.mp late
    exact selected.sorted i j early (by omega) (by omega)

/-- What `sort` leaves: the entries in order, each with the secret once, and no others touched. -/
structure Ordered (size : Nat) (arrays after : Arrays S) (order : List (Entry S)) : Prop where
  rest : ∀ i, size ≤ i → after.cell i = arrays.cell i
  perm : order.Perm ((List.range size).map arrays.cell)
  sorted : order.Pairwise Before
  cells : (List.range size).map after.cell = order.map decorate

/-- The last title gets its secret after the loop. -/
theorem Selected.last {size : Nat} {raw : Nat → Entry S} {arrays middle : Arrays S} (nonempty : 0 < size)
    (selected : Selected size (size - 1) arrays.cell raw middle) :
    Ordered size arrays { middle with
      movies := Function.update middle.movies (size - 1) ((raw (size - 1)).title ++ secret) }
      ((List.range size).map raw) := by
  have last : middle.cell (size - 1) = raw (size - 1) := selected.plain _ le_rfl
  have cells : ∀ i, Arrays.cell { middle with
      movies := Function.update middle.movies (size - 1) ((raw (size - 1)).title ++ secret) } i =
      if i < size then decorate (raw i) else raw i := by
    intro i
    by_cases here : i = size - 1
    · subst here
      have score : middle.scores (size - 1) = (raw (size - 1)).score := congrArg Entry.score last
      rw [if_pos (by omega)]
      simp [Arrays.cell, decorate, score]
    · have other := selected.cells i
      simp only [Arrays.cell, Function.update_of_ne here] at other ⊢
      rw [other]
      by_cases early : i < size - 1
      · rw [if_pos early, if_pos (by omega)]
      · rw [if_neg early, if_neg (by omega)]
  constructor
  · intro i outside
    rw [cells, if_neg (by omega), selected.rest i outside]
  · exact selected.perm
  · rw [List.pairwise_map]
    refine (List.pairwise_lt_range).imp_of_mem fun {i j} member member' less => ?_
    have bound := List.mem_range.mp member'
    exact selected.sorted i j (by omega) less bound
  · rw [List.map_map]
    refine List.map_congr_left fun i member => ?_
    rw [cells, if_pos (List.mem_range.mp member)]
    rfl

/-- What `sort` comes to with the entries in that order. The first title that does not fit ends it. -/
def SortsTo (size : Nat) (arrays : Arrays S) (order : List (Entry S)) : Except Fault (Arrays S) → Prop
  | .ok after => (∀ entry ∈ order, Fits entry.title) ∧ Ordered size arrays after order
  | .error fault => ∃ before long rest, order = before ++ long :: rest ∧ (∀ entry ∈ before, Fits entry.title) ∧
    ¬ Fits long.title ∧ fault = misfit long.title

theorem Selected.stops {size k : Nat} {raw : Nat → Entry S} {arrays after : Arrays S}
    (selected : Selected size (k + 1) arrays.cell raw after) (inside : k < size)
    (before : ∀ i < k, Fits (raw i).title) (long : ¬ Fits (raw k).title) :
    ∃ order : List (Entry S), order.Perm ((List.range size).map arrays.cell) ∧ order.Pairwise Before ∧
      SortsTo size arrays order (.error (misfit (raw k).title)) := by
  obtain ⟨rest, perm, sorted⟩ := selected.order inside
  refine ⟨_, perm, sorted, (List.range k).map raw, raw k, rest, ?_, ?_, long, rfl⟩
  · rw [List.range_succ, List.map_append, List.map_singleton, List.append_assoc, List.singleton_append]
  · intro entry member
    obtain ⟨i, early, rfl⟩ := List.mem_map.mp member
    exact before i (List.mem_range.mp early)

theorem sort_selects (numOfMovies size : Nat) (arrays : Arrays S) (bound : size ≤ numOfMovies)
    (nonempty : 0 < size) (nonneg : ∀ i < size, 0 ≤ arrays.scores i) :
    ∃ order : List (Entry S), order.Perm ((List.range size).map arrays.cell) ∧ order.Pairwise Before ∧
      SortsTo size arrays order (sort numOfMovies arrays size) := by
  have last : size - 1 < size := by omega
  simp only [sort, require_bind, if_pos bound]
  rcases sort_rounds arrays nonneg (size - 1) last with
    ⟨k, less, raw, after, selected, before, long, stopped⟩ | ⟨middle, raw, ran, selected, fits⟩
  · rw [stopped, error_bind]
    exact selected.stops (by omega) before long
  have title : middle.movies (size - 1) = (raw (size - 1)).title :=
    congrArg Entry.title (selected.plain _ le_rfl)
  rw [ran, ok_bind, if_pos (Nat.ne_of_gt nonempty), title, addSecret_eq]
  have ordered := selected.last nonempty
  refine ⟨_, ordered.perm, ordered.sorted, ?_⟩
  by_cases fit : Fits (raw (size - 1)).title
  · rw [if_pos fit, ok_bind]
    refine ⟨fun entry member => ?_, ordered⟩
    obtain ⟨i, inside, rfl⟩ := List.mem_map.mp member
    have inside := List.mem_range.mp inside
    by_cases here : i = size - 1
    · exact here ▸ fit
    · exact fits i (by omega)
  · rw [if_neg fit, error_bind]
    refine ⟨(List.range (size - 1)).map raw, raw (size - 1), [], ?_, ?_, fit, rfl⟩
    · rw [← List.map_singleton, ← List.map_append, ← List.range_succ, Nat.succ_eq_add_one, Nat.sub_add_cancel nonempty]
    · intro entry member
      obtain ⟨i, early, rfl⟩ := List.mem_map.mp member
      exact fits i (List.mem_range.mp early)

omit [Score S] in
theorem fits_iff {size : Nat} {arrays : Arrays S} {order : List (Entry S)}
    (perm : order.Perm ((List.range size).map arrays.cell)) :
    (∀ entry ∈ order, Fits entry.title) ↔ ∀ i < size, Fits (arrays.movies i) := by
  constructor
  · intro fits i inside
    exact fits (arrays.cell i) (perm.symm.subset (List.mem_map.mpr ⟨i, List.mem_range.mpr inside, rfl⟩))
  · intro fits entry member
    obtain ⟨i, inside, rfl⟩ := List.mem_map.mp (perm.subset member)
    exact fits i (List.mem_range.mp inside)

theorem sort_fits {numOfMovies size : Nat} {arrays : Arrays S} (bound : size ≤ numOfMovies) (nonempty : 0 < size)
    (nonneg : ∀ i < size, 0 ≤ arrays.scores i) (fits : ∀ i < size, Fits (arrays.movies i)) :
    ∃ after order, sort numOfMovies arrays size = .ok after ∧ Ordered size arrays after order := by
  obtain ⟨order, perm, -, comes⟩ := sort_selects numOfMovies size arrays bound nonempty nonneg
  cases sorted : sort numOfMovies arrays size with
  | ok after => exact ⟨after, order, rfl, (sorted ▸ comes).2⟩
  | error fault =>
    rw [sorted] at comes
    obtain ⟨before, long, rest, rfl, -, misfits, -⟩ := comes
    exact absurd ((fits_iff perm).mpr fits long (by simp)) misfits

/-- `sort` puts the entries in order, each with the secret once, and touches no others. -/
theorem sort_correct (numOfMovies size : Nat) (arrays : Arrays S) (bound : size ≤ numOfMovies)
    (nonempty : 0 < size) (proper : ∀ i < size, Proper (arrays.cell i)) :
    ∃ after, ∃ order : List (Entry S), sort numOfMovies arrays size = .ok after ∧
      (∀ i, size ≤ i → after.cell i = arrays.cell i) ∧
      order.Perm ((List.range size).map arrays.cell) ∧ order.Pairwise Before ∧
      (List.range size).map after.cell = order.map decorate := by
  obtain ⟨after, order, sorted, ordered⟩ := sort_fits bound nonempty (fun i inside => (proper i inside).nonneg)
    fun i inside => (proper i inside).fits
  exact ⟨after, order, sorted, ordered.rest, ordered.perm, ordered.sorted, ordered.cells⟩

-- A round compares entries as they came in.
theorem Selected.compares {size done : Nat} {original raw : Nat → Entry S} {arrays : Arrays S}
    (selected : Selected size done original raw arrays) (inside : done < size) (pair : Nat × Nat)
    (member : pair ∈ compared arrays.scores arrays.movies (Score.negOne, done) (List.range' done (size - done))) :
    (∃ k < size, arrays.cell pair.1 = original k) ∧ ∃ k < size, arrays.cell pair.2 = original k := by
  have plain : ∀ i, done ≤ i → i < size → ∃ k < size, arrays.cell i = original k := by
    intro i later bound
    obtain ⟨k, bound', same⟩ := selected.mem i bound
    exact ⟨k, bound', (selected.plain i later).trans same.symm⟩
  obtain ⟨first, second⟩ := compared_inside _ _ _ _ _ member
  simp only [List.mem_range'_1] at first second
  exact ⟨plain _ (by omega) (by omega), plain _ (by omega) (by omega)⟩

/-- The selection sort, whatever the titles are. If they all fit, it returns with the entries in order;
if not, the first in that order that does not fit decides whether the process is aborted. The titles that
a round compares are all without the secret. -/
theorem sort_selection (numOfMovies size : Nat) (arrays : Arrays S) (nonempty : 0 < size)
    (nonneg : ∀ i < size, 0 ≤ arrays.scores i) :
    ((∃ after, sort numOfMovies arrays size = .ok after) ↔
      size ≤ numOfMovies ∧ ∀ i < size, Fits (arrays.movies i)) ∧
    (∀ after, sort numOfMovies arrays size = .ok after → ∃ order, Ordered size arrays after order) ∧
    (¬ size ≤ numOfMovies → sort numOfMovies arrays size = .error .abort) ∧
    (size ≤ numOfMovies → ∃ order : List (Entry S), order.Perm ((List.range size).map arrays.cell) ∧
      order.Pairwise Before ∧ SortsTo size arrays order (sort numOfMovies arrays size)) ∧
    ∀ round < size, ∀ middle, (List.range round).foldlM (sortStep size) arrays = .ok middle →
      ∃ idx, argmax middle.scores middle.movies round size = .ok idx ∧ round ≤ idx ∧ idx < size ∧
        ∀ pair ∈ compared middle.scores middle.movies (Score.negOne, round) (List.range' round (size - round)),
          (∃ k < size, middle.cell pair.1 = arrays.cell k) ∧ ∃ k < size, middle.cell pair.2 = arrays.cell k := by
  have large : ¬ size ≤ numOfMovies → sort numOfMovies arrays size = .error .abort := fun above => by
    rw [sort, require_bind, if_neg above]
  have selects := fun bound => sort_selects numOfMovies size arrays bound nonempty nonneg
  have returns : ∀ after, sort numOfMovies arrays size = .ok after →
      size ≤ numOfMovies ∧ (∀ i < size, Fits (arrays.movies i)) ∧ ∃ order, Ordered size arrays after order := by
    intro after sorted
    have bound : size ≤ numOfMovies := by
      by_contra above
      rw [large above] at sorted
      cases sorted
    obtain ⟨order, perm, -, comes⟩ := selects bound
    rw [sorted] at comes
    exact ⟨bound, (fits_iff perm).mp comes.1, order, comes.2⟩
  refine ⟨⟨?_, ?_⟩, fun after sorted => (returns after sorted).2.2, large, selects, ?_⟩
  · rintro ⟨after, sorted⟩
    exact ⟨(returns after sorted).1, (returns after sorted).2.1⟩
  · rintro ⟨bound, fits⟩
    obtain ⟨after, -, sorted, -⟩ := sort_fits bound nonempty nonneg fits
    exact ⟨after, sorted⟩
  · intro round inside middle ran
    rcases sort_rounds arrays nonneg round inside with ⟨k, -, raw, -, -, -, -, stopped⟩ | ⟨middle', raw, ran', selected, _⟩
    · rw [stopped] at ran
      cases ran
    obtain rfl : middle' = middle := Except.ok.inj (ran'.symm.trans ran)
    obtain ⟨idx, found, low, high, _⟩ := selected.found inside nonneg
    exact ⟨idx, found, low, high, selected.compares inside⟩

-- Three titles, two of the same score.
theorem sort_selection_ties :
    ∃ after order, sort (S := Int) 3 ⟨fun i => [65 + UInt8.ofNat (2 - i)], fun i => if i = 1 then 7 else 3⟩ 3 =
        .ok after ∧
      Ordered 3 ⟨fun i => [65 + UInt8.ofNat (2 - i)], fun i => if i = 1 then 7 else 3⟩ after order := by
  have selection := sort_selection (S := Int) 3 3
    ⟨fun i => [65 + UInt8.ofNat (2 - i)], fun i => if i = 1 then 7 else 3⟩ (by decide) (by decide)
  obtain ⟨after, sorted⟩ := selection.1.mpr ⟨by decide, by decide⟩
  obtain ⟨order, ordered⟩ := selection.2.1 after sorted
  exact ⟨after, order, sorted, ordered⟩

-- A title of `MAX_LEN` bytes fails the assertion of `add_secret`.
theorem sort_long_title :
    ¬ ∀ (size : Nat) (arrays : Arrays Int), 0 < size → (∀ i < size, 0 ≤ arrays.scores i) →
      ∃ after, sort size arrays size = .ok after := by
  intro always
  obtain ⟨title, length⟩ : ∃ title : CStr, title.length = maxLen :=
    ⟨List.replicate maxLen 65, List.length_replicate⟩
  obtain ⟨after, sorted⟩ := always 1 ⟨fun _ => title, fun _ => 0⟩ (by decide) (by simp)
  have long : ¬ Fits title := by simp [Fits, length]
  have stops : sort 1 (⟨fun _ => title, fun _ => 0⟩ : Arrays Int) 1 = .error (misfit title) := by
    simp only [sort, require_bind, Nat.le_refl, if_true, Nat.sub_self, List.range_zero, List.foldlM_nil]
    show (addSecret title title.length >>= _) = _
    rw [addSecret_eq, if_neg long, error_bind]
  rw [stops] at sorted
  cases sorted

end SPHomework.MovieSort
