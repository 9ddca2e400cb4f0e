import Mathlib.Data.List.Sort
import Mathlib.Data.List.TakeWhile
import Mathlib.Order.PiLex
import Mathlib.Tactic.Common

/-!
# Emacs/Version — version strings

`version-list-<` compares lists of numbers as if zeros were to follow (`versionListLt_iff`), so it
is the order of a linear order.  `version-to-list` signals exactly if it does not know what is
between two numbers, or behind the last one (`versionToList_isSome_iff`).
-/

namespace Emacs

/-! ## Lists of numbers -/

/-- `version-list-not-zero` -/
def versionListNotZero : List ℤ → ℤ
  | [] => 0
  | n :: l => if n = 0 then versionListNotZero l else n

/-- `version-list-<` -/
def versionListLt : List ℤ → List ℤ → Bool
  | m :: l, n :: l' => if m = n then versionListLt l l' else decide (m < n)
  | [], [] => false
  | m :: l, [] => decide (versionListNotZero (m :: l) < 0)
  | [], n :: l' => decide (0 < versionListNotZero (n :: l'))

/-- The numbers, and zeros behind them. -/
def padded (l : List ℤ) : Lex (ℕ → ℤ) := toLex fun i => l.getD i 0

theorem padded_lt_iff {l l' : List ℤ} : padded l < padded l' ↔
    ∃ i, (∀ j < i, l.getD j 0 = l'.getD j 0) ∧ l.getD i 0 < l'.getD i 0 := Iff.rfl

/-- The first numbers decide, or else those behind them. -/
theorem padded_lt_step {l l' : List ℤ} : padded l < padded l' ↔ l.getD 0 0 < l'.getD 0 0 ∨
    (l.getD 0 0 = l'.getD 0 0 ∧ padded l.tail < padded l'.tail) := by
  have htail : ∀ (m : List ℤ) i, m.tail.getD i 0 = m.getD (i + 1) 0 := by
    intro m i
    cases m with
    | nil => rfl
    | cons _ _ => rfl
  rw [padded_lt_iff, padded_lt_iff]
  constructor
  · rintro ⟨_ | i, hsame, hlt⟩
    · exact Or.inl hlt
    · refine Or.inr ⟨hsame 0 (Nat.succ_pos i), i, fun j hj => ?_, ?_⟩
      · rw [htail, htail]
        exact hsame (j + 1) (Nat.succ_lt_succ hj)
      · rwa [htail, htail]
  · rintro (hlt | ⟨hhead, i, hsame, hlt⟩)
    · exact ⟨0, fun j hj => absurd hj (Nat.not_lt_zero j), hlt⟩
    · refine ⟨i + 1, fun j hj => ?_, ?_⟩
      · rcases j with _ | j
        · exact hhead
        · rw [← htail, ← htail]
          exact hsame j (Nat.lt_of_succ_lt_succ hj)
      · rwa [← htail, ← htail]

/-- The empty list is below those whose first number that is not zero is positive. -/
theorem padded_nil_lt_iff (l : List ℤ) : padded [] < padded l ↔ 0 < versionListNotZero l := by
  induction l with
  | nil =>
    rw [versionListNotZero]
    exact iff_of_false (lt_irrefl _) (lt_irrefl _)
  | cons n l ih =>
    rw [padded_lt_step, List.tail_nil, List.tail_cons, ih, versionListNotZero]
    change 0 < n ∨ (0 = n ∧ 0 < versionListNotZero l) ↔ _
    split <;> omega

/-- Below the empty list are those whose first number that is not zero is negative. -/
theorem padded_lt_nil_iff (l : List ℤ) : padded l < padded [] ↔ versionListNotZero l < 0 := by
  induction l with
  | nil =>
    rw [versionListNotZero]
    exact iff_of_false (lt_irrefl _) (lt_irrefl _)
  | cons n l ih =>
    rw [padded_lt_step, List.tail_nil, List.tail_cons, ih, versionListNotZero]
    change n < 0 ∨ (n = 0 ∧ versionListNotZero l < 0) ↔ _
    split <;> omega

/-- The comparison is that of the numbers with zeros behind them. -/
theorem versionListLt_iff (l l' : List ℤ) :
    versionListLt l l' = true ↔ padded l < padded l' := by
  induction l generalizing l' with
  | nil =>
    cases l' with
    | nil => exact iff_of_false Bool.false_ne_true (lt_irrefl _)
    | cons n l' => rw [versionListLt, decide_eq_true_iff, padded_nil_lt_iff]
  | cons m l ih =>
    cases l' with
    | nil => rw [versionListLt, decide_eq_true_iff, padded_lt_nil_iff]
    | cons n l' =>
      rw [versionListLt, padded_lt_step, List.tail_cons, List.tail_cons, ← ih]
      change _ ↔ m < n ∨ (m = n ∧ versionListLt l l' = true)
      split
      next h => simp [h]
      next h => simp [h]

theorem versionListLt_eq_false_iff (l l' : List ℤ) :
    versionListLt l l' = false ↔ ¬padded l < padded l' := by
  rw [← versionListLt_iff, Bool.not_eq_true]

/-- Sorting by the version; it keeps the order of equal versions. -/
def sortVersions {α : Type*} (key : α → List ℤ) (l : List α) : List α :=
  l.mergeSort fun a b => !versionListLt (key b) (key a)

theorem sortVersions_perm {α : Type*} (key : α → List ℤ) (l : List α) :
    (sortVersions key l).Perm l := List.mergeSort_perm l _

/-- No version is below one in front of it. -/
theorem pairwise_sortVersions {α : Type*} (key : α → List ℤ) (l : List α) :
    (sortVersions key l).Pairwise fun a b => versionListLt (key b) (key a) = false := by
  have hle : ∀ a b, (!versionListLt (key b) (key a)) = true ↔
      ¬padded (key b) < padded (key a) := by
    intro a b
    rw [Bool.not_eq_true', versionListLt_eq_false_iff]
  have htrans : ∀ a b c, (!versionListLt (key b) (key a)) = true →
      (!versionListLt (key c) (key b)) = true → (!versionListLt (key c) (key a)) = true := by
    intro a b c hab hbc
    rw [hle] at hab hbc ⊢
    exact not_lt.mpr (le_trans (not_lt.mp hab) (not_lt.mp hbc))
  have htotal : ∀ a b,
      (!versionListLt (key b) (key a) || !versionListLt (key a) (key b)) = true := by
    intro a b
    rw [Bool.or_eq_true, hle, hle]
    exact (le_total _ _).imp not_lt.mpr not_lt.mpr
  refine (List.pairwise_mergeSort htrans htotal l).imp ?_
  intro a b h
  rwa [Bool.not_eq_true'] at h

/-! ## Version strings -/

/-- What `case-fold-search` compares the characters by, and what `[a-zA-Z]` matches then. -/
structure CaseFold where
  fold : Char → Char
  letter : Char → Bool
  fold_dot : fold '.' = '.'
  letter_dot : letter '.' = false

theorem asciiFold_fold_dot : Char.toLower '.' = '.' := by decide

theorem asciiFold_letter_dot : Char.isAlpha '.' = false := by decide

/-- The ASCII letters. -/
def asciiFold : CaseFold :=
  ⟨Char.toLower, Char.isAlpha, asciiFold_fold_dot, asciiFold_letter_dot⟩

/-- `[-._+ ]` -/
def sepChar (c : Char) : Bool := c == '-' || c == '.' || c == '_' || c == '+' || c == ' '

/-- ``^[-._+ ]?\(WORD\|…\)$``, of a text on one line. -/
def sepWord (f : CaseFold) (words : List (List Char)) (s : List Char) : Bool :=
  words.contains (s.map f.fold) || (s.head?.any sepChar && words.contains (s.tail.map f.fold))

/-- `^[-._+]$` -/
def sepSingle (s : List Char) : Bool := s == ['-'] || s == ['.'] || s == ['_'] || s == ['+']

/-- The names of systems that a snapshot may be from. -/
def revisionWords : List (List Char) :=
  ["cvs".toList, "git".toList, "bzr".toList, "svn".toList, "hg".toList, "darcs".toList]

/-- `version-regexp-alist` -/
def versionRegexpAlist (f : CaseFold) : List ((List Char → Bool) × ℤ) :=
  [(sepWord f ["snapshot".toList], -4), (sepSingle, -4), (sepWord f revisionWords, -4),
    (sepWord f ["unknown".toList], -4), (sepWord f ["alpha".toList], -3),
    (sepWord f ["beta".toList], -2), (sepWord f ["pre".toList, "rc".toList], -1)]

/-- ``^[-._+ ]?\([a-zA-Z]\)$``, and the number of the letter. -/
def letterNumber (f : CaseFold) (s : List Char) : Option ℤ :=
  match s with
  | [c] => if f.letter c then some ((f.fold c).toNat - 'a'.toNat + 1) else none
  | [p, c] => if sepChar p && f.letter c then some ((f.fold c).toNat - 'a'.toNat + 1) else none
  | _ => none

/-- What is pushed for the text `s` behind a number, with `rest` behind it; none if it signals. -/
def sepNumbers (f : CaseFold) (alist : List ((List Char → Bool) × ℤ)) (s rest : List Char) :
    Option (List ℤ) :=
  if s = [] ∨ s = ['.'] then some []
  else
    match alist.find? fun entry => entry.1 s with
    | some entry => some [entry.2]
    | none => if rest = [] then (letterNumber f s).map fun n => [n] else none

/-- The number a text of digits spells. -/
def versionNumber (text : List Char) : ℤ :=
  text.foldl (fun (n : ℤ) c => 10 * n + ((c.toNat : ℤ) - ('0'.toNat : ℤ))) 0

/-- The loop, for as many rounds as there are characters at most. -/
def versionLoop (f : CaseFold) (alist : List ((List Char → Bool) × ℤ)) :
    ℕ → List Char → Option (List ℤ)
  | 0, _ => some []
  | fuel + 1, text =>
    if text.head?.any Char.isDigit then
      let rest := text.dropWhile Char.isDigit
      let behind := rest.dropWhile fun c => !c.isDigit
      (sepNumbers f alist (rest.takeWhile fun c => !c.isDigit) behind).bind fun pushed =>
        (versionLoop f alist fuel behind).map fun l =>
          versionNumber (text.takeWhile Char.isDigit) :: (pushed ++ l)
    else some []

/-- `(version-to-list ver)`; none if it signals. -/
def versionToList (f : CaseFold) (alist : List ((List Char → Bool) × ℤ)) (ver : List Char) :
    Option (List ℤ) :=
  let text := if ver.head? = some '.' then '0' :: ver else ver
  if text.head?.any Char.isDigit then versionLoop f alist text.length text else none

/-! ## What it accepts -/

/-- The texts that stand behind a number, each with what is behind it. -/
def separators : List Char → List (List Char × List Char)
  | [] => []
  | c :: text =>
    let s := text.takeWhile fun d => !d.isDigit
    if c.isDigit ∧ s ≠ [] then (s, text.dropWhile fun d => !d.isDigit) :: separators text
    else separators text

/-- It is known what the text between two numbers, or behind the last one, stands for. -/
def Accepts (f : CaseFold) (alist : List ((List Char → Bool) × ℤ)) (s rest : List Char) : Prop :=
  s = ['.'] ∨ (∃ entry ∈ alist, entry.1 s = true) ∨ (rest = [] ∧ (letterNumber f s).isSome)

section

variable {f : CaseFold} {alist : List ((List Char → Bool) × ℤ)} {num s text rest ver : List Char}

/-- A separator is parsed exactly if the alist accepts it. -/
theorem sepNumbers_isSome_iff (hne : s ≠ []) :
    (sepNumbers f alist s rest).isSome ↔ Accepts f alist s rest := by
  rw [sepNumbers, Accepts]
  by_cases hdot : s = ['.']
  · rw [if_pos (Or.inr hdot)]
    exact iff_of_true rfl (Or.inl hdot)
  rw [if_neg (not_or_intro hne hdot)]
  rcases hfind : alist.find? (fun entry => entry.1 s) with _ | entry
  · have hnone : ¬∃ entry ∈ alist, entry.1 s = true := by
      rintro ⟨entry, hentry, htrue⟩
      exact List.find?_eq_none.mp hfind entry hentry htrue
    rw [hfind]
    by_cases hrest : rest = []
    · simp [hdot, hnone, hrest]
    · simp [hdot, hnone, hrest]
  · have hsome : entry.1 s = true := (List.find?_eq_some_iff_append.mp hfind).1
    rw [hfind]
    exact iff_of_true rfl (Or.inr (Or.inl ⟨entry, List.mem_of_find?_eq_some hfind, hsome⟩))

theorem isSome_bind_map {α β γ : Type*} (o : Option α) (o' : Option β) (g : α → β → γ) :
    (o.bind fun a => o'.map (g a)).isSome ↔ o.isSome ∧ o'.isSome := by
  cases o with
  | none => exact iff_of_false Bool.false_ne_true fun h => Bool.false_ne_true h.1
  | some a => rw [Option.bind_some, Option.isSome_map, Option.isSome_some, eq_self, true_and]

/-- No number begins in the text. -/
theorem separators_append_of_other (h : ∀ c ∈ s, c.isDigit = false) (rest : List Char) :
    separators (s ++ rest) = separators rest := by
  induction s with
  | nil => rfl
  | cons c s ih =>
    have hc : ¬(c.isDigit = true ∧
        ((s ++ rest).takeWhile fun d => !d.isDigit) ≠ []) := by
      rintro ⟨hdigit, -⟩
      rw [h c List.mem_cons_self] at hdigit
      cases hdigit
    rw [List.cons_append, separators, if_neg hc, ih fun d hd => h d (List.mem_cons_of_mem _ hd)]

/-- A number and the text behind it. -/
theorem separators_number (hne : num ≠ []) (hnum : ∀ c ∈ num, c.isDigit = true)
    (hs : ∀ c ∈ s, c.isDigit = false) (hrest : ∀ c ∈ rest.head?, c.isDigit = true) :
    separators (num ++ (s ++ rest))
      = if s = [] then separators rest else (s, rest) :: separators rest := by
  have htake : ((s ++ rest).takeWhile fun d => !d.isDigit) = s := by
    rw [List.takeWhile_append_of_pos fun c hc => by rw [hs c hc]; rfl]
    rcases rest with _ | ⟨c, rest⟩
    · rw [List.takeWhile_nil, List.append_nil]
    · rw [List.takeWhile_cons_of_neg (by simp [hrest c rfl]), List.append_nil]
  have hdrop : ((s ++ rest).dropWhile fun d => !d.isDigit) = rest := by
    have hboth := List.takeWhile_append_dropWhile (p := fun d => !d.isDigit) (l := s ++ rest)
    rw [htake] at hboth
    exact List.append_cancel_left hboth
  induction num with
  | nil => exact absurd rfl hne
  | cons c num ih =>
    rw [List.cons_append, separators]
    rcases num with _ | ⟨d, num⟩
    · rw [List.nil_append, htake, hdrop, separators_append_of_other hs]
      by_cases hempty : s = []
      · rw [if_pos hempty, if_neg fun h => h.2 hempty]
      · rw [if_neg hempty, if_pos ⟨hnum c List.mem_cons_self, hempty⟩]
    · have hd : d.isDigit = true := hnum d (List.mem_cons_of_mem _ List.mem_cons_self)
      have hinner : ¬(c.isDigit = true ∧
          ((d :: num ++ (s ++ rest)).takeWhile fun d => !d.isDigit) ≠ []) := by
        rintro ⟨-, h⟩
        refine h ?_
        rw [List.cons_append, List.takeWhile_cons_of_neg (by simp [hd])]
      rw [if_neg hinner]
      exact ih (List.cons_ne_nil _ _) fun e he => hnum e (List.mem_cons_of_mem _ he)

/-- **A version is parsed exactly if all of its separators are accepted.** -/
theorem versionLoop_isSome_iff {fuel : ℕ} (hfuel : text.length ≤ fuel)
    (hdigit : ∀ c ∈ text.head?, c.isDigit = true) :
    (versionLoop f alist fuel text).isSome ↔
      ∀ sep ∈ separators text, Accepts f alist sep.1 sep.2 := by
  induction fuel generalizing text with
  | zero =>
    obtain rfl := List.length_eq_zero_iff.mp (Nat.le_zero.mp hfuel)
    exact iff_of_true rfl fun sep hsep => absurd hsep List.not_mem_nil
  | succ fuel ih =>
    rcases text with _ | ⟨c, text⟩
    · exact iff_of_true rfl fun sep hsep => absurd hsep List.not_mem_nil
    have hc : c.isDigit = true := hdigit c rfl
    set num := (c :: text).takeWhile Char.isDigit with hnum
    set tail := (c :: text).dropWhile Char.isDigit with htail
    set s := tail.takeWhile fun d => !d.isDigit with hs
    set rest := tail.dropWhile fun d => !d.isDigit with hrest
    have hsplit : c :: text = num ++ (s ++ rest) := by
      rw [hs, hrest, List.takeWhile_append_dropWhile, hnum, htail,
        List.takeWhile_append_dropWhile]
    have hnumne : num ≠ [] := by
      rw [hnum, List.takeWhile_cons_of_pos hc]
      exact List.cons_ne_nil _ _
    have hother : ∀ d ∈ s, d.isDigit = false := by
      intro d hd
      have hmem := List.mem_takeWhile_imp hd
      rwa [Bool.not_eq_true'] at hmem
    have hhead : ∀ d ∈ rest.head?, d.isDigit = true := by
      intro d hd
      have hnot := List.head?_dropWhile_not (fun d : Char => !d.isDigit) tail
      rw [← hrest, hd] at hnot
      simpa using hnot
    have hshort : rest.length ≤ fuel := by
      have hlen := congrArg List.length hsplit
      have hpos := List.length_pos_iff.mpr hnumne
      rw [List.length_append, List.length_append] at hlen
      omega
    have hround : versionLoop f alist (fuel + 1) (c :: text)
        = (sepNumbers f alist s rest).bind fun pushed =>
          (versionLoop f alist fuel rest).map fun l => versionNumber num :: (pushed ++ l) := by
      rw [versionLoop, List.head?_cons, Option.any_some, if_pos hc]
    have hseps : separators (c :: text)
        = if s = [] then separators rest else (s, rest) :: separators rest := by
      rw [hsplit]
      exact separators_number hnumne (fun d hd => List.mem_takeWhile_imp hd) hother hhead
    rw [hround, hseps, isSome_bind_map, ih hshort hhead]
    by_cases hempty : s = []
    · have hnothing : sepNumbers f alist s rest = some [] := if_pos (Or.inl hempty)
      rw [if_pos hempty, hnothing]
      exact and_iff_right rfl
    · rw [if_neg hempty, List.forall_mem_cons, sepNumbers_isSome_iff hempty]

/-- **A version is accepted exactly if it begins with a number, and it is known what everything
behind a number stands for.** -/
theorem versionToList_isSome_iff (hstart : ver.head? ≠ some '.') :
    (versionToList f alist ver).isSome ↔ (∃ c ∈ ver.head?, c.isDigit = true) ∧
      ∀ sep ∈ separators ver, Accepts f alist sep.1 sep.2 := by
  rw [versionToList, if_neg hstart]
  rcases ver with _ | ⟨c, ver⟩
  · refine iff_of_false Bool.false_ne_true ?_
    rintro ⟨⟨c, hc, -⟩, -⟩
    cases hc
  rw [List.head?_cons, Option.any_some]
  by_cases hc : c.isDigit = true
  · have hhead : ∀ d ∈ (c :: ver).head?, d.isDigit = true := by
      rintro d ⟨⟩
      exact hc
    rw [if_pos hc, versionLoop_isSome_iff (Nat.le_refl _) hhead]
    exact (and_iff_right ⟨c, rfl, hc⟩).symm
  · rw [if_neg hc]
    refine iff_of_false Bool.false_ne_true ?_
    rintro ⟨⟨d, ⟨⟩, hd⟩, -⟩
    exact hc hd

/-! ## Numbers and dots -/

/-- Two dots are no separator. -/
theorem sepWord_dots {words : List (List Char)}
    (hwords : words.all (fun word => word.head? != some '.') = true) :
    sepWord f words ('.' :: '.' :: s) = false := by
  have hnone : ∀ t, words.contains (('.' :: t).map f.fold) = false := by
    intro t
    refine Bool.eq_false_iff.mpr fun hmem => ?_
    have hword := List.all_eq_true.mp hwords _ (List.contains_iff_mem.mp hmem)
    rw [List.map_cons, f.fold_dot] at hword
    exact absurd hword (by simp)
  rw [sepWord, hnone, List.tail_cons, hnone, Bool.and_false, Bool.or_false]

/-- A text that begins with two dots is not accepted. -/
theorem not_accepts_dots : ¬Accepts f (versionRegexpAlist f) ('.' :: '.' :: s) rest := by
  rintro (h | ⟨entry, hentry, htrue⟩ | ⟨-, h⟩)
  · exact List.cons_ne_nil _ _ (List.cons.inj h).2
  · rw [versionRegexpAlist] at hentry
    simp only [List.mem_cons, List.not_mem_nil, or_false] at hentry
    rcases hentry with rfl | rfl | rfl | rfl | rfl | rfl | rfl
    case inr.inl => simp [sepSingle] at htrue
    all_goals
      dsimp only at htrue
      rw [sepWord_dots (by decide)] at htrue
      cases htrue
  · rcases s with _ | ⟨c, s⟩
    · rw [letterNumber, f.letter_dot, Bool.and_false] at h
      cases h
    · cases h

/-- Between two digits there is no separator. -/
theorem separators_cons_digit {c d : Char} (hd : d.isDigit = true) :
    separators (c :: d :: text) = separators (d :: text) := by
  refine (if_neg ?_ : _)
  rintro ⟨-, h⟩
  exact h (List.takeWhile_cons_of_neg (by simp [hd]))

/-- A dot behind a digit begins a separator. -/
theorem separators_cons_dot {c : Char} (hc : c.isDigit = true) :
    separators (c :: '.' :: text) = ('.' :: text.takeWhile fun d => !d.isDigit,
      text.dropWhile fun d => !d.isDigit) :: separators text := by
  have hdot : separators ('.' :: text) = separators text :=
    separators_append_of_other (s := ['.']) (fun c hc => List.mem_singleton.mp hc ▸ by decide) text
  have htake : ('.' :: text).takeWhile (fun d => !d.isDigit)
      = '.' :: text.takeWhile fun d => !d.isDigit := List.takeWhile_cons_of_pos (by decide)
  have hdrop : ('.' :: text).dropWhile (fun d => !d.isDigit)
      = text.dropWhile fun d => !d.isDigit := List.dropWhile_cons_of_pos (by decide)
  rw [separators, htake, hdrop, hdot]
  exact if_pos ⟨hc, List.cons_ne_nil _ _⟩

/-- Two dots in a row are behind a character that is none. -/
theorem dots_infix_cons_iff {c : Char} (hc : c ≠ '.') :
    ['.', '.'] <:+: c :: text ↔ ['.', '.'] <:+: text := by
  rw [List.infix_cons_iff]
  refine or_iff_right ?_
  intro h
  exact hc (List.cons_prefix_cons.mp h).1.symm

theorem ne_dot_of_isDigit {c : Char} (hc : c.isDigit = true) : c ≠ '.' := by
  rintro rfl
  exact absurd hc (by decide)

/-- In a text of numbers and dots everything between numbers is accepted exactly if there are no
two dots next to each other. -/
theorem forall_accepts_dots_iff (f : CaseFold) : ∀ (c : Char) (text : List Char),
    c.isDigit = true → (∀ d ∈ text, d.isDigit = true ∨ d = '.') →
    ((∀ sep ∈ separators (c :: text), Accepts f (versionRegexpAlist f) sep.1 sep.2) ↔
      ¬['.', '.'] <:+: c :: text)
  | c, [], hc, _ => by
    rw [dots_infix_cons_iff (ne_dot_of_isDigit hc)]
    have hnone : separators [c] = [] := if_neg fun h => h.2 rfl
    rw [hnone]
    refine iff_of_true (fun sep hsep => absurd hsep List.not_mem_nil) fun h => ?_
    exact List.cons_ne_nil _ _ (List.infix_nil.mp h)
  | c, d :: text, hc, hall => by
    obtain ⟨hd, htext⟩ := List.forall_mem_cons.mp hall
    rw [dots_infix_cons_iff (ne_dot_of_isDigit hc)]
    rcases hd with hd | hd
    · rw [separators_cons_digit hd]
      exact forall_accepts_dots_iff f d text hd htext
    subst hd
    rw [separators_cons_dot hc, List.forall_mem_cons]
    rcases text with _ | ⟨d, text⟩
    · refine iff_of_true ⟨Or.inl rfl, fun sep hsep => absurd hsep List.not_mem_nil⟩ fun h => ?_
      exact absurd h.length_le (by decide)
    obtain ⟨hd, hrest⟩ := List.forall_mem_cons.mp htext
    rcases hd with hd | hd
    · have hpre : ¬['.', '.'] <+: '.' :: d :: text := by
        intro h
        have hsecond := (List.cons_prefix_cons.mp h).2
        exact ne_dot_of_isDigit hd (List.cons_prefix_cons.mp hsecond).1.symm
      rw [List.infix_cons_iff, or_iff_right hpre, ← forall_accepts_dots_iff f d text hd hrest,
        List.takeWhile_cons_of_neg (by simp [hd])]
      exact and_iff_right (Or.inl rfl)
    · subst hd
      rw [List.takeWhile_cons_of_pos (by decide)]
      refine iff_of_false (fun h => not_accepts_dots h.1) (not_not_intro ?_)
      exact ⟨[], text, rfl⟩

/-- Numbers and dots make a version if no two dots are next to each other. -/
theorem versionToList_dots_isSome_iff (f : CaseFold) {c : Char} (hc : c.isDigit = true)
    (htext : ∀ d ∈ text, d.isDigit = true ∨ d = '.') :
    (versionToList f (versionRegexpAlist f) (c :: text)).isSome ↔
      ¬['.', '.'] <:+: c :: text := by
  have hstart : (c :: text).head? ≠ some '.' :=
    fun h => ne_dot_of_isDigit hc (Option.some.inj h)
  rw [versionToList_isSome_iff hstart, forall_accepts_dots_iff f c text hc htext]
  exact and_iff_right ⟨c, rfl, hc⟩

end

end Emacs
