import Magit.Emacs.Pieces

/-!
# Emacs/Unquoted — names that are put into a regular expression as they are

A dot of such a name matches any character but a newline, a plus repeats what is before it, and
other characters match themselves, whatever their case.  An asterisk is taken to have been replaced
with a group that is not empty.  `Fits` says which texts a name matches, without mentioning regular
expressions (`matches_unquoted`), and `StandsIn` what an asterisk stands for (`matchWhole_star`).
-/

namespace Emacs

section

variable (fold : Char → Char)

/-- What a character of a name matches; an asterisk has been replaced with ``\(.+\)``, the group of
this number. -/
def pieceOf (n : ℕ) (c : Char) : Piece :=
  if c = '*' then ⟨(· != '\n'), true, some n⟩
  else ⟨fun d => if c = '.' then d != '\n' else fold d == fold c, false, none⟩

/-- A name read as a regular expression, of which the piece before and the number of the next group
are given; it contains no backslash and none of `[?^`.  There is no piece before only at the
beginning, where a plus stands for itself.  A plus behind a group changes nothing: the first round
takes what several ones would. -/
def unquoted : ℕ → Option Piece → List Char → List Piece
  | _, before, [] => before.toList
  | n, none, c :: name => unquoted (if c = '*' then n + 1 else n) (some (pieceOf fold n c)) name
  | n, some before, c :: name =>
    if c = '+' then unquoted n (some { before with plus := true }) name
    else before :: unquoted (if c = '*' then n + 1 else n) (some (pieceOf fold n c)) name

/-! ## Which texts a name fits -/

/-- A character of a name, as an expression, matches a character. -/
def Stands (c d : Char) : Prop := if c = '.' ∨ c = '*' then d ≠ '\n' else fold d = fold c

instance (c d : Char) : Decidable (Stands fold c d) :=
  inferInstanceAs (Decidable (if c = '.' ∨ c = '*' then d ≠ '\n' else fold d = fold c))

/-- **The texts that a name matches** — an asterisk, and what plusses follow, stand for one or more
characters, anything else for a single one. -/
inductive Fits : List Char → List Char → Prop
  | nil : Fits [] []
  | one {c d : Char} {name text : List Char} : c ≠ '*' → name.head? ≠ some '+' →
    Stands fold c d → Fits name text → Fits (c :: name) (d :: text)
  | run {c : Char} {name run text : List Char} : c = '*' ∨ name.head? = some '+' → run ≠ [] →
    (∀ d ∈ run, Stands fold c d) → Fits (name.dropWhile (· = '+')) text →
    Fits (c :: name) (run ++ text)

/-- A text in three parts, of which an asterisk of a name stands for the second one. -/
structure Parts (before behind text textBefore part textBehind : List Char) : Prop where
  text : text = textBefore ++ (part ++ textBehind)
  before : Fits fold before textBefore
  ne_nil : part ≠ []
  line : ∀ d ∈ part, d ≠ '\n'
  behind : Fits fold (behind.dropWhile (· = '+')) textBehind

/-- **What the asterisk stands for** — what is before it takes as much as is possible, and after
that the asterisk. -/
def StandsIn (before behind text part : List Char) : Prop :=
  ∃ textBefore textBehind, Parts fold before behind text textBefore part textBehind ∧
    ∀ textBefore' part' textBehind',
      Parts fold before behind text textBefore' part' textBehind' →
        textBefore'.length ≤ textBefore.length ∧
          (textBefore'.length = textBefore.length → part'.length ≤ part.length)

end

section

variable {fold : Char → Char} {n : ℕ} {c : Char} {p : Piece} {name before behind text : List Char}

/-! ## Pieces of a name -/

/-- The runs that a piece spells, by its character and its `+`. -/
theorem spells_pieceOf {plus : Bool} {run : List Char} :
    Piece.Spells { pieceOf fold n c with plus := plus } run ↔
      run ≠ [] ∧ (plus = false → run.length = 1) ∧ ∀ d ∈ run, Stands fold c d := by
  have hset : ∀ d, (pieceOf fold n c).set d = true ↔ Stands fold c d := by
    intro d
    unfold pieceOf Stands
    by_cases hstar : c = '*'
    · simp [hstar]
    · by_cases hdot : c = '.'
      · simp [hdot]
      · simp [hstar, hdot]
  constructor
  · rintro ⟨hne, hone, hmem⟩
    exact ⟨hne, hone, fun d hd => (hset d).mp (hmem d hd)⟩
  · rintro ⟨hne, hone, hstands⟩
    exact ⟨hne, hone, fun d hd => (hset d).mpr (hstands d hd)⟩

theorem unquoted_plus (p : Piece) (name : List Char) :
    unquoted fold n (some p) ('+' :: name) = unquoted fold n (some { p with plus := true }) name := by
  rw [unquoted, if_pos rfl]

theorem unquoted_of_ne (hc : c ≠ '+') (p : Piece) (name : List Char) :
    unquoted fold n (some p) (c :: name) = p :: unquoted fold n none (c :: name) :=
  if_neg hc

theorem unquoted_some (p : Piece) (name : List Char) : unquoted fold n (some p) name =
    { p with plus := p.plus || name.head? = some '+' } ::
      unquoted fold n none (name.dropWhile (· = '+')) := by
  induction name generalizing p with
  | nil => simp [unquoted]
  | cons c name ih =>
    by_cases hc : c = '+'
    · subst hc
      rw [unquoted_plus, ih]
      simp
    · rw [unquoted_of_ne hc, List.dropWhile_cons_of_neg (by simpa using hc)]
      simp [hc]

/-- The first piece of a name, with the plusses behind it. -/
theorem unquoted_cons : unquoted fold n none (c :: name) =
    { pieceOf fold n c with plus := c = '*' || name.head? = some '+' } ::
      unquoted fold (if c = '*' then n + 1 else n) none (name.dropWhile (· = '+')) := by
  rw [unquoted, unquoted_some]
  congr 2
  unfold pieceOf
  split <;> simp [*]

theorem dropWhile_plus (h : name.head? ≠ some '+') : name.dropWhile (· = '+') = name := by
  cases name with
  | nil => rfl
  | cons c name => exact List.dropWhile_cons_of_neg (by simpa using h)

/-- A text fits a name if its front is spelled by the first character and its rest fits the rest. -/
theorem fits_cons : Fits fold (c :: name) text ↔
    ∃ run rest, text = run ++ rest ∧
      (run ≠ [] ∧ ((c = '*' || name.head? = some '+') = false → run.length = 1) ∧
        ∀ d ∈ run, Stands fold c d) ∧ Fits fold (name.dropWhile (· = '+')) rest := by
  constructor
  · intro h
    cases h with
    | @one _ d _ text hstar hplus hstands hfits =>
      refine ⟨[d], text, rfl, ⟨List.cons_ne_nil _ _, fun _ => rfl, by simpa using hstands⟩, ?_⟩
      rwa [dropWhile_plus hplus]
    | @run _ _ run text hmany hne hstands hfits =>
      refine ⟨run, text, rfl, ⟨hne, fun hone => ?_, hstands⟩, hfits⟩
      simp only [Bool.or_eq_false_iff, decide_eq_false_iff_not] at hone
      exact absurd hmany (not_or.mpr hone)
  · rintro ⟨run, rest, rfl, ⟨hne, hone, hstands⟩, hfits⟩
    by_cases hmany : c = '*' ∨ name.head? = some '+'
    · exact .run hmany hne hstands hfits
    · obtain ⟨hstar, hplus⟩ := not_or.mp hmany
      obtain ⟨d, rfl⟩ := List.length_eq_one_iff.mp (hone (by simp [hstar, hplus]))
      rw [dropWhile_plus hplus] at hfits
      exact .one hstar hplus (hstands d (List.mem_singleton_self d)) hfits

/-- **A name, read as an expression, matches the texts it fits.** -/
theorem matches_unquoted (n : ℕ) (name text : List Char) :
    Piece.Matches (unquoted fold n none name) text ↔ Fits fold name text := by
  induction hlength : name.length using Nat.strongRecOn generalizing n name text with
  | ind length ih =>
    subst hlength
    cases name with
    | nil =>
      constructor
      · rintro ⟨runs, hspells, rfl⟩
        cases hspells
        exact .nil
      · intro h
        cases h
        exact ⟨[], .nil, rfl⟩
    | cons c name =>
      rw [unquoted_cons, Piece.matches_cons, fits_cons]
      refine exists₂_congr fun run rest => and_congr_right fun _ => and_congr spells_pieceOf ?_
      exact ih _ (Nat.lt_succ_of_le (List.dropWhile_suffix _).length_le) _ _ _ rfl

/-- **An ordinary name** matches itself only, whatever the case. -/
theorem fits_iff_of_plain (hplain : ∀ c ∈ name, c ∉ ['.', '+', '*']) :
    Fits fold name text ↔ text.map fold = name.map fold := by
  induction name generalizing text with
  | nil =>
    rw [List.map_nil, List.map_eq_nil_iff]
    constructor
    · rintro ⟨⟩
      rfl
    · rintro rfl
      exact .nil
  | cons c name ih =>
    obtain ⟨hc, hplain⟩ := List.forall_mem_cons.mp hplain
    have hplus : name.head? ≠ some '+' := by
      intro hhead
      exact absurd (List.mem_of_head? hhead) fun hmem => hplain _ hmem (by decide)
    simp only [List.mem_cons, List.not_mem_nil, or_false, not_or] at hc
    obtain ⟨hdot, -, hstar⟩ := hc
    have hstands : ∀ {d}, Stands fold c d ↔ fold d = fold c := by
      intro d
      rw [Stands, if_neg (not_or.mpr ⟨hdot, hstar⟩)]
    rw [fits_cons, dropWhile_plus hplus]
    constructor
    · rintro ⟨run, rest, rfl, ⟨-, hone, hrun⟩, hfits⟩
      obtain ⟨d, rfl⟩ := List.length_eq_one_iff.mp (hone (by simp [hstar, hplus]))
      rw [List.map_append, (ih hplain).mp hfits, List.map_singleton, List.map_cons,
        hstands.mp (hrun d (List.mem_singleton_self d)), List.singleton_append]
    · intro hmap
      cases text with
      | nil => cases hmap
      | cons d text =>
        obtain ⟨hd, hmap⟩ := List.cons.inj hmap
        refine ⟨[d], text, rfl, ⟨List.cons_ne_nil _ _, fun _ => rfl, ?_⟩, (ih hplain).mpr hmap⟩
        intro e he
        rw [List.mem_singleton.mp he]
        exact hstands.mpr hd

/-! ## The asterisk -/

/-- A name is read piece by piece, up to a character that begins a new one. -/
theorem unquoted_append (hstar : '*' ∉ before) (hc : c ≠ '+') (rest : List Char) :
    ∀ start : Option Piece, unquoted fold n start (before ++ c :: rest) =
      unquoted fold n start before ++ unquoted fold n none (c :: rest) := by
  induction before with
  | nil =>
    intro start
    cases start with
    | none => rfl
    | some p => exact unquoted_of_ne hc p rest
  | cons d before ih =>
    obtain ⟨hd, hstar⟩ := List.ne_and_not_mem_of_not_mem_cons hstar
    have hnone : unquoted fold n none (d :: before ++ c :: rest) =
        unquoted fold n none (d :: before) ++ unquoted fold n none (c :: rest) := by
      rw [List.cons_append, unquoted, unquoted, if_neg (Ne.symm hd), ih hstar]
    intro start
    cases start with
    | none => exact hnone
    | some p =>
      by_cases hplus : d = '+'
      · rw [hplus, List.cons_append, unquoted_plus, unquoted_plus, ih hstar]
      · rw [unquoted_of_ne hplus, List.cons_append, unquoted_of_ne hplus, List.cons_append]
        exact congrArg (p :: ·) hnone

/-- Groups are numbered from the left. -/
theorem group_unquoted {m : ℕ} (hm : m < n) {start : Option Piece}
    (hstart : ∀ p ∈ start, p.group ≠ some m) :
    ∀ p ∈ unquoted fold n start name, p.group ≠ some m := by
  induction name generalizing n start with
  | nil => exact fun p hp => hstart p (Option.mem_toList.mp hp)
  | cons c name ih =>
    have hnext : ∀ p ∈ unquoted fold (if c = '*' then n + 1 else n) (some (pieceOf fold n c)) name,
        p.group ≠ some m := by
      refine ih (by split <;> omega) ?_
      rintro _ ⟨⟩
      unfold pieceOf
      split
      · exact fun heq => Nat.ne_of_gt hm (Option.some.inj heq)
      · exact fun heq => by cases heq
    cases start with
    | none => exact hnext
    | some p =>
      by_cases hplus : c = '+'
      · rw [hplus, unquoted_plus]
        exact ih hm (by rintro _ ⟨⟩; exact hstart p rfl)
      · rw [unquoted_of_ne hplus]
        exact List.forall_mem_cons.mpr ⟨hstart p rfl, hnext⟩

/-- Without an asterisk there are no groups. -/
theorem group_unquoted_of_not_mem (hstar : '*' ∉ name) {m : ℕ} {start : Option Piece}
    (hstart : ∀ p ∈ start, p.group ≠ some m) :
    ∀ p ∈ unquoted fold n start name, p.group ≠ some m := by
  induction name generalizing start with
  | nil => exact fun p hp => hstart p (Option.mem_toList.mp hp)
  | cons c name ih =>
    obtain ⟨hc, hstar⟩ := List.ne_and_not_mem_of_not_mem_cons hstar
    have hnext : ∀ p ∈ unquoted fold n none (c :: name), p.group ≠ some m := by
      rw [unquoted, if_neg (Ne.symm hc)]
      refine ih hstar ?_
      rintro _ ⟨⟩
      rw [pieceOf, if_neg (Ne.symm hc)]
      exact fun heq => by cases heq
    cases start with
    | none => exact hnext
    | some p =>
      by_cases hplus : c = '+'
      · rw [hplus, unquoted_plus]
        exact ih hstar (by rintro _ ⟨⟩; exact hstart p rfl)
      · rw [unquoted_of_ne hplus]
        exact List.forall_mem_cons.mpr ⟨hstart p rfl, hnext⟩

/-- The piece for an asterisk, and what is behind it. -/
theorem unquoted_star : unquoted fold n none ('*' :: name) =
    pieceOf fold n '*' :: unquoted fold (n + 1) none (name.dropWhile (· = '+')) :=
  unquoted_cons

/-- What surrounds the star of a name are the texts that the two halves of the name fit. -/
theorem around_iff {textBefore part textBehind : List Char} :
    Piece.Around (unquoted fold n none before) (pieceOf fold n '*')
        (unquoted fold (n + 1) none (behind.dropWhile (· = '+'))) text textBefore part textBehind ↔
      Parts fold before behind text textBefore part textBehind := by
  have hstands : ∀ {d}, Stands fold '*' d ↔ d ≠ '\n' := by
    intro d
    rw [Stands, if_pos (.inr rfl)]
  have hpiece : pieceOf fold n '*' = { pieceOf fold n '*' with plus := true } := rfl
  rw [hpiece]
  constructor
  · rintro ⟨htext, hbefore, hpart, hbehind⟩
    obtain ⟨hne, -, hline⟩ := spells_pieceOf.mp hpart
    exact ⟨htext, (matches_unquoted _ _ _).mp hbefore, hne, fun d hd => hstands.mp (hline d hd),
      (matches_unquoted _ _ _).mp hbehind⟩
  · rintro ⟨htext, hbefore, hne, hline, hbehind⟩
    refine ⟨htext, (matches_unquoted _ _ _).mpr hbefore, spells_pieceOf.mpr ⟨hne, ?_, ?_⟩,
      (matches_unquoted _ _ _).mpr hbehind⟩
    · exact fun hplus => absurd hplus.symm Bool.false_ne_true
    · exact fun d hd => hstands.mpr (hline d hd)

/-- **What the first group captures** is what the first asterisk stands for. -/
theorem matchWhole_star (hstar : '*' ∉ before) {o : Option (List Char)} :
    (∃ g, (Piece.sequence (unquoted fold n none (before ++ '*' :: behind))).matchWhole text = some g ∧
      g n = o) ↔ ∃ part, o = some part ∧ StandsIn fold before behind text part := by
  rw [unquoted_append hstar (by decide), unquoted_star,
    Piece.matchWhole_around rfl (group_unquoted (Nat.lt_succ_self n) (by simp))]
  refine exists_congr fun part => and_congr_right fun _ => ?_
  exact exists₂_congr fun textBefore textBehind => and_congr around_iff
    (forall₃_congr fun _ _ _ => imp_congr_left around_iff)

/-- Without an asterisk nothing is captured. -/
theorem matchWhole_of_not_mem (hstar : '*' ∉ name) {o : Option (List Char)} :
    (∃ g, (Piece.sequence (unquoted fold n none name)).matchWhole text = some g ∧ g n = o) ↔
      o = none ∧ Fits fold name text := by
  rw [Piece.matchWhole_without (group_unquoted_of_not_mem hstar (by simp)), matches_unquoted]

end

end Emacs
