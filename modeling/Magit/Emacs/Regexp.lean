import Mathlib.Tactic.Common

/-!
# Emacs/Regexp — regular expressions with groups

`looking-at` tries the ways to match in order: of a repetition the longest first, of an optional part
that it is there.  Where the rest of the expression cannot begin with a character of the repetition,
only the longest is left (`ways_group_many_seq`, `ways_optional_plus_seq`).
-/

namespace Emacs

/-- A regular expression; `many` is a set of characters with a star. -/
inductive Regexp
  | char (p : Char → Bool)
  | many (p : Char → Bool)
  | optional (r : Regexp)
  | seq (r r' : Regexp)
  | group (n : ℕ) (r : Regexp)
  /-- `$`. -/
  | eol

/-- What the groups have matched. -/
abbrev Groups := ℕ → Option (List Char)

/-- What can be left when characters have been passed over, the least first. -/
def afterMany (p : Char → Bool) : List Char → List (List Char)
  | [] => [[]]
  | c :: text => if p c then afterMany p text ++ [c :: text] else [c :: text]

namespace Regexp

/-- A set with a plus. -/
def plus (p : Char → Bool) : Regexp := seq (char p) (many p)

/-- The ways to match at the front of a text, in the order in which they are tried: what is left of
the text, and the groups. -/
def ways : Regexp → List Char → Groups → List (List Char × Groups)
  | char p, text, g =>
    match text with
    | [] => []
    | c :: text => if p c then [(text, g)] else []
  | many p, text, g => (afterMany p text).map fun rest => (rest, g)
  | optional r, text, g => r.ways text g ++ [(text, g)]
  | seq r r', text, g => (r.ways text g).flatMap fun way => r'.ways way.1 way.2
  | group n r, text, g => (r.ways text g).map fun way =>
    (way.1, Function.update way.2 n (some (text.take (text.length - way.1.length))))
  | eol, text, g => if text.head?.all (· = '\n') then [(text, g)] else []

/-- The groups of the first way, as `looking-at` leaves them. -/
def lookingAt (r : Regexp) (text : List Char) : Option Groups :=
  (r.ways text fun _ => none).head?.map Prod.snd

/-- The groups of the first way to the end of the text, as `string-match` leaves them for an
expression between ``\\` `` and `\\'`. -/
def matchWhole (r : Regexp) (text : List Char) : Option Groups :=
  ((r.ways text fun _ => none).find? (·.1 = [])).map Prod.snd

variable {p : Char → Bool} {r r' : Regexp} {run rest : List Char} {g g' : Groups} {n : ℕ}

@[simp]
theorem ways_char_nil : (char p).ways [] g = [] := rfl

@[simp]
theorem ways_char_cons (c : Char) (text : List Char) :
    (char p).ways (c :: text) g = if p c then [(text, g)] else [] := rfl

theorem ways_many (text : List Char) :
    (many p).ways text g = (afterMany p text).map fun rest => (rest, g) := rfl

theorem ways_optional (text : List Char) :
    (optional r).ways text g = r.ways text g ++ [(text, g)] := rfl

@[simp]
theorem ways_seq (text : List Char) :
    (seq r r').ways text g = (r.ways text g).flatMap fun way => r'.ways way.1 way.2 := rfl

@[simp]
theorem ways_group (text : List Char) :
    (group n r).ways text g = (r.ways text g).map fun way =>
      (way.1, Function.update way.2 n (some (text.take (text.length - way.1.length)))) := rfl

@[simp]
theorem ways_eol (text : List Char) :
    eol.ways text g = if text.head?.all (· = '\n') then [(text, g)] else [] := rfl

/-- The expression matches no text that begins with one of these characters. -/
def Refuses (r : Regexp) (p : Char → Bool) : Prop :=
  ∀ c text g, p c = true → r.ways (c :: text) g = []

/-! ## Refusing -/

theorem refuses_char {q : Char → Bool} (h : ∀ c, p c = true → q c = false) :
    (char q).Refuses p := by
  intro c text g hc
  simp [h c hc]

theorem Refuses.seq (h : r.Refuses p) (r' : Regexp) : (r.seq r').Refuses p := by
  intro c text g hc
  rw [ways_seq, h c text g hc, List.flatMap_nil]

/-- An optional part and what follows refuse what both refuse. -/
theorem Refuses.optional_seq (h : r.Refuses p) (h' : r'.Refuses p) :
    (r.optional.seq r').Refuses p := by
  intro c text g hc
  rw [ways_seq, ways_optional, h c text g hc, List.nil_append, List.flatMap_singleton]
  exact h' c text g hc

theorem Refuses.group (h : r.Refuses p) (n : ℕ) : (r.group n).Refuses p := by
  intro c text g hc
  rw [ways_group, h c text g hc, List.map_nil]

theorem refuses_eol (h : ∀ c, p c = true → c ≠ '\n') : eol.Refuses p := by
  intro c text g hc
  simp [h c hc]

/-! ## Repetitions -/

/-- The longest run comes first, and the others leave a character of the run. -/
theorem afterMany_append (hrun : ∀ c ∈ run, p c = true) (hrest : ∀ c ∈ rest.head?, p c = false) :
    ∃ others, afterMany p (run ++ rest) = rest :: others ∧
      ∀ text ∈ others, ∃ c text', text = c :: text' ∧ p c = true := by
  induction run with
  | nil =>
    refine ⟨[], ?_, fun _ h => absurd h List.not_mem_nil⟩
    rcases rest with _ | ⟨c, rest⟩
    · rfl
    · rw [List.nil_append, afterMany, hrest c rfl, if_neg Bool.false_ne_true]
  | cons c run ih =>
    obtain ⟨hc, hrun⟩ := List.forall_mem_cons.mp hrun
    obtain ⟨others, hothers, hstart⟩ := ih hrun
    refine ⟨others ++ [c :: (run ++ rest)], ?_, ?_⟩
    · rw [List.cons_append, afterMany, hc, if_pos rfl, hothers, List.cons_append]
    · intro text htext
      rcases List.mem_append.mp htext with htext | htext
      · exact hstart text htext
      · exact ⟨c, run ++ rest, List.mem_singleton.mp htext, hc⟩

/-- Ways that leave a character of the run come to nothing. -/
theorem flatMap_eq_nil {ways : List (List Char × Groups)} (hr : r.Refuses p)
    (h : ∀ way ∈ ways, ∃ c text, way.1 = c :: text ∧ p c = true) :
    (ways.flatMap fun way => r.ways way.1 way.2) = [] := by
  refine List.flatMap_eq_nil_iff.mpr fun way hway => ?_
  obtain ⟨c, text, htext, hc⟩ := h way hway
  rw [htext]
  exact hr c text way.2 hc

theorem take_length_sub (run rest : List Char) :
    (run ++ rest).take ((run ++ rest).length - rest.length) = run := by
  rw [List.length_append, Nat.add_sub_cancel, List.take_left]

theorem ways_char_seq {c : Char} (hc : p c = true) (text : List Char) :
    ((char p).seq r).ways (c :: text) g = r.ways text g := by
  simp [hc]

/-- A repetition is matched by the longest run if what comes after it refuses its characters. -/
theorem ways_group_many_seq (hrun : ∀ c ∈ run, p c = true) (hrest : ∀ c ∈ rest.head?, p c = false)
    (hr : r.Refuses p) :
    (((many p).group n).seq r).ways (run ++ rest) g =
      r.ways rest (Function.update g n (some run)) := by
  obtain ⟨others, hothers, hstart⟩ := afterMany_append hrun hrest
  rw [ways_seq, ways_group, ways_many, hothers]
  simp only [List.map_cons, List.flatMap_cons, take_length_sub]
  refine (congrArg (_ ++ ·) (flatMap_eq_nil hr fun way hway => ?_)).trans (List.append_nil _)
  simp only [List.mem_map, exists_exists_and_eq_and] at hway
  obtain ⟨text, htext, rfl⟩ := hway
  exact hstart text htext

/-- An optional part that does not match is not there. -/
theorem ways_optional_seq_of_nil (h : r'.ways rest g = []) :
    ((optional (r'.group n)).seq r).ways rest g = r.ways rest g := by
  rw [ways_seq, ways_optional, ways_group, h, List.map_nil, List.nil_append, List.flatMap_singleton]

theorem ways_char_eq_nil (hrest : ∀ c ∈ rest.head?, p c = false) : (char p).ways rest g = [] := by
  rcases rest with _ | ⟨c, rest⟩
  · rfl
  · simp [hrest c rfl]

/-- So is a repetition that must not be empty, if it is there. -/
theorem ways_optional_plus_seq (hrun : ∀ c ∈ run, p c = true)
    (hrest : ∀ c ∈ rest.head?, p c = false) (hr : r.Refuses p) :
    ((optional ((plus p).group n)).seq r).ways (run ++ rest) g =
      r.ways rest (if run = [] then g else Function.update g n (some run)) := by
  rcases run with _ | ⟨c, run⟩
  · refine ways_optional_seq_of_nil ?_
    rw [List.nil_append, plus, ways_seq, ways_char_eq_nil hrest, List.flatMap_nil]
  · obtain ⟨hc, hrun⟩ := List.forall_mem_cons.mp hrun
    obtain ⟨others, hothers, hstart⟩ := afterMany_append hrun hrest
    have hplus : (plus p).ways (c :: run ++ rest) g =
        (rest, g) :: others.map fun text => (text, g) := by
      rw [plus, List.cons_append, ways_char_seq hc, ways_many, hothers, List.map_cons]
    rw [ways_seq, ways_optional, ways_group, hplus]
    simp only [List.map_cons, List.cons_append, List.flatMap_cons]
    rw [← List.cons_append, take_length_sub, if_neg (List.cons_ne_nil _ _)]
    refine (congrArg (_ ++ ·) (flatMap_eq_nil hr fun way hway => ?_)).trans (List.append_nil _)
    rcases List.mem_append.mp hway with hway | hway
    · simp only [List.mem_map, exists_exists_and_eq_and] at hway
      obtain ⟨text, htext, rfl⟩ := hway
      exact hstart text htext
    · rw [List.mem_singleton.mp hway]
      exact ⟨c, run ++ rest, rfl, hc⟩

/-- An optional character is matched if it is there. -/
theorem ways_optional_char_seq {o : Option Char} (ho : ∀ c ∈ o, p c = true)
    (hrest : ∀ c ∈ rest.head?, p c = false) (hr : r.Refuses p) :
    ((optional ((char p).group n)).seq r).ways (o.toList ++ rest) g =
      r.ways rest (if o = none then g else Function.update g n (some o.toList)) := by
  rcases o with _ | c
  · exact ways_optional_seq_of_nil (ways_char_eq_nil hrest)
  · have hchar : (char p).ways (c :: rest) g = [(rest, g)] := by simp [ho c rfl]
    rw [Option.toList_some, List.singleton_append, ways_seq, ways_optional, ways_group, hchar]
    simp only [List.map_cons, List.map_nil, List.cons_append, List.nil_append, List.flatMap_cons,
      List.flatMap_nil, List.append_nil, hr c rest g (ho c rfl)]
    rw [← List.singleton_append, take_length_sub, if_neg (by simp)]

theorem lookingAt_of_ways {r : Regexp} {text : List Char} {ways : List (List Char × Groups)}
    (h : (r.ways text fun _ => none) = (rest, g) :: ways) : r.lookingAt text = some g := by
  rw [lookingAt, h]
  rfl

/-! ## Every way to match -/

section

variable {text : List Char}

/-- What a repeated set leaves is what is behind a run of it. -/
theorem mem_afterMany :
    rest ∈ afterMany p text ↔ ∃ run, text = run ++ rest ∧ ∀ c ∈ run, p c = true := by
  induction text with
  | nil =>
    rw [afterMany, List.mem_singleton]
    constructor
    · rintro rfl
      exact ⟨[], rfl, by simp⟩
    · rintro ⟨run, htext, -⟩
      exact (List.append_eq_nil_iff.mp htext.symm).2
  | cons c text ih =>
    have hcons : (∃ run, c :: text = run ++ rest ∧ ∀ d ∈ run, p d = true)
        ↔ (p c = true ∧ rest ∈ afterMany p text) ∨ rest = c :: text := by
      rw [ih]
      constructor
      · rintro ⟨_ | ⟨d, run⟩, htext, hrun⟩
        · exact .inr htext.symm
        · obtain ⟨rfl, htail⟩ := List.cons.inj htext
          obtain ⟨hc, hrun⟩ := List.forall_mem_cons.mp hrun
          exact .inl ⟨hc, run, htail, hrun⟩
      · rintro (⟨hc, run, rfl, hrun⟩ | rfl)
        · exact ⟨c :: run, rfl, List.forall_mem_cons.mpr ⟨hc, hrun⟩⟩
        · exact ⟨[], rfl, by simp⟩
    rw [hcons, afterMany]
    split_ifs with hc
    · rw [List.mem_append, List.mem_singleton, and_iff_right hc]
    · rw [List.mem_singleton, or_iff_right fun h => hc h.1]

theorem mem_ways_char : (rest, g') ∈ (char p).ways text g ↔
    ∃ c, p c = true ∧ text = c :: rest ∧ g' = g := by
  rcases text with _ | ⟨c, text⟩
  · simp
  · by_cases hc : p c = true
    · simp only [ways_char_cons, if_pos hc, List.mem_singleton, Prod.mk.injEq, List.cons.injEq]
      grind
    · simp only [ways_char_cons, if_neg hc, List.not_mem_nil, false_iff, List.cons.injEq]
      grind

theorem mem_ways_many : (rest, g') ∈ (many p).ways text g ↔
    (∃ run, text = run ++ rest ∧ ∀ c ∈ run, p c = true) ∧ g' = g := by
  rw [← mem_afterMany, ways_many]
  simp [eq_comm]

theorem mem_ways_seq : (rest, g') ∈ (seq r r').ways text g ↔
    ∃ rest₁ g₁, (rest₁, g₁) ∈ r.ways text g ∧ (rest, g') ∈ r'.ways rest₁ g₁ := by
  simp

theorem mem_ways_optional : (rest, g') ∈ (optional r).ways text g ↔
    (rest, g') ∈ r.ways text g ∨ (rest = text ∧ g' = g) := by
  simp [ways_optional]

theorem mem_ways_group : (rest, g') ∈ (group n r).ways text g ↔
    ∃ g₁, (rest, g₁) ∈ r.ways text g
      ∧ g' = Function.update g₁ n (some (text.take (text.length - rest.length))) := by
  simp only [ways_group, List.mem_map, Prod.exists, Prod.mk.injEq]
  grind

end

/-- The groups are those of every way to the end, if they are the same for all. -/
theorem matchWhole_eq {text : List Char} (hway : ([], g) ∈ r.ways text fun _ => none)
    (hunique : ∀ g', ([], g') ∈ (r.ways text fun _ => none) → g' = g) :
    r.matchWhole text = some g := by
  rcases hfind : (r.ways text fun _ => none).find? (·.1 = []) with _ | ⟨rest, g'⟩
  · exact absurd (decide_eq_true rfl) (List.find?_eq_none.mp hfind _ hway)
  · have hwhole := List.find?_some hfind
    obtain rfl : rest = [] := of_decide_eq_true hwhole
    rw [matchWhole, hfind, Option.map_some, hunique g' (List.mem_of_find?_eq_some hfind)]

end Regexp

end Emacs
