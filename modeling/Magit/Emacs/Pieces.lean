import Magit.Emacs.Regexp
import Mathlib.Data.List.Forall2
import Mathlib.Data.List.TakeWhile

/-!
# Emacs/Pieces — sets of characters in a row, some with a plus

Such an expression is read by giving a run of characters to each piece.  The first way to match is
the one that gives the most to the first repetition, and among those to the second one, and so on
(`findSome?_ways_sequence`).  So it leaves as little as is possible (`findSome?_ways_shortest`), and
a group of its own in the middle begins as late as is possible and ends as late as is possible from
there (`matchWhole_around`).
-/

namespace Emacs

/-- What is found first in a list that is ordered. -/
theorem findSome?_of_pairwise {α β : Type*} {R : α → α → Prop} (hasymm : ∀ a b, R a b → ¬R b a)
    {l : List α} (hl : l.Pairwise R) {f : α → Option β} {y : β} :
    l.findSome? f = some y ↔ ∃ a ∈ l, f a = some y ∧ ∀ b ∈ l, f b ≠ none → ¬R b a := by
  induction l with
  | nil =>
    refine iff_of_false (Option.some_ne_none y).symm ?_
    rintro ⟨a, ha, -⟩
    exact List.not_mem_nil ha
  | cons x l ih =>
    obtain ⟨hx, hl⟩ := List.pairwise_cons.mp hl
    rw [List.findSome?_cons]
    cases hfx : f x with
    | none =>
      rw [ih hl]
      constructor
      · rintro ⟨a, ha, hy, hfirst⟩
        refine ⟨a, List.mem_cons_of_mem _ ha, hy, fun b hb hfb => ?_⟩
        rcases List.mem_cons.mp hb with rfl | hb
        · exact absurd hfx hfb
        · exact hfirst b hb hfb
      · rintro ⟨a, ha, hy, hfirst⟩
        refine ⟨a, ?_, hy, fun b hb => hfirst b (List.mem_cons_of_mem _ hb)⟩
        rcases List.mem_cons.mp ha with rfl | ha
        · rw [hfx] at hy
          cases hy
        · exact ha
    | some y' =>
      constructor
      · rintro ⟨⟩
        refine ⟨x, List.mem_cons_self, hfx, fun b hb _ hbx => ?_⟩
        rcases List.mem_cons.mp hb with rfl | hb
        · exact hasymm _ _ hbx hbx
        · exact hasymm _ _ hbx (hx b hb)
      · rintro ⟨a, ha, hy, hfirst⟩
        rcases List.mem_cons.mp ha with rfl | ha
        · exact hfx.symm.trans hy
        · exact absurd (hx a ha)
            (hfirst x List.mem_cons_self (by rw [hfx]; exact Option.some_ne_none y'))

/-- A set of characters, possibly with a plus, and a group around it. -/
structure Piece where
  set : Char → Bool
  plus : Bool
  group : Option ℕ

namespace Piece

variable {p : Piece} {ps : List Piece} {text run rest : List Char} {runs : List (List Char)}
  {g : Groups}

/-- What a piece can match. -/
structure Spells (p : Piece) (run : List Char) : Prop where
  ne_nil : run ≠ []
  one : p.plus = false → run.length = 1
  mem : ∀ c ∈ run, p.set c = true

/-- The pieces match one run each, and leave the rest of the text. -/
structure Reads (ps : List Piece) (text : List Char) (runs : List (List Char))
    (rest : List Char) : Prop where
  spells : List.Forall₂ Spells ps runs
  text : text = runs.flatten ++ rest

/-- How many characters each piece has matched. -/
def lengths (runs : List (List Char)) : List ℕ := runs.map List.length

/-- The expression for one piece. -/
def regexp (p : Piece) : Regexp :=
  let r := if p.plus then .plus p.set else .char p.set
  match p.group with
  | some n => .group n r
  | none => r

/-- One after the other. -/
def sequence : List Piece → Regexp
  | [] => .many fun _ => false
  | p :: ps => .seq p.regexp (sequence ps)

/-! ## The ways to match -/

/-- What can be left by one piece. -/
def leaves (p : Piece) : List Char → List (List Char)
  | [] => []
  | c :: text => if p.set c then if p.plus then afterMany p.set text else [text] else []

/-- The ways of a set, repeated or not, are what it leaves. -/
theorem ways_set (p : Piece) (text : List Char) (g : Groups) :
    (if p.plus then Regexp.plus p.set else .char p.set).ways text g
      = (p.leaves text).map fun rest => (rest, g) := by
  cases text with
  | nil => split <;> rfl
  | cons c text =>
    rw [leaves]
    split
    · rw [Regexp.plus, Regexp.ways_seq, Regexp.ways_char_cons]
      split
      · rw [List.flatMap_cons, List.flatMap_nil, List.append_nil, Regexp.ways_many]
      · rfl
    · rw [Regexp.ways_char_cons]
      split <;> rfl

/-- The groups, when a piece has matched a run. -/
def capture (p : Piece) (run : List Char) (g : Groups) : Groups :=
  match p.group with
  | some n => Function.update g n (some run)
  | none => g

/-- The ways of a piece are what it leaves, with what it captures. -/
theorem ways_regexp (p : Piece) (text : List Char) (g : Groups) :
    p.regexp.ways text g = (p.leaves text).map fun rest =>
      (rest, p.capture (text.take (text.length - rest.length)) g) := by
  unfold regexp capture
  cases p.group with
  | none => exact ways_set p text g
  | some n =>
    dsimp only
    rw [Regexp.ways_group, ways_set, List.map_map]
    rfl

/-- The groups, when each piece has matched a run. -/
def captures : List Piece → List (List Char) → Groups → Groups
  | p :: ps, run :: runs, g => captures ps runs (p.capture run g)
  | _, _, g => g

/-- The runs of each way, and what is left. -/
def readings : List Piece → List Char → List (List (List Char) × List Char)
  | [], text => [([], text)]
  | p :: ps, text => (p.leaves text).flatMap fun rest =>
    (readings ps rest).map fun way => (text.take (text.length - rest.length) :: way.1, way.2)

theorem afterMany_false (text : List Char) : afterMany (fun _ => false) text = [text] := by
  cases text <;> rfl

/-- **The ways of a sequence of pieces** are its readings, in their order, with what they capture.
-/
theorem ways_sequence (ps : List Piece) : ∀ (text : List Char) (g : Groups),
    (sequence ps).ways text g
      = (readings ps text).map fun way => (way.2, captures ps way.1 g) := by
  induction ps with
  | nil =>
    intro text g
    rw [sequence, Regexp.ways_many, afterMany_false]
    rfl
  | cons p ps ih =>
    intro text g
    rw [sequence, Regexp.ways_seq, ways_regexp, readings, List.flatMap_map, List.map_flatMap]
    refine List.flatMap_congr fun rest _ => ?_
    rw [ih, List.map_map]
    rfl

/-- The longest run comes first. -/
theorem pairwise_afterMany (set : Char → Bool) (text : List Char) :
    (afterMany set text).Pairwise fun rest rest' => rest.length < rest'.length := by
  induction text with
  | nil => exact List.pairwise_singleton _ _
  | cons c text ih =>
    rw [afterMany]
    split
    · refine List.pairwise_append.mpr ⟨ih, List.pairwise_singleton _ _, fun rest hrest rest' h =>
        ?_⟩
      obtain ⟨run, htext, -⟩ := Regexp.mem_afterMany.mp hrest
      rw [List.mem_singleton.mp h, htext, List.length_cons, List.length_append]
      omega
    · exact List.pairwise_singleton _ _

/-- A piece leaves the least first. -/
theorem pairwise_leaves (p : Piece) (text : List Char) :
    (p.leaves text).Pairwise fun rest rest' => rest.length < rest'.length := by
  cases text with
  | nil => exact .nil
  | cons c text =>
    rw [leaves]
    split
    · split
      · exact pairwise_afterMany _ _
      · exact List.pairwise_singleton _ _
    · exact .nil

/-- What a piece leaves is what is behind a run that it spells. -/
theorem mem_leaves : rest ∈ p.leaves text ↔ ∃ run, p.Spells run ∧ text = run ++ rest := by
  cases text with
  | nil =>
    refine iff_of_false List.not_mem_nil ?_
    rintro ⟨run, hrun, htext⟩
    exact hrun.ne_nil (List.append_eq_nil_iff.mp htext.symm).1
  | cons c text =>
    rw [leaves]
    constructor
    · intro h
      split at h
      · next hc =>
        split at h
        · next hplus =>
          obtain ⟨run, rfl, hrun⟩ := Regexp.mem_afterMany.mp h
          refine ⟨c :: run, ⟨List.cons_ne_nil _ _, fun hone => ?_, ?_⟩, rfl⟩
          · rw [hplus] at hone
            cases hone
          · exact List.forall_mem_cons.mpr ⟨hc, hrun⟩
        · rw [List.mem_singleton.mp h]
          exact ⟨[c], ⟨List.cons_ne_nil _ _, fun _ => rfl, by simpa using hc⟩, rfl⟩
      · exact absurd h List.not_mem_nil
    · rintro ⟨run, hrun, htext⟩
      obtain ⟨d, run, rfl⟩ := List.exists_cons_of_ne_nil hrun.ne_nil
      obtain ⟨rfl, rfl⟩ := List.cons.inj htext
      obtain ⟨hc, hmem⟩ := List.forall_mem_cons.mp hrun.mem
      rw [if_pos hc]
      split
      · exact Regexp.mem_afterMany.mpr ⟨run, rfl, hmem⟩
      · next hplus =>
        have hone := hrun.one (Bool.eq_false_iff.mpr hplus)
        rw [List.length_cons, Nat.add_eq_right] at hone
        rw [List.eq_nil_of_length_eq_zero hone]
        exact List.mem_singleton_self _

/-- The readings are the runs that the pieces spell. -/
theorem mem_readings : (runs, rest) ∈ readings ps text ↔ Reads ps text runs rest := by
  induction ps generalizing text runs with
  | nil =>
    rw [readings, List.mem_singleton, Prod.mk.injEq]
    constructor
    · rintro ⟨rfl, rfl⟩
      exact ⟨.nil, rfl⟩
    · rintro ⟨hspells, htext⟩
      cases hspells
      exact ⟨rfl, htext.symm⟩
  | cons p ps ih =>
    rw [readings, List.mem_flatMap]
    constructor
    · rintro ⟨rest', hrest', hway⟩
      obtain ⟨⟨runs', rest''⟩, hreads, hway⟩ := List.mem_map.mp hway
      obtain ⟨rfl, rfl⟩ := Prod.mk.inj hway
      obtain ⟨run, hrun, rfl⟩ := mem_leaves.mp hrest'
      obtain ⟨hspells, htext⟩ := ih.mp hreads
      rw [Regexp.take_length_sub]
      exact ⟨.cons hrun hspells, by rw [List.flatten_cons, List.append_assoc, ← htext]⟩
    · rintro ⟨hspells, htext⟩
      cases hspells with
      | @cons _ run _ runs hrun hspells =>
        rw [List.flatten_cons, List.append_assoc] at htext
        refine ⟨runs.flatten ++ rest, mem_leaves.mpr ⟨run, hrun, htext⟩, List.mem_map.mpr
          ⟨(runs, rest), ih.mpr ⟨hspells, rfl⟩, ?_⟩⟩
        rw [htext, Regexp.take_length_sub]

/-- The first repetition gets as much as possible. -/
theorem pairwise_readings (ps : List Piece) : ∀ text : List Char, (readings ps text).Pairwise
    fun way way' => List.Lex (· < ·) (lengths way'.1) (lengths way.1) := by
  induction ps with
  | nil => exact fun text => List.pairwise_singleton _ _
  | cons p ps ih =>
    intro text
    rw [readings, List.pairwise_flatMap]
    constructor
    · intro rest hrest
      rw [List.pairwise_map]
      exact (ih rest).imp fun h => .cons h
    · refine ((pairwise_leaves p text).imp_of_mem ?_)
      intro rest rest' hrest hrest' hlt way hway way' hway'
      obtain ⟨w, -, rfl⟩ := List.mem_map.mp hway
      obtain ⟨w', -, rfl⟩ := List.mem_map.mp hway'
      obtain ⟨run, -, htext⟩ := mem_leaves.mp hrest
      obtain ⟨run', -, htext'⟩ := mem_leaves.mp hrest'
      refine .rel ?_
      have hlength := congrArg List.length htext
      have hlength' := congrArg List.length htext'
      rw [List.length_append] at hlength hlength'
      rw [List.length_take, List.length_take]
      omega

/-- Of two readings only one can come first. -/
theorem lex_asymm {l l' : List ℕ} (h : List.Lex (· < ·) l l') : ¬List.Lex (· < ·) l' l := by
  induction h with
  | nil => exact fun h => by cases h
  | cons _ ih =>
    intro h
    cases h with
    | cons h => exact ih h
    | rel h => exact absurd h (Nat.lt_irrefl _)
  | rel hlt =>
    intro h
    cases h with
    | cons => exact absurd hlt (Nat.lt_irrefl _)
    | rel h => exact absurd h (Nat.lt_asymm hlt)

/-- **The first way that leads on** is the one whose runs are longest, the first one first. -/
theorem findSome?_ways_sequence {β : Type*} {f : List Char × Groups → Option β} {y : β} :
    ((sequence ps).ways text g).findSome? f = some y ↔
      ∃ runs rest, Reads ps text runs rest ∧ f (rest, captures ps runs g) = some y ∧
        ∀ runs' rest', Reads ps text runs' rest' → f (rest', captures ps runs' g) ≠ none →
          ¬List.Lex (· < ·) (lengths runs) (lengths runs') := by
  rw [ways_sequence, List.findSome?_map, findSome?_of_pairwise (fun _ _ => lex_asymm)
    (pairwise_readings ps text)]
  constructor
  · rintro ⟨⟨runs, rest⟩, hmem, hy, hfirst⟩
    exact ⟨runs, rest, mem_readings.mp hmem, hy, fun runs' rest' hreads =>
      hfirst (runs', rest') (mem_readings.mpr hreads)⟩
  · rintro ⟨runs, rest, hreads, hy, hfirst⟩
    exact ⟨(runs, rest), mem_readings.mpr hreads, hy, fun way hway =>
      hfirst way.1 way.2 (mem_readings.mp hway)⟩

/-- And the first way to the end of the text. -/
theorem matchWhole_sequence : (sequence ps).matchWhole text = some g ↔
    ∃ runs, Reads ps text runs [] ∧ captures ps runs (fun _ => none) = g ∧
      ∀ runs', Reads ps text runs' [] → ¬List.Lex (· < ·) (lengths runs) (lengths runs') := by
  rw [Regexp.matchWhole, List.find?_eq_findSome?_guard, List.map_findSome?, findSome?_ways_sequence]
  have hguard : ∀ way : List Char × Groups, (Option.map Prod.snd ∘ Option.guard (·.1 = [])) way
      = if way.1 = [] then some way.2 else none := by
    intro way
    rw [Function.comp_apply, Option.guard]
    simp only [decide_eq_true_eq]
    split <;> rfl
  simp only [hguard]
  constructor
  · rintro ⟨runs, rest, hreads, hg, hfirst⟩
    obtain ⟨rfl, hg⟩ := Option.ite_none_right_eq_some.mp hg
    refine ⟨runs, hreads, Option.some.inj hg, fun runs' hreads' => ?_⟩
    exact hfirst runs' [] hreads' (by rw [if_pos rfl]; exact Option.some_ne_none _)
  · rintro ⟨runs, hreads, rfl, hfirst⟩
    refine ⟨runs, [], hreads, if_pos rfl, fun runs' rest' hreads' hne => ?_⟩
    obtain ⟨g, hg⟩ := Option.ne_none_iff_exists'.mp hne
    obtain ⟨rfl, -⟩ := Option.ite_none_right_eq_some.mp hg
    exact hfirst runs' hreads'

/-! ## Readings that reach further -/

/-- Readings of the same number of pieces are ordered by where they first differ, whatever follows.
-/
theorem lex_append {l l' : List ℕ} (h : List.Lex (· < ·) l l') (hlength : l.length = l'.length)
    (s s' : List ℕ) : List.Lex (· < ·) (l ++ s) (l' ++ s') := by
  induction h with
  | nil => cases hlength
  | cons _ ih => exact .cons (ih (Nat.succ.inj hlength))
  | rel hlt => exact .rel hlt

/-- The same front does not change the order. -/
theorem lex_append_left {l l' : List ℕ} (h : List.Lex (· < ·) l l') (s : List ℕ) :
    List.Lex (· < ·) (s ++ l) (s ++ l') := by
  induction s with
  | nil => exact h
  | cons _ s ih => exact .cons ih

theorem Reads.length_lengths (h : Reads ps text runs rest) : (lengths runs).length = ps.length := by
  rw [lengths, List.length_map, h.spells.length_eq]

/-- A reading of two sequences is one of the first and then one of the second. -/
theorem reads_append {qs : List Piece} : Reads (ps ++ qs) text runs rest ↔
    ∃ runs₁ runs₂ between, runs = runs₁ ++ runs₂ ∧ Reads ps text runs₁ between ∧
      Reads qs between runs₂ rest := by
  constructor
  · rintro ⟨hspells, htext⟩
    refine ⟨runs.take ps.length, runs.drop ps.length, (runs.drop ps.length).flatten ++ rest,
      (List.take_append_drop _ _).symm, ⟨?_, ?_⟩, ?_, rfl⟩
    · have htake := List.forall₂_take ps.length hspells
      rwa [List.take_left] at htake
    · rw [htext, ← List.append_assoc, ← List.flatten_append, List.take_append_drop]
    · have hdrop := List.forall₂_drop ps.length hspells
      rwa [List.drop_left] at hdrop
  · rintro ⟨runs₁, runs₂, between, rfl, h₁, h₂⟩
    refine ⟨List.rel_append h₁.spells h₂.spells, ?_⟩
    rw [h₁.text, h₂.text, List.flatten_append, List.append_assoc]

/-- A run that is cut short at the front is one still, if something is left of it. -/
theorem Spells.of_append {front : List Char} (h : p.Spells (front ++ run)) (hne : run ≠ []) :
    p.Spells run := by
  refine ⟨hne, fun hplus => ?_, fun c hc => h.mem c (List.mem_append_right _ hc)⟩
  have hone := h.one hplus
  have hpos := List.length_pos_iff.mpr hne
  rw [List.length_append] at hone
  omega

/-- Of two readings the one that begins no later and ends further on takes over from the other
one where it passes it. -/
theorem exists_longer : ∀ {ps : List Piece} {text text' front rest rest' : List Char}
    {runs runs' : List (List Char)}, text' = front ++ text → Reads ps text runs rest →
    Reads ps text' runs' rest' → rest'.length < rest.length →
    ∃ runs'', Reads ps text runs'' rest' ∧ List.Lex (· < ·) (lengths runs) (lengths runs'') := by
  intro ps
  induction ps with
  | nil =>
    rintro text text' front rest rest' runs runs' hfront ⟨hspells, htext⟩ ⟨hspells', htext'⟩ hlt
    cases hspells
    cases hspells'
    have hlength := congrArg List.length hfront
    rw [htext, htext'] at hlength
    simp only [List.flatten_nil, List.nil_append, List.length_append] at hlength
    omega
  | cons p ps ih =>
    rintro text text' front rest rest' runs runs' hfront ⟨hspells, htext⟩ ⟨hspells', htext'⟩ hlt
    cases hspells with
    | @cons _ run _ runs hrun hspells =>
    cases hspells' with
    | @cons _ run' _ runs' hrun' hspells' =>
      rw [List.flatten_cons, List.append_assoc] at htext htext'
      have hboth : front ++ run ++ (runs.flatten ++ rest) = run' ++ (runs'.flatten ++ rest') := by
        rw [List.append_assoc, ← htext, ← hfront, htext']
      rcases List.append_eq_append_iff.mp hboth with ⟨more, rfl, hmore⟩ | ⟨behind, -, hbehind⟩
      · -- it passes the other one here
        rw [List.append_assoc front run more] at hrun'
        by_cases hnil : more = []
        · subst hnil
          have hsame : runs'.flatten ++ rest' = [] ++ (runs.flatten ++ rest) := by
            rw [List.nil_append, hmore, List.nil_append]
          obtain ⟨runs'', ⟨hspells'', htext''⟩, hlex⟩ :=
            ih hsame ⟨hspells, rfl⟩ ⟨hspells', rfl⟩ hlt
          refine ⟨run :: runs'', ⟨.cons hrun hspells'', ?_⟩, .cons hlex⟩
          rw [List.flatten_cons, List.append_assoc, ← htext'', htext]
        · refine ⟨(run ++ more) :: runs', ⟨.cons (hrun'.of_append ?_) hspells', ?_⟩, .rel ?_⟩
          · exact List.append_ne_nil_of_right_ne_nil _ hnil
          · rw [List.flatten_cons, List.append_assoc, List.append_assoc, ← hmore, htext]
          · rw [List.length_append]
            have hpos := List.length_pos_iff.mpr hnil
            omega
      · obtain ⟨runs'', ⟨hspells'', htext''⟩, hlex⟩ :=
          ih hbehind ⟨hspells, rfl⟩ ⟨hspells', rfl⟩ hlt
        refine ⟨run :: runs'', ⟨.cons hrun hspells'', ?_⟩, .cons hlex⟩
        rw [List.flatten_cons, List.append_assoc, ← htext'', htext]

/-! ## Groups -/

/-- What two sequences capture. -/
theorem captures_append {qs : List Piece} {runs₁ runs₂ : List (List Char)}
    (h : ps.length = runs₁.length) (g : Groups) :
    captures (ps ++ qs) (runs₁ ++ runs₂) g = captures qs runs₂ (captures ps runs₁ g) := by
  induction ps generalizing runs₁ g with
  | nil =>
    rw [List.eq_nil_of_length_eq_zero h.symm]
    rfl
  | cons p ps ih =>
    cases runs₁ with
    | nil => cases h
    | cons run runs₁ => exact ih (Nat.succ.inj h) _

/-- Nothing is captured but by the groups that are there. -/
theorem captures_apply_of_ne {n : ℕ} (h : ∀ p ∈ ps, p.group ≠ some n) :
    ∀ (runs : List (List Char)) (g : Groups), captures ps runs g n = g n := by
  induction ps with
  | nil => exact fun _ _ => rfl
  | cons p ps ih =>
    obtain ⟨hp, hps⟩ := List.forall_mem_cons.mp h
    intro runs g
    cases runs with
    | nil => rfl
    | cons run runs =>
      rw [captures, ih hps, capture]
      cases hgroup : p.group with
      | none => rfl
      | some m =>
        exact Function.update_of_ne (fun heq => hp (hgroup.trans (congrArg some heq.symm))) _ _

/-! ## What is matched first, without the runs -/

/-- The pieces match a text from its beginning to its end. -/
def Matches (ps : List Piece) (text : List Char) : Prop := ∃ runs, Reads ps text runs []

/-- A text matches a sequence if a run of it is spelled by the first piece and the rest matches the
others. -/
theorem matches_cons : Matches (p :: ps) text ↔
    ∃ run rest, text = run ++ rest ∧ p.Spells run ∧ Matches ps rest := by
  constructor
  · rintro ⟨runs, hspells, htext⟩
    cases hspells with
    | @cons _ run _ runs hrun hspells =>
      refine ⟨run, runs.flatten, ?_, hrun, runs, hspells, (List.append_nil _).symm⟩
      rw [htext, List.append_nil, List.flatten_cons]
  · rintro ⟨run, rest, rfl, hrun, runs, hspells, htext⟩
    refine ⟨run :: runs, .cons hrun hspells, ?_⟩
    rw [htext, List.flatten_cons, List.append_assoc]

theorem Reads.matches (h : Reads ps text runs rest) : Matches ps runs.flatten :=
  ⟨runs, h.spells, (List.append_nil _).symm⟩

/-- What matches is read in some way. -/
theorem Matches.reads (h : Matches ps run) (rest : List Char) :
    ∃ runs, Reads ps (run ++ rest) runs rest ∧ run = runs.flatten := by
  obtain ⟨runs, hspells, htext⟩ := h
  rw [List.append_nil] at htext
  exact ⟨runs, ⟨hspells, by rw [htext]⟩, htext⟩

/-- **The first way that leads on, without groups** — it leaves as little as is possible. -/
theorem findSome?_ways_shortest {β : Type*} {f : List Char → Option β} {y : β} :
    ((sequence ps).ways text g).findSome? (fun way => f way.1) = some y ↔
      ∃ run rest, (text = run ++ rest ∧ Matches ps run) ∧ f rest = some y ∧
        ∀ run' rest', text = run' ++ rest' → Matches ps run' → f rest' ≠ none →
          run'.length ≤ run.length := by
  have hforward : ∀ {y : β}, ((sequence ps).ways text g).findSome? (fun way => f way.1) = some y →
      ∃ run rest, (text = run ++ rest ∧ Matches ps run) ∧ f rest = some y ∧
        ∀ run' rest', text = run' ++ rest' → Matches ps run' → f rest' ≠ none →
          run'.length ≤ run.length := by
    intro y hy
    obtain ⟨runs, rest, hreads, hrest, hfirst⟩ :=
      (findSome?_ways_sequence (f := fun way => f way.1)).mp hy
    refine ⟨runs.flatten, rest, ⟨hreads.text, hreads.matches⟩, hrest, ?_⟩
    intro run' rest' htext' hmatches' hne
    obtain ⟨runs', hreads', hrun'⟩ := hmatches'.reads rest'
    rw [← htext'] at hreads'
    by_contra hlt
    have hlength := congrArg List.length (hreads.text.symm.trans htext')
    rw [List.length_append, List.length_append] at hlength
    obtain ⟨runs'', hreads'', hlex⟩ :=
      exists_longer (List.nil_append _).symm hreads hreads' (by omega)
    exact hfirst runs'' rest' hreads'' hne hlex
  refine ⟨hforward, ?_⟩
  rintro ⟨run, rest, ⟨htext, hmatches⟩, hy, hlongest⟩
  cases hfound : ((sequence ps).ways text g).findSome? fun way => f way.1 with
  | none =>
    obtain ⟨runs, hreads, -⟩ := hmatches.reads rest
    rw [← htext] at hreads
    rw [ways_sequence, List.findSome?_map, List.findSome?_eq_none_iff] at hfound
    rw [← hy]
    exact (hfound (runs, rest) (mem_readings.mpr hreads)).symm
  | some y' =>
    obtain ⟨run', rest', ⟨htext', hmatches'⟩, hy', hlongest'⟩ := hforward hfound
    have hlength := Nat.le_antisymm
      (hlongest' run rest htext hmatches (by rw [hy]; exact Option.some_ne_none y))
      (hlongest run' rest' htext' hmatches' (by rw [hy']; exact Option.some_ne_none y'))
    obtain ⟨-, rfl⟩ := List.append_inj (htext.symm.trans htext') hlength
    exact hy'.symm.trans hy

/-- A text that matches is matched as a whole. -/
theorem exists_matchWhole (h : Matches ps text) : ∃ g, (sequence ps).matchWhole text = some g := by
  obtain ⟨runs, hreads⟩ := h
  rw [← Option.ne_none_iff_exists', Regexp.matchWhole, Ne, Option.map_eq_none_iff,
    List.find?_eq_none]
  refine fun hnone => hnone ([], captures ps runs fun _ => none) ?_ (decide_eq_true rfl)
  rw [ways_sequence]
  exact List.mem_map_of_mem (f := fun way : List (List Char) × List Char =>
    (way.2, captures ps way.1 fun _ => none)) (mem_readings.mpr hreads)

/-- A text in three parts, the one in the middle matched by a piece of its own. -/
structure Around (ps : List Piece) (p : Piece) (qs : List Piece)
    (text before part behind : List Char) : Prop where
  text : text = before ++ (part ++ behind)
  before : Matches ps before
  part : p.Spells part
  behind : Matches qs behind

/-- What surrounds a part is read by the pieces around it. -/
theorem Around.reads {qs : List Piece} {before part behind : List Char}
    (h : Around ps p qs text before part behind) :
    ∃ runs₁ runs₂, Reads ps text runs₁ (part ++ behind) ∧ before = runs₁.flatten ∧
      Reads (p :: qs) (part ++ behind) (part :: runs₂) [] := by
  obtain ⟨runs₁, hreads₁, hbefore⟩ := h.before.reads (part ++ behind)
  obtain ⟨runs₂, hspells, hbehind⟩ := h.behind
  rw [← h.text] at hreads₁
  refine ⟨runs₁, runs₂, hreads₁, hbefore, .cons h.part hspells, ?_⟩
  rw [hbehind, List.flatten_cons, List.append_assoc]

/-- What comes before the part is as long as is possible, and after that the part. -/
def First (ps : List Piece) (p : Piece) (qs : List Piece) (text part : List Char) : Prop :=
  ∃ before behind, Around ps p qs text before part behind ∧
    ∀ before' part' behind', Around ps p qs text before' part' behind' →
      before'.length ≤ before.length ∧
        (before'.length = before.length → part'.length ≤ part.length)

/-- There is only one first part. -/
theorem First.unique {qs : List Piece} {part part' : List Char} (h : First ps p qs text part)
    (h' : First ps p qs text part') : part = part' := by
  obtain ⟨before, behind, haround, hfirst⟩ := h
  obtain ⟨before', behind', haround', hfirst'⟩ := h'
  have hbefore := Nat.le_antisymm (hfirst' _ _ _ haround).1 (hfirst _ _ _ haround').1
  have hpart := Nat.le_antisymm ((hfirst' _ _ _ haround).2 hbefore)
    ((hfirst _ _ _ haround').2 hbefore.symm)
  obtain ⟨-, htext⟩ := List.append_inj (haround.text.symm.trans haround'.text) hbefore
  exact (List.append_inj htext hpart).1

/-- **What the group captures**, if it is one piece's only. -/
theorem matchWhole_around {qs : List Piece} {n : ℕ} (hp : p.group = some n)
    (hqs : ∀ q ∈ qs, q.group ≠ some n) {o : Option (List Char)} :
    (∃ g, (sequence (ps ++ p :: qs)).matchWhole text = some g ∧ g n = o) ↔
      ∃ part, o = some part ∧ First ps p qs text part := by
  have hforward : ∀ {g : Groups}, (sequence (ps ++ p :: qs)).matchWhole text = some g →
      ∃ part, g n = some part ∧ First ps p qs text part := by
    intro g hg
    obtain ⟨runs, hreads, rfl, hfirst⟩ := matchWhole_sequence.mp hg
    obtain ⟨runs₁, runs₂, between, rfl, hreads₁, hreads₂⟩ := reads_append.mp hreads
    obtain ⟨hspells₂, hbetween⟩ := hreads₂
    cases hspells₂ with
    | @cons _ part _ runs₂ hpart hspells₂ =>
    rw [List.flatten_cons, List.append_nil] at hbetween
    refine ⟨part, ?_, runs₁.flatten, runs₂.flatten, ⟨?_, hreads₁.matches, hpart, runs₂, hspells₂,
      (List.append_nil _).symm⟩, ?_⟩
    · rw [captures_append hreads₁.spells.length_eq, captures, captures_apply_of_ne hqs, capture, hp]
      exact Function.update_self _ _ _
    · rw [← hbetween]
      exact hreads₁.text
    · intro before' part' behind' haround'
      obtain ⟨runs₁', runs₂', hreads₁', hbefore', hreads₂'⟩ := haround'.reads
      have hlength := congrArg List.length (hreads₁.text.symm.trans hreads₁'.text)
      rw [List.length_append, List.length_append, ← hbefore'] at hlength
      have hbefore : before'.length ≤ runs₁.flatten.length := by
        by_contra hlt
        -- what comes before could be longer
        obtain ⟨runs₁'', hreads₁'', hlex⟩ :=
          exists_longer (List.nil_append _).symm hreads₁ hreads₁' (by omega)
        refine hfirst _ (reads_append.mpr ⟨_, _, _, rfl, hreads₁'', hreads₂'⟩) ?_
        rw [lengths, lengths, List.map_append, List.map_append]
        refine lex_append hlex ?_ _ _
        rw [hreads₁.length_lengths, hreads₁''.length_lengths]
      refine ⟨hbefore, fun heq => ?_⟩
      by_contra hlt
      -- the part could be longer
      have hbetween' : between = part' ++ behind' := by
        have htexts := hreads₁.text.symm.trans hreads₁'.text
        rw [← hbefore'] at htexts
        exact (List.append_inj htexts heq.symm).2
      rw [← hbetween'] at hreads₂'
      refine hfirst _ (reads_append.mpr ⟨_, _, _, rfl, hreads₁, hreads₂'⟩) ?_
      rw [lengths, lengths, List.map_append, List.map_append]
      exact lex_append_left (.rel (Nat.lt_of_not_le hlt)) _
  constructor
  · rintro ⟨g, hg, rfl⟩
    exact hforward hg
  · rintro ⟨part, rfl, hfirst⟩
    obtain ⟨before, behind, haround, -⟩ := id hfirst
    obtain ⟨runs₁, runs₂, hreads₁, -, hreads₂⟩ := haround.reads
    obtain ⟨g, hg⟩ := exists_matchWhole ⟨_, reads_append.mpr ⟨_, _, _, rfl, hreads₁, hreads₂⟩⟩
    obtain ⟨part', hpart', hfirst'⟩ := hforward hg
    exact ⟨g, hg, hfirst.unique hfirst' ▸ hpart'⟩

/-- Without the group nothing is captured. -/
theorem matchWhole_without {n : ℕ} (hps : ∀ q ∈ ps, q.group ≠ some n) {o : Option (List Char)} :
    (∃ g, (sequence ps).matchWhole text = some g ∧ g n = o) ↔ o = none ∧ Matches ps text := by
  constructor
  · rintro ⟨g, hg, rfl⟩
    obtain ⟨runs, hreads, rfl, -⟩ := matchWhole_sequence.mp hg
    exact ⟨captures_apply_of_ne hps runs _, runs, hreads⟩
  · rintro ⟨rfl, h⟩
    obtain ⟨g, hg⟩ := exists_matchWhole h
    obtain ⟨runs, -, rfl, -⟩ := matchWhole_sequence.mp hg
    exact ⟨_, hg, captures_apply_of_ne hps runs _⟩

end Piece

/-! ## Expressions that match in one way only -/

/-- What is behind text that stands for itself. -/
def skip (fold : Char → Char) (literal text : List Char) : Option (List Char) :=
  if (text.take literal.length).map fold = literal.map fold then some (text.drop literal.length)
  else none

/-- What one or more characters other than `c` match, with that character behind them, and what is
behind it. -/
def upTo (c : Char) (text : List Char) : Option (List Char × List Char) :=
  match text.dropWhile (· ≠ c) with
  | [] => none
  | _ :: rest => if text.takeWhile (· ≠ c) = [] then none else some (text.takeWhile (· ≠ c), rest)

/-- A literal is skipped exactly if it is in front, up to the case. -/
theorem skip_eq_some_iff {fold : Char → Char} {literal text rest : List Char} :
    skip fold literal text = some rest ↔
      ∃ front, text = front ++ rest ∧ front.map fold = literal.map fold := by
  rw [skip, Option.ite_none_right_eq_some, Option.some_inj]
  constructor
  · rintro ⟨hfront, rfl⟩
    exact ⟨text.take literal.length, (List.take_append_drop _ _).symm, hfront⟩
  · rintro ⟨front, rfl, hfront⟩
    have hlength : front.length = literal.length := by
      rw [← List.length_map fold, hfront, List.length_map]
    rw [← hlength, List.take_left, List.drop_left]
    exact ⟨hfront, rfl⟩

theorem skip_append (fold : Char → Char) (literal text : List Char) :
    skip fold literal (literal ++ text) = some text :=
  skip_eq_some_iff.mpr ⟨literal, rfl, rfl⟩

/-- What is up to a character is not empty and does not contain it. -/
theorem upTo_eq_some_iff {c : Char} {text run rest : List Char} :
    upTo c text = some (run, rest) ↔ text = run ++ c :: rest ∧ run ≠ [] ∧ c ∉ run := by
  constructor
  · intro h
    unfold upTo at h
    split at h
    · cases h
    · next d rest' hdrop =>
      obtain ⟨hne, heq⟩ := Option.ite_none_left_eq_some.mp h
      obtain ⟨rfl, rfl⟩ := Prod.mk.inj (Option.some.inj heq)
      have hd : d = c := by
        have hhead := List.head?_dropWhile_not (· ≠ c) text
        rw [hdrop] at hhead
        simpa using hhead
      have htext := List.takeWhile_append_dropWhile (p := (· ≠ c)) (l := text)
      rw [hdrop, hd] at htext
      exact ⟨htext.symm, hne, fun hmem => by simpa using List.mem_takeWhile_imp hmem⟩
  · rintro ⟨rfl, hne, hrun⟩
    have hall : ∀ d ∈ run, decide (d ≠ c) = true := fun d hd =>
      decide_eq_true fun heq => hrun (heq ▸ hd)
    have htake : (run ++ c :: rest).takeWhile (· ≠ c) = run := by
      rw [List.takeWhile_append_of_pos hall, List.takeWhile_cons_of_neg (by simp), List.append_nil]
    have hdrop : (run ++ c :: rest).dropWhile (· ≠ c) = c :: rest := by
      rw [List.dropWhile_append_of_pos hall, List.dropWhile_cons_of_neg (by simp)]
    rw [upTo, hdrop, htake]
    exact if_neg hne

theorem upTo_append {c : Char} {run : List Char} (hne : run ≠ []) (hrun : c ∉ run)
    (rest : List Char) : upTo c (run ++ c :: rest) = some (run, rest) :=
  upTo_eq_some_iff.mpr ⟨rfl, hne, hrun⟩

end Emacs
