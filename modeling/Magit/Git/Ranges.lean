import Magit.Emacs.Regexp
import Magit.Msgpack.Object

/-!
# Git/Ranges — ranges of revisions, taken apart and put together

One expression takes a range apart at its dots.  The marker it finds has no dot next to it
(`mem_ways_range`), and in a range made of two revisions without two dots in a row there is only one
such place (`marker_unique`), so it is taken apart as it was put together.  The commands that change
a range put it together from the parts.
-/

namespace Magit.Ranges

open Emacs

/-- `[^ \t]` -/
def notBlank (c : Char) : Bool := c ≠ ' ' && c ≠ '\t'

/-- `[^.]` -/
def notDot (c : Char) : Bool := c ≠ '.'

/-- `[.]` -/
def dot (c : Char) : Bool := c = '.'

/-- `magit-range-re`, between its anchors. -/
def magitRangeRe : Regexp :=
  .seq (.optional (.group 1 (.seq (.many notBlank) (.char notDot))))
    (.seq (.group 2 (.seq (.char dot) (.seq (.char dot) (.optional (.char dot)))))
      (.optional (.group 3 (.seq (.char notDot) (.many notBlank)))))

/-- `magit--split-range-raw`: `(beg end sep)`. -/
def magitSplitRangeRaw (range : Text) : Option (Option Text × Option Text × Option Text) :=
  (magitRangeRe.matchWhole range).bind fun m =>
    if (m 1).isSome || (m 3).isSome then some (m 1, m 3, m 2) else none

/-- `magit-split-range`, with what `git merge-base` prints. -/
def magitSplitRange (mergeBase : Text → Text → Option Text) (range : Text) : Option (Text × Text) :=
  (magitSplitRangeRaw range).bind fun parts =>
    parts.2.2.bind fun sep =>
      let beg := parts.1.getD "HEAD".toList
      let fin := parts.2.1.getD "HEAD".toList
      if sep = "...".toList then (mergeBase beg fin).map fun base => (base, fin)
      else some (beg, fin)

/-- `(replace-match new t t range 2)`; the second group begins where the first one ends. -/
def replaceMarker (range : Text) (m : Groups) (new : Text) : Text :=
  let beg := ((m 1).getD []).length
  let fin := beg + ((m 2).getD []).length
  range.take beg ++ new ++ range.drop fin

section

-- the buffer is in a mode derived from `magit-diff-mode`
variable (diffMode : Bool)

/-- `magit-diff-switch-range-type`, on `magit-buffer-range`; nothing where it signals a
`user-error`. -/
def magitDiffSwitchRangeType : Option Text → Option Text
  | none => none
  | some range =>
    if diffMode then
      (magitRangeRe.matchWhole range).map fun m =>
        replaceMarker range m (if m 2 = some "..".toList then "...".toList else "..".toList)
    else none

/-- `magit-diff-flip-revs`. -/
def magitDiffFlipRevs : Option Text → Option Text
  | none => none
  | some range =>
    if diffMode then
      (magitRangeRe.matchWhole range).map fun m =>
        (m 3).getD [] ++ (m 2).getD [] ++ (m 1).getD []
    else none

end

/-! ## Ranges -/

/-- What stands between two revisions. -/
inductive Marker
  | two
  | three

/-- The marker as it is written. -/
def Marker.text : Marker → Text
  | two => "..".toList
  | three => "...".toList

/-- The marker of the other type. -/
def Marker.other : Marker → Marker
  | two => three
  | three => two

/-- What the group of a revision matches, if it matches. -/
def group (rev : Text) : Option Text := if rev = [] then none else some rev

/-- The groups of a range. -/
def groups (a : Text) (sep : Marker) (b : Text) : Groups
  | 1 => group a
  | 2 => some sep.text
  | 3 => group b
  | _ => none

/-- The groups are set one after the other. -/
theorem update_eq_groups (a : Text) (sep : Marker) (b : Text) :
    (if b = [] then Function.update (if a = [] then fun _ => none
        else Function.update (fun _ => none) 1 (some a)) 2 (some sep.text)
      else Function.update (Function.update (if a = [] then fun _ => none
        else Function.update (fun _ => none) 1 (some a)) 2 (some sep.text)) 3 (some b))
      = groups a sep b := by
  funext n
  match n with
  | 0 | 1 | 2 | 3 | n + 4 => split_ifs <;> simp [groups, group, *]

/-! ## The ways to match -/

section

variable {text rest a b : Text} {g m : Groups}

/-- The ways through the front of a range. -/
theorem mem_ways_front :
    (rest, m) ∈ (Regexp.optional (.group 1 (.seq (.many notBlank) (.char notDot)))).ways text g ↔
      ∃ a, text = a ++ rest ∧ (a = [] ∨ ∃ run c, a = run ++ [c]
        ∧ (∀ d ∈ run, notBlank d = true) ∧ notDot c = true)
        ∧ m = if a = [] then g else Function.update g 1 (some a) := by
  simp only [Regexp.mem_ways_optional, Regexp.mem_ways_group, Regexp.mem_ways_seq,
    Regexp.mem_ways_many, Regexp.mem_ways_char]
  constructor
  · rintro (⟨_, ⟨_, _, ⟨⟨run, rfl, hrun⟩, rfl⟩, c, hc, rfl, rfl⟩, rfl⟩ | ⟨rfl, rfl⟩)
    · have htext : run ++ c :: rest = (run ++ [c]) ++ rest := by simp
      refine ⟨run ++ [c], htext, .inr ⟨run, c, rfl, hrun, hc⟩, ?_⟩
      rw [if_neg (by simp), htext, Regexp.take_length_sub]
    · exact ⟨[], rfl, .inl rfl, (if_pos rfl).symm⟩
  · rintro ⟨_, rfl, rfl | ⟨run, c, rfl, hrun, hc⟩, rfl⟩
    · exact .inr ⟨rfl, rfl⟩
    · refine .inl ⟨g, ⟨_, g, ⟨⟨run, List.append_assoc _ _ _, hrun⟩, rfl⟩, c, hc, rfl, rfl⟩, ?_⟩
      rw [if_neg (by simp), Regexp.take_length_sub]

/-- The ways through the marker. -/
theorem mem_ways_marker :
    (rest, m) ∈ (Regexp.group 2 (.seq (.char dot) (.seq (.char dot)
      (.optional (.char dot))))).ways text g ↔
      ∃ sep : Marker, text = sep.text ++ rest ∧ m = Function.update g 2 (some sep.text) := by
  have hdot : ∀ c, dot c = true ↔ c = '.' := fun c => decide_eq_true_iff
  simp only [Regexp.mem_ways_group, Regexp.mem_ways_seq, Regexp.mem_ways_optional,
    Regexp.mem_ways_char, hdot]
  constructor
  · rintro ⟨_, ⟨_, _, ⟨_, rfl, rfl, rfl⟩, _, _, ⟨_, rfl, rfl, rfl⟩, h⟩, rfl⟩
    rcases h with ⟨_, rfl, rfl, rfl⟩ | ⟨rfl, rfl⟩
    · exact ⟨.three, rfl, by rw [← Regexp.take_length_sub Marker.three.text rest]; rfl⟩
    · exact ⟨.two, rfl, by rw [← Regexp.take_length_sub Marker.two.text rest]; rfl⟩
  · rintro ⟨_ | _, rfl, rfl⟩
    · exact ⟨g, ⟨_, g, ⟨_, rfl, rfl, rfl⟩, _, g, ⟨_, rfl, rfl, rfl⟩, .inr ⟨rfl, rfl⟩⟩,
        by rw [Regexp.take_length_sub]⟩
    · exact ⟨g, ⟨_, g, ⟨_, rfl, rfl, rfl⟩, _, g, ⟨_, rfl, rfl, rfl⟩, .inl ⟨_, rfl, rfl, rfl⟩⟩,
        by rw [Regexp.take_length_sub]⟩

/-- The second revision goes to the end. -/
theorem mem_ways_back :
    ([], m) ∈ (Regexp.optional (.group 3 (.seq (.char notDot) (.many notBlank)))).ways text g ↔
      (text = [] ∨ ∃ c run, text = c :: run ∧ notDot c = true ∧ ∀ d ∈ run, notBlank d = true)
        ∧ m = if text = [] then g else Function.update g 3 (some text) := by
  simp only [Regexp.mem_ways_optional, Regexp.mem_ways_group, Regexp.mem_ways_seq,
    Regexp.mem_ways_many, Regexp.mem_ways_char, List.append_nil, List.length_nil, Nat.sub_zero,
    List.take_length]
  constructor
  · rintro (⟨_, ⟨_, _, ⟨c, hc, rfl, rfl⟩, ⟨run, rfl, hrun⟩, rfl⟩, rfl⟩ | ⟨rfl, rfl⟩)
    · exact ⟨.inr ⟨c, _, rfl, hc, hrun⟩, (if_neg (List.cons_ne_nil _ _)).symm⟩
    · exact ⟨.inl rfl, (if_pos rfl).symm⟩
  · rintro ⟨rfl | ⟨c, run, rfl, hc, hrun⟩, rfl⟩
    · exact .inr ⟨rfl, rfl⟩
    · exact .inl ⟨g, ⟨_, g, ⟨c, hc, rfl, rfl⟩, ⟨run, rfl, hrun⟩, rfl⟩,
        if_neg (List.cons_ne_nil _ _)⟩

/-- **The marker that is found has no dot next to it.** -/
theorem mem_ways_range (h : ([], m) ∈ magitRangeRe.ways text fun _ => none) :
    ∃ (a : Text) (sep : Marker) (b : Text), text = a ++ (sep.text ++ b) ∧ a.getLast? ≠ some '.'
      ∧ b.head? ≠ some '.' ∧ m = groups a sep b := by
  obtain ⟨_, _, hfront, h⟩ := Regexp.mem_ways_seq.mp h
  obtain ⟨_, _, hmarker, hback⟩ := Regexp.mem_ways_seq.mp h
  obtain ⟨a, rfl, ha, rfl⟩ := mem_ways_front.mp hfront
  obtain ⟨sep, rfl, rfl⟩ := mem_ways_marker.mp hmarker
  obtain ⟨hb, rfl⟩ := mem_ways_back.mp hback
  refine ⟨a, sep, _, rfl, ?_, ?_, ?_⟩
  · rcases ha with rfl | ⟨run, c, rfl, -, hc⟩
    · simp
    · rw [List.getLast?_concat, Ne, Option.some_inj]
      exact of_decide_eq_true hc
  · rcases hb with rfl | ⟨c, run, rfl, hc, -⟩
    · simp
    · rw [List.head?_cons, Ne, Option.some_inj]
      exact of_decide_eq_true hc
  · exact update_eq_groups a sep _

end

/-! ## The marker of a range is the only one -/

/-- There are not two dots in a row. -/
def NoRange (rev : Text) : Prop := ¬['.', '.'] <:+: rev

section

variable {a b a' b' : Text} {sep sep' : Marker}

/-- Behind a marker that is not followed by a dot, marker and rest are determined. -/
theorem Marker.eq_of_append (hb : b.head? ≠ some '.') (hb' : b'.head? ≠ some '.')
    (h : sep.text ++ b = sep'.text ++ b') : sep = sep' ∧ b = b' := by
  rcases sep with _ | _ <;> rcases sep' with _ | _
  · exact ⟨rfl, List.append_cancel_left h⟩
  · have hdots : "..".toList ++ b = "..".toList ++ ('.' :: b') := h
    obtain rfl := List.append_cancel_left hdots
    exact absurd rfl hb
  · have hdots : "..".toList ++ ('.' :: b) = "..".toList ++ b' := h
    obtain rfl := List.append_cancel_left hdots
    exact absurd rfl hb'
  · exact ⟨rfl, List.append_cancel_left h⟩

/-- A text that goes on into a marker ends with a dot. -/
theorem Marker.getLast?_of_append {t u : Text} (ht : t ≠ []) (h : sep.text = t ++ u) :
    t.getLast? = some '.' := by
  have hmem : ∀ c ∈ sep.text, (c == '.') = true :=
    List.all_eq_true.mp (by cases sep <;> decide)
  obtain ⟨front, c, rfl⟩ := (List.eq_nil_or_concat' t).resolve_left ht
  rw [List.getLast?_concat, eq_of_beq (hmem c (by rw [h]; simp))]

theorem not_noRange_of_marker (x y : Text) : ¬NoRange (x ++ (sep.text ++ y)) := by
  have hdots : ['.', '.'] <+: sep.text := by cases sep <;> decide
  exact not_not_intro ((hdots.trans (List.prefix_append _ _)).isInfix.trans
    (List.suffix_append _ _).isInfix)

/-- What stands in front of another marker is no shorter. -/
theorem front_of_append {t w : Text} (ht : t ≠ []) (hlast : t.getLast? ≠ some '.')
    (h : sep.text ++ b = t ++ w) : ∃ u, t = sep.text ++ u ∧ b = u ++ w := by
  rcases List.append_eq_append_iff.mp h with ⟨u, ht', hb⟩ | ⟨u, hsep, -⟩
  · exact ⟨u, ht', hb⟩
  · exact absurd (Marker.getLast?_of_append ht hsep) hlast

/-- **The marker of a range stands at one place only.** -/
theorem marker_unique (h : a ++ (sep.text ++ b) = a' ++ (sep'.text ++ b')) (ha : NoRange a)
    (hb : NoRange b) (halast : a.getLast? ≠ some '.') (hbhead : b.head? ≠ some '.')
    (halast' : a'.getLast? ≠ some '.') (hbhead' : b'.head? ≠ some '.') :
    a' = a ∧ sep' = sep ∧ b' = b := by
  rcases List.append_eq_append_iff.mp h with ⟨t, rfl, hrest⟩ | ⟨t, rfl, hrest⟩
  · rcases eq_or_ne t [] with rfl | ht
    · obtain ⟨rfl, rfl⟩ := Marker.eq_of_append hbhead hbhead' hrest
      exact ⟨List.append_nil _, rfl, rfl⟩
    · -- the marker that is found would be in the second revision
      rw [List.getLast?_append_of_ne_nil _ ht] at halast'
      obtain ⟨u, -, rfl⟩ := front_of_append ht halast' hrest
      exact absurd hb (not_noRange_of_marker u b')
  · rcases eq_or_ne t [] with rfl | ht
    · obtain ⟨rfl, rfl⟩ := Marker.eq_of_append hbhead' hbhead hrest
      exact ⟨(List.append_nil _).symm, rfl, rfl⟩
    · -- or in the first one
      rw [List.getLast?_append_of_ne_nil _ ht] at halast
      obtain ⟨u, rfl, -⟩ := front_of_append ht halast hrest
      exact absurd ha (not_noRange_of_marker a' u)

end

/-! ## Taking a range apart -/

/-- Two revisions that a range is made of; one of them may be left out. -/
structure Revisions (a b : Text) : Prop where
  blank : ∀ c ∈ a ++ b, notBlank c = true
  noRange : NoRange a ∧ NoRange b
  last : a.getLast? ≠ some '.'
  head : b.head? ≠ some '.'
  ne : a ≠ [] ∨ b ≠ []

/-- `A..B` or `A...B`. -/
def range (a : Text) (sep : Marker) (b : Text) : Text := a ++ sep.text ++ b

section

variable {a b : Text}

/-- A range is matched with its two ends and its marker. -/
theorem matchWhole_range (h : Revisions a b) (sep : Marker) :
    magitRangeRe.matchWhole (range a sep b) = some (groups a sep b) := by
  have htext : range a sep b = a ++ (sep.text ++ b) := List.append_assoc _ _ _
  have hblank := List.forall_mem_append.mp h.blank
  refine Regexp.matchWhole_eq ?_ fun m hm => ?_
  · refine Regexp.mem_ways_seq.mpr ⟨sep.text ++ b, _, mem_ways_front.mpr ⟨a, htext, ?_, rfl⟩,
      Regexp.mem_ways_seq.mpr ⟨b, _, mem_ways_marker.mpr ⟨sep, rfl, rfl⟩,
        mem_ways_back.mpr ⟨?_, ?_⟩⟩⟩
    · rcases List.eq_nil_or_concat' a with rfl | ⟨run, c, rfl⟩
      · exact .inl rfl
      · refine .inr ⟨run, c, rfl, fun d hd => hblank.1 d (List.mem_append_left _ hd), ?_⟩
        have hlast := h.last
        rw [List.getLast?_concat, Ne, Option.some_inj] at hlast
        exact decide_eq_true hlast
    · rcases b with _ | ⟨c, run⟩
      · exact .inl rfl
      · have hhead := h.head
        rw [List.head?_cons, Ne, Option.some_inj] at hhead
        exact .inr ⟨c, run, rfl, decide_eq_true hhead,
          fun d hd => hblank.2 d (List.mem_cons_of_mem _ hd)⟩
    · exact (update_eq_groups a sep b).symm
  · obtain ⟨a', sep', b', hsplit, halast', hbhead', rfl⟩ := mem_ways_range hm
    rw [htext] at hsplit
    obtain ⟨rfl, rfl, rfl⟩ := marker_unique hsplit h.noRange.1 h.noRange.2 h.last h.head halast'
      hbhead'
    rfl

theorem getD_group (rev : Text) : (group rev).getD [] = rev := by
  rw [group]
  split_ifs with h
  · exact h.symm
  · rfl

theorem group_isSome {rev : Text} (h : rev ≠ []) : (group rev).isSome = true := by
  rw [group, if_neg h]
  rfl

/-- **A range is taken apart as it was put together.** -/
theorem magitSplitRangeRaw_range (h : Revisions a b) (sep : Marker) :
    magitSplitRangeRaw (range a sep b) = some (group a, group b, some sep.text) := by
  have hsome : (group a).isSome || (group b).isSome := by
    rw [Bool.or_eq_true]
    exact h.ne.imp group_isSome group_isSome
  rw [magitSplitRangeRaw, matchWhole_range h, Option.bind_some]
  exact if_pos hsome

/-- `HEAD` stands for a revision that is left out. -/
def orHead (rev : Text) : Text := if rev = [] then "HEAD".toList else rev

theorem getD_group_head (rev : Text) : (group rev).getD "HEAD".toList = orHead rev := by
  rw [group, orHead]
  split_ifs <;> rfl

/-- `magit-split-range` gives both revisions of a range with two dots; with three, the first is the
merge base instead, if there is one. -/
theorem magitSplitRange_range (mergeBase : Text → Text → Option Text) (h : Revisions a b)
    (sep : Marker) :
    magitSplitRange mergeBase (range a sep b)
      = match sep with
        | .two => some (orHead a, orHead b)
        | .three => (mergeBase (orHead a) (orHead b)).map fun base => (base, orHead b) := by
  rw [magitSplitRange, magitSplitRangeRaw_range h, Option.bind_some]
  simp only [Option.bind_some, getD_group_head]
  cases sep with
  | two => exact if_neg (by decide)
  | three => exact if_pos (by decide)

/-- Switching the type replaces the marker by the other one. -/
theorem magitDiffSwitchRangeType_range (h : Revisions a b) (sep : Marker) :
    magitDiffSwitchRangeType true (some (range a sep b)) = some (range a sep.other b) := by
  have hnew : (if groups a sep b 2 = some "..".toList then "...".toList else "..".toList)
      = sep.other.text := by
    rw [show groups a sep b 2 = some sep.text from rfl]
    cases sep <;> decide
  have hfront : (group a).getD [] = a := getD_group a
  rw [magitDiffSwitchRangeType, if_pos rfl, matchWhole_range h, Option.map_some, hnew,
    replaceMarker]
  have htext : range a sep b = a ++ (sep.text ++ b) := List.append_assoc _ _ _
  simp only [groups, hfront, Option.getD_some]
  rw [htext, List.take_left, ← List.drop_drop, List.drop_left, List.drop_left, range]

/-- Flipping a range swaps its ends and keeps its marker. -/
theorem magitDiffFlipRevs_range (h : Revisions a b) (sep : Marker) :
    magitDiffFlipRevs true (some (range a sep b)) = some (range b sep a) := by
  rw [magitDiffFlipRevs, if_pos rfl, matchWhole_range h, Option.map_some]
  simp only [groups, getD_group, Option.getD_some]
  rfl

/-- The revisions the other way round, where that makes a range of them. -/
theorem Revisions.symm (h : Revisions a b) (hhead : a.head? ≠ some '.')
    (hlast : b.getLast? ≠ some '.') : Revisions b a where
  blank c hc := h.blank c (by simpa [or_comm] using hc)
  noRange := h.noRange.symm
  last := hlast
  head := hhead
  ne := h.ne.symm

/-- **Range parsing inverts range building.**  Switching the type twice gives the range back, and so
does swapping the revisions twice, if no dot comes to stand next to the marker then. -/
theorem split_range (h : Revisions a b) (sep : Marker) :
    magitSplitRangeRaw (range a sep b) = some (group a, group b, some sep.text)
      ∧ magitDiffSwitchRangeType true (magitDiffSwitchRangeType true (some (range a sep b)))
        = some (range a sep b)
      ∧ (a.head? ≠ some '.' → b.getLast? ≠ some '.' →
        magitDiffFlipRevs true (magitDiffFlipRevs true (some (range a sep b)))
          = some (range a sep b)) := by
  refine ⟨magitSplitRangeRaw_range h sep, ?_, fun hhead hlast => ?_⟩
  · rw [magitDiffSwitchRangeType_range h, magitDiffSwitchRangeType_range h]
    cases sep <;> rfl
  · rw [magitDiffFlipRevs_range h, magitDiffFlipRevs_range (h.symm hhead hlast)]

end

theorem revisions_names : Revisions "v1.0".toList "HEAD".toList where
  blank := List.all_eq_true.mp (by decide)
  noRange := by simp only [NoRange]; decide
  last := by decide
  head := by decide
  ne := by decide

/-- The range between two names. -/
theorem split_range_names :
    magitSplitRangeRaw (range "v1.0".toList .three "HEAD".toList)
        = some (group "v1.0".toList, group "HEAD".toList, some "...".toList)
      ∧ magitDiffSwitchRangeType true
          (magitDiffSwitchRangeType true (some (range "v1.0".toList .three "HEAD".toList)))
        = some (range "v1.0".toList .three "HEAD".toList)
      ∧ ("v1.0".toList.head? ≠ some '.' → "HEAD".toList.getLast? ≠ some '.' →
        magitDiffFlipRevs true
            (magitDiffFlipRevs true (some (range "v1.0".toList .three "HEAD".toList)))
          = some (range "v1.0".toList .three "HEAD".toList)) :=
  split_range revisions_names .three

/-- `a..:/b.` becomes `:/b...a`, and that becomes `a...:/b`. -/
theorem flip_twice_ne : Revisions "a".toList ":/b.".toList
    ∧ magitDiffFlipRevs true (magitDiffFlipRevs true (some (range "a".toList .two ":/b.".toList)))
      ≠ some (range "a".toList .two ":/b.".toList) := by
  refine ⟨⟨List.all_eq_true.mp (by decide), by simp only [NoRange]; decide, by decide, by decide,
    by decide⟩, ?_⟩
  decide +kernel

end Magit.Ranges
