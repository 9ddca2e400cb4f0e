import Magit.Section.Runs
import Magit.Section.Traversal

/-!
# Section/Movement — moving from section to section

`magit-section-forward` moves to the next section, but from the text of the root to the next line.
So where that text ends with a newline, it goes down its lines in front of the first section, and
then from heading to heading through all sections whose ancestors are shown; and
`magit-section-backward` moves back from each heading to the one before it (`forward_visits`).
-/

namespace Magit.Section

open Emacs Display

namespace Sections

/-- The path of the innermost section that the position is in, which is empty in the text of the
parent: what the text property `magit-section` says. -/
def pathAt (p : ℕ) : ℕ → Sections → List ℕ
  | _, nil => []
  | beg, text n rest => if p < beg + n then [] else pathAt p (beg + n) rest
  | beg, leaf n _ rest => if p < beg + n then [0] else bump (pathAt p (beg + n) rest)
  | beg, unwashed heading _ _ _ rest =>
    if p < beg + (heading + 1) then [0] else bump (pathAt p (beg + (heading + 1)) rest)
  | beg, node heading _ _ body rest =>
    let content := beg + (heading + 1)
    if p < content then [0]
    else if p < content + body.length then 0 :: pathAt p content body
    else bump (pathAt p (content + body.length) rest)

/-- The slot `start` of the section at the path. -/
def startAt : List ℕ → ℕ → Sections → ℕ
  | path, beg, text n rest => startAt path (beg + n) rest
  | (i + 1) :: path, beg, leaf n _ rest => startAt (i :: path) (beg + n) rest
  | (i + 1) :: path, beg, unwashed heading _ _ _ rest =>
    startAt (i :: path) (beg + (heading + 1)) rest
  | 0 :: i :: path, beg, node heading _ _ body _ => startAt (i :: path) (beg + (heading + 1)) body
  | (i + 1) :: path, beg, node heading _ _ body rest =>
    startAt (i :: path) (beg + (heading + 1) + body.length) rest
  | _, beg, _ => beg

/-- No section is empty. -/
def NoEmpty : Sections → Prop
  | nil => True
  | text _ rest => rest.NoEmpty
  | leaf n _ rest => 0 < n ∧ rest.NoEmpty
  | unwashed _ _ _ _ rest => rest.NoEmpty
  | node _ _ _ body rest => body.NoEmpty ∧ rest.NoEmpty

/-- How much text stands in front of the first section. -/
def leading : Sections → ℕ
  | text n rest => n + rest.leading
  | _ => 0

end Sections

/-- A section buffer, and which of its characters are newlines. -/
structure SectionText extends SectionBuffer where
  newline : ℕ → Bool

namespace SectionText

open Sections

/-! ## Lines -/

/-- `point-max` -/
def pointMax (b : SectionText) : ℕ := b.beg + b.sections.length

/-- `forward-line`, over so many characters at most. -/
def nextLine (newline : ℕ → Bool) : ℕ → ℕ → ℕ
  | p, 0 => p
  | p, n + 1 => if newline p then p + 1 else nextLine newline (p + 1) n

/-- The beginning of the line. -/
def lineStart (newline : ℕ → Bool) : ℕ → ℕ
  | 0 => 1
  | p + 1 => if p = 0 ∨ newline p then p + 1 else lineStart newline p

/-- `forward-line` with `-1`. -/
def previousLine (newline : ℕ → Bool) (p : ℕ) : ℕ :=
  lineStart newline (lineStart newline p - 1)

/-! ## The commands -/

/-- The slot `start` of the section at the path, or of the root. -/
def start (b : SectionText) : List ℕ → ℕ
  | [] => 1
  | i :: path => startAt (i :: path) b.beg b.sections

/-- The slot `end`. -/
def fin (b : SectionText) : List ℕ → ℕ
  | [] => b.pointMax
  | i :: path => b.start (i :: path) + (subsection (i :: path) b.sections).elim 0 Sections.length

/-- `magit-current-section` -/
def currentSection (b : SectionText) (p : ℕ) : List ℕ :=
  if p < b.beg then [] else pathAt p b.beg b.sections

/-- Where `magit-section-forward` leaves point; nothing where it signals. -/
def magitSectionForward (b : SectionText) (p : ℕ) : Option ℕ :=
  if p = b.pointMax then none
  else
    let path := b.currentSection p
    if path = [] then
      some (nextLine b.newline p (b.pointMax - p))
    else
      let next :=
        if hiddenAtPath path b.sections = false ∧ b.fin path ≠ p + 1
            ∧ 0 < childCount path b.sections then
          some (path ++ [0])
        else
          climb (childCount · b.sections) path.reverse
      next.map b.start

/-- `previous-single-property-change` for the text property `invisible`. -/
def previousChange (properties : List ℕ) (p : ℕ) : Option ℕ :=
  (List.range' 2 (p - 2)).reverse.find? fun q =>
    properties.contains (q - 1) != properties.contains (p - 1)

/-- Where `magit-section-backward` leaves point; nothing where it signals. -/
def magitSectionBackward (b : SectionText) (p : ℕ) : Option ℕ :=
  if p = 1 then none
  else
    let path := b.currentSection p
    if p + 1 = b.fin path ∧ 0 < childCount path b.sections then
      some (b.start (path ++ [childCount path b.sections - 1]))
    else if path ≠ [] ∧ p ≠ b.start path then
      some (b.start path)
    else if path ≠ [] then
      some (b.start (prevPath b.sections path.reverse))
    else if ¬b.display.properties.contains (p - 1) then
      some (previousLine b.newline p)
    else
      (previousChange b.display.properties (p - 1)).map fun q =>
        b.start (b.currentSection (previousLine b.newline q))

end SectionText

namespace Sections

section

variable {f g rest : Sections} {path : List ℕ} {beg p : ℕ}

/-- Behind the first section the path begins with another one. -/
theorem pathAt_append (hg : IsSection g) (h : beg + g.length ≤ p) :
    pathAt p beg (g.append rest) = bump (pathAt p (beg + g.length) rest) := by
  cases hg with
  | leaf n hidden => exact if_neg (Nat.not_lt.mpr h)
  | unwashed heading content hidden body => exact if_neg (Nat.not_lt.mpr h)
  | node heading washer hidden body =>
    have hlength : (node heading washer hidden body nil).length = heading + 1 + body.length := rfl
    rw [hlength, ← Nat.add_assoc] at h
    rw [append, pathAt, if_neg (by omega), if_neg (by omega), hlength, Nat.add_assoc]
    rfl

/-- The sections behind the first one begin behind it. -/
theorem startAt_append (hg : IsSection g) (i : ℕ) (path : List ℕ) :
    startAt ((i + 1) :: path) beg (g.append rest) = startAt (i :: path) (beg + g.length) rest := by
  cases hg with
  | leaf n hidden => rfl
  | unwashed heading content hidden body => rfl
  | node heading washer hidden body =>
    have hlength : (node heading washer hidden body nil).length = heading + 1 + body.length := rfl
    rw [append, startAt, hlength, Nat.add_assoc]
    rfl

/-- Sections that are not empty have a length. -/
theorem length_pos (h : f.NoEmpty) (hcount : 0 < f.count) : 0 < f.length := by
  induction f with
  | nil => exact absurd hcount (Nat.lt_irrefl 0)
  | text n rest ih =>
    have := ih h hcount
    rw [length]
    omega
  | leaf n hidden rest =>
    have := h.1
    rw [length]
    omega
  | unwashed | node =>
    rw [length]
    omega

/-- Where the sections stand that are behind one. -/
theorem startAt_behind (beg : ℕ) (hg : IsSection g)
    (h : ∀ beg, beg ≤ startAt path beg rest ∧ startAt path beg rest < beg + rest.length
      ∧ pathAt (startAt path beg rest) beg rest = path) (hpath : path ≠ []) :
    beg + g.length ≤ startAt (bump path) beg (g.append rest)
      ∧ startAt (bump path) beg (g.append rest) < beg + (g.append rest).length
      ∧ pathAt (startAt (bump path) beg (g.append rest)) beg (g.append rest) = bump path := by
  obtain ⟨hle, hlt, hat⟩ := h (beg + g.length)
  rcases path with _ | ⟨i, path⟩
  · exact absurd rfl hpath
  · rw [bump, startAt_append hg, length_append]
    refine ⟨hle, by omega, ?_⟩
    rw [pathAt_append hg hle, hat, bump]

/-- A section is the innermost one where it starts. -/
theorem pathAt_startAt (hempty : f.NoEmpty) (hpath : path ∈ f.shownPaths) (beg : ℕ) :
    beg ≤ startAt path beg f ∧ startAt path beg f < beg + f.length
      ∧ pathAt (startAt path beg f) beg f = path := by
  induction f generalizing path beg with
  | nil => cases hpath
  | text n rest ih =>
    obtain ⟨hle, hlt, hat⟩ := ih hempty hpath (beg + n)
    rw [length, startAt, pathAt, if_neg (Nat.not_lt.mpr hle)]
    exact ⟨by omega, by omega, hat⟩
  | leaf n hidden rest ih =>
    rcases List.mem_cons.mp hpath with rfl | hpath
    · have := hempty.1
      rw [startAt, length, pathAt, if_pos (by omega)]
      · exact ⟨Nat.le_refl beg, by omega, rfl⟩
      all_goals simp
    · obtain ⟨path, hmem, rfl⟩ := List.mem_map.mp hpath
      have h := startAt_behind beg (.leaf n hidden) (ih hempty.2 hmem)
        fun hnil => nil_notMem_shownPaths rest (hnil ▸ hmem)
      exact ⟨Nat.le_trans (Nat.le_add_right _ _) h.1, h.2⟩
  | unwashed heading content hidden body rest _ ih =>
    rcases List.mem_cons.mp hpath with rfl | hpath
    · rw [startAt, length, pathAt, if_pos (by omega)]
      · exact ⟨Nat.le_refl beg, by omega, rfl⟩
      all_goals simp
    · obtain ⟨path, hmem, rfl⟩ := List.mem_map.mp hpath
      have h := startAt_behind beg (.unwashed heading content hidden body)
        (ih hempty hmem) fun hnil => nil_notMem_shownPaths rest (hnil ▸ hmem)
      exact ⟨Nat.le_trans (Nat.le_add_right _ _) h.1, h.2⟩
  | node heading washer hidden body rest ihbody ih =>
    rcases List.mem_cons.mp hpath with rfl | hpath
    · rw [startAt, length, pathAt, if_pos (by omega)]
      · exact ⟨Nat.le_refl beg, by omega, rfl⟩
      all_goals simp
    rcases List.mem_append.mp hpath with hpath | hpath
    · obtain ⟨path, hmem, rfl⟩ : ∃ t ∈ body.shownPaths, 0 :: t = path := by
        cases hidden with
        | true => cases hpath
        | false => exact List.mem_map.mp hpath
      obtain ⟨hle, hlt, hat⟩ := ihbody hempty.1 hmem (beg + (heading + 1))
      rcases path with _ | ⟨i, path⟩
      · exact absurd hmem (nil_notMem_shownPaths body)
      · rw [startAt, length, pathAt, if_neg (by omega), if_pos hlt, hat]
        exact ⟨by omega, by omega, rfl⟩
    · obtain ⟨path, hmem, rfl⟩ := List.mem_map.mp hpath
      have h := startAt_behind beg (.node heading washer hidden body)
        (ih hempty.2 hmem) fun hnil => nil_notMem_shownPaths rest (hnil ▸ hmem)
      exact ⟨Nat.le_trans (Nat.le_add_right _ _) h.1, h.2⟩

theorem startAt_zero (h : 0 < f.count) (beg : ℕ) : startAt [0] beg f = beg + f.leading := by
  induction f generalizing beg with
  | nil => exact absurd h (Nat.lt_irrefl 0)
  | text n rest ih => rw [startAt, ih h, leading, Nat.add_assoc]
  | leaf | unwashed | node => rfl

theorem leading_eq_length (h : f.count = 0) : f.leading = f.length := by
  induction f with
  | nil => rfl
  | text n rest ih => rw [leading, length, ih h]
  | leaf | unwashed | node => cases h

/-- A section in front of others, in order. -/
theorem pairwise_startAt_append {beg : ℕ} (hg : IsSection g) (hrest : rest.NoEmpty)
    (ih : ∀ beg, rest.shownPaths.Pairwise fun path path' =>
      startAt path beg rest < startAt path' beg rest)
    (hfront : ∀ path ∈ g.shownPaths, startAt path beg (g.append rest) < beg + g.length)
    (hpairwise : g.shownPaths.Pairwise fun path path' =>
      startAt path beg (g.append rest) < startAt path' beg (g.append rest)) :
    (g.append rest).shownPaths.Pairwise fun path path' =>
      startAt path beg (g.append rest) < startAt path' beg (g.append rest) := by
  rw [shownPaths_append hg, List.pairwise_append, List.pairwise_map]
  refine ⟨hpairwise, ?_, ?_⟩
  · refine (ih (beg + g.length)).imp_of_mem fun {path path'} hpath hpath' hlt => ?_
    rcases path with _ | ⟨i, path⟩
    · exact absurd hpath (nil_notMem_shownPaths rest)
    rcases path' with _ | ⟨j, path'⟩
    · exact absurd hpath' (nil_notMem_shownPaths rest)
    rw [bump, bump, startAt_append hg, startAt_append hg]
    exact hlt
  · intro path hpath _ hbump
    obtain ⟨path', hpath', rfl⟩ := List.mem_map.mp hbump
    have hbehind := startAt_behind beg hg (pathAt_startAt hrest hpath')
      fun hnil => nil_notMem_shownPaths rest (hnil ▸ hpath')
    exact Nat.lt_of_lt_of_le (hfront path hpath) hbehind.1

theorem leading_le_length (f : Sections) : f.leading ≤ f.length := by
  induction f with
  | text n rest ih => exact Nat.add_le_add_left ih n
  | nil | leaf | unwashed | node => exact Nat.zero_le _

/-- The text in front of the first section is text of the parent. -/
theorem pathAt_leading (hle : beg ≤ p) (hlt : p < beg + f.leading) : pathAt p beg f = [] := by
  induction f generalizing beg with
  | text n rest ih =>
    rw [leading] at hlt
    rw [pathAt]
    split
    · rfl
    · exact ih (by omega) (by omega)
  | nil | leaf | unwashed | node => exact absurd hlt (Nat.not_lt.mpr hle)

/-- Every section begins behind the text in front. -/
theorem leading_le_startAt (hempty : f.NoEmpty) (hpath : path ∈ f.shownPaths) (beg : ℕ) :
    beg + f.leading ≤ startAt path beg f := by
  induction f generalizing beg with
  | text n rest ih =>
    rw [leading, ← Nat.add_assoc]
    exact ih hempty hpath (beg + n)
  | nil => cases hpath
  | leaf | unwashed | node => exact (pathAt_startAt hempty hpath beg).1

/-- The sections stand in the order of their paths. -/
theorem pairwise_startAt (hempty : f.NoEmpty) (beg : ℕ) :
    f.shownPaths.Pairwise fun path path' => startAt path beg f < startAt path' beg f := by
  induction f generalizing beg with
  | nil => exact .nil
  | text n rest ih => exact ih hempty (beg + n)
  | leaf n hidden rest ih =>
    refine pairwise_startAt_append (.leaf n hidden) hempty.2 (ih hempty.2) ?_
      (List.pairwise_singleton _ _)
    intro path hpath
    rw [List.mem_singleton.mp hpath]
    exact Nat.lt_add_of_pos_right hempty.1
  | unwashed heading content hidden body rest _ ih =>
    refine pairwise_startAt_append (.unwashed heading content hidden body) hempty (ih hempty) ?_
      (List.pairwise_singleton _ _)
    intro path hpath
    rw [List.mem_singleton.mp hpath]
    exact Nat.lt_add_of_pos_right (Nat.succ_pos heading)
  | node heading washer hidden body rest ihbody ih =>
    have hinside : ∀ path ∈ body.shownPaths,
        startAt (0 :: path) beg (node heading washer hidden body rest)
          = startAt path (beg + (heading + 1)) body := by
      intro path hpath
      rcases path with _ | ⟨i, path⟩
      · exact absurd hpath (nil_notMem_shownPaths body)
      · rfl
    have hbody := fun path (hpath : path ∈ body.shownPaths) => pathAt_startAt hempty.1 hpath
      (beg + (heading + 1))
    have hlength : (node heading washer hidden body nil).length = heading + 1 + body.length := rfl
    have hshown : (node heading washer hidden body nil).shownPaths
        = [0] :: if hidden then [] else body.shownPaths.map (0 :: ·) :=
      congrArg ([0] :: ·) (List.append_nil _)
    refine pairwise_startAt_append (.node heading washer hidden body) hempty.2 (ih hempty.2) ?_ ?_
    · intro path hpath
      rw [hshown] at hpath
      rw [hlength]
      rcases List.mem_cons.mp hpath with rfl | hpath
      · exact Nat.lt_add_of_pos_right (by omega)
      · cases hidden with
        | true => cases hpath
        | false =>
          obtain ⟨t, ht, rfl⟩ := List.mem_map.mp hpath
          have hlt := (hbody t ht).2.1
          rw [append, append, hinside t ht]
          omega
    · rw [hshown, List.pairwise_cons]
      cases hidden with
      | true => exact ⟨fun path hpath => absurd hpath List.not_mem_nil, List.Pairwise.nil⟩
      | false =>
        refine ⟨fun path hpath => ?_, List.pairwise_map.mpr ?_⟩
        · obtain ⟨t, ht, rfl⟩ := List.mem_map.mp hpath
          have hle := (hbody t ht).1
          rw [append, append, hinside t ht]
          exact Nat.lt_of_lt_of_le (Nat.lt_add_of_pos_right (Nat.succ_pos heading)) hle
        · refine (ihbody hempty.1 (beg + (heading + 1))).imp_of_mem fun {t t'} ht ht' hlt => ?_
          rw [append, append, hinside t ht, hinside t' ht']
          exact hlt

/-- What stands in a section besides its children is not empty. -/
theorem length_of_childCount {i : ℕ} (hempty : f.NoEmpty)
    (hg : subsection (i :: path) f = some g) (h : 0 < childCount (i :: path) f) :
    1 < g.length := by
  have hleads := leadsTo_of_subsection hg
  clear hg
  generalize hpath : i :: path = whole at hleads h
  clear hpath
  induction hleads with
  | @front rest hsection =>
    cases hsection with
    | leaf | unwashed => simp [append, childCount] at h
    | node heading washer hidden body =>
      rw [append, childCount_node, childCount_nil] at h
      have := length_pos hempty.1 h
      rw [length]
      omega
  | text _ ih =>
    rw [childCount_text] at h
    exact ih hempty h
  | behind hfront _ ih =>
    rw [childCount_behind hfront] at h
    refine ih ?_ h
    cases hfront with
    | leaf | node => exact hempty.2
    | unwashed => exact hempty
  | inside _ ih => exact ih hempty.1 h

end

end Sections

namespace SectionText

open Sections

variable {b : SectionText} {path : List ℕ} {p q : ℕ}

/-! ## From heading to heading -/

theorem start_eq (hpath : path ≠ []) : b.start path = startAt path b.beg b.sections := by
  cases path with
  | nil => exact absurd rfl hpath
  | cons => rfl

theorem ne_nil_of_mem {f : Sections} (hpath : path ∈ f.shownPaths) : path ≠ [] := by
  rintro rfl
  exact nil_notMem_shownPaths f hpath

/-- Where a section stands in its buffer. -/
theorem start_spec (hempty : b.sections.NoEmpty) (hpath : path ∈ b.sections.shownPaths) :
    b.beg ≤ b.start path ∧ b.start path < b.pointMax ∧ b.currentSection (b.start path) = path := by
  obtain ⟨hle, hlt, hat⟩ := pathAt_startAt hempty hpath b.beg
  rw [start_eq (ne_nil_of_mem hpath), currentSection, if_neg (Nat.not_lt.mpr hle)]
  exact ⟨hle, hlt, hat⟩

/-- A section with children is longer than one character. -/
theorem fin_ne (hempty : b.sections.NoEmpty) (hpath : path ∈ b.sections.shownPaths)
    (h : 0 < childCount path b.sections) : b.fin path ≠ b.start path + 1 := by
  rcases path with _ | ⟨i, path⟩
  · exact absurd rfl (ne_nil_of_mem hpath)
  obtain ⟨g, hg⟩ := Option.isSome_iff_exists.mp (mem_shownPaths_iff.mp hpath).1
  have := length_of_childCount hempty hg h
  rw [fin, hg, Option.elim_some]
  omega

/-- From the heading of a section to that of the next one. -/
theorem forward_start (hempty : b.sections.NoEmpty) (hpath : path ∈ b.sections.shownPaths) :
    b.magitSectionForward (b.start path) = (nextPath b.sections path).map b.start := by
  obtain ⟨-, hlt, hcurrent⟩ := start_spec hempty hpath
  have hguard : (hiddenAtPath path b.sections = false ∧ b.fin path ≠ b.start path + 1
      ∧ 0 < childCount path b.sections)
      ↔ hiddenAtPath path b.sections = false ∧ 0 < childCount path b.sections :=
    and_congr_right fun _ => and_iff_right_of_imp (fin_ne hempty hpath)
  rw [magitSectionForward, if_neg (Nat.ne_of_lt hlt), hcurrent, if_neg (ne_nil_of_mem hpath),
    nextPath]
  simp only [hguard]

/-- From the heading of a section to that of the previous one. -/
theorem backward_start (hempty : b.sections.NoEmpty) (hpath : path ∈ b.sections.shownPaths)
    (hone : b.start path ≠ 1) :
    b.magitSectionBackward (b.start path) = some (b.start (prevPath b.sections path.reverse)) := by
  obtain ⟨-, -, hcurrent⟩ := start_spec hempty hpath
  rw [magitSectionBackward, if_neg hone, hcurrent, if_neg, if_neg, if_pos (ne_nil_of_mem hpath)]
  · exact fun h => h.2 rfl
  · exact fun h => fin_ne hempty hpath h.2 h.1.symm

/-- Repeating a command from a position, until it signals. -/
inductive Walk (step : ℕ → Option ℕ) : ℕ → List ℕ → Prop
  | stop {p : ℕ} (h : step p = none) : Walk step p [p]
  | move {p q : ℕ} {l : List ℕ} (h : step p = some q) (hl : Walk step q l) : Walk step p (p :: l)

/-- From one of the sections through all that follow. -/
theorem walk_shownPaths (hempty : b.sections.NoEmpty) {l : List (List ℕ)}
    (hlinked : Linked (nextPath b.sections) (fun path => prevPath b.sections path.reverse)
      (path :: l) none) (hmem : ∀ q ∈ path :: l, q ∈ b.sections.shownPaths) :
    Walk b.magitSectionForward (b.start path) ((path :: l).map b.start) := by
  induction l generalizing path with
  | nil =>
    refine .stop ?_
    rw [forward_start hempty (hmem path List.mem_cons_self), hlinked.1]
    rfl
  | cons q l ih =>
    refine .move ?_ (ih hlinked.2.2 fun r hr => hmem r (List.mem_cons_of_mem _ hr))
    rw [forward_start hempty (hmem path List.mem_cons_self), hlinked.1]
    rfl

/-! ## The text of the root -/

/-- Where the first section begins, or the buffer ends. -/
def lead (b : SectionText) : ℕ := b.beg + b.sections.leading

/-- The text of the root in front of the first section ends with a newline, if there is any. -/
def WholeLines (b : SectionText) : Prop := b.lead = 1 ∨ b.newline (b.lead - 1) = true

/-- The beginning of a line. -/
def LineStart (b : SectionText) (p : ℕ) : Prop := p = 1 ∨ 1 < p ∧ b.newline (p - 1) = true

/-- The beginning of a line of the root's own text in front of the first section, or the end of a
buffer without sections. -/
def RootLine (b : SectionText) (p : ℕ) : Prop :=
  b.LineStart p ∧ (p < b.lead ∨ p = b.lead ∧ b.sections.count = 0)

/-- The beginning of a section whose ancestors are shown. -/
def Heading (b : SectionText) (p : ℕ) : Prop :=
  ∃ path, (subsection path b.sections).isSome = true ∧ ancestorsShown path b.sections = true
    ∧ b.start path = p

/-- The next line is the closest one. -/
theorem nextLine_spec {newline : ℕ → Bool} {p n lead : ℕ} (hlt : p < lead) (hle : lead ≤ p + n)
    (hlead : newline (lead - 1) = true) :
    p < nextLine newline p n ∧ nextLine newline p n ≤ lead
      ∧ newline (nextLine newline p n - 1) = true
      ∧ ∀ r, p < r → r < nextLine newline p n → newline (r - 1) = false := by
  induction n generalizing p with
  | zero => omega
  | succ n ih =>
    rw [nextLine]
    cases hp : newline p with
    | true =>
      rw [if_pos rfl]
      exact ⟨Nat.lt_succ_self p, hlt, hp, fun r hr hr' => by omega⟩
    | false =>
      have hne : p + 1 ≠ lead := by
        rintro rfl
        rw [Nat.add_sub_cancel, hp] at hlead
        cases hlead
      obtain ⟨hq, hq', hnewline, hbetween⟩ := ih (p := p + 1) (by omega) (by omega)
      rw [if_neg (by simp)]
      refine ⟨by omega, hq', hnewline, fun r hr hr' => ?_⟩
      rcases Nat.lt_or_ge (p + 1) r with hlt | hge
      · exact hbetween r hlt hr'
      · obtain rfl : r = p + 1 := by omega
        exact hp

theorem lead_le_pointMax (b : SectionText) : b.lead ≤ b.pointMax :=
  Nat.add_le_add_left (leading_le_length b.sections) b.beg

theorem one_le_lead (b : SectionText) : 1 ≤ b.lead := by
  rw [lead, SectionBuffer.beg]
  omega

theorem start_zero (h : 0 < b.sections.count) : b.start [0] = b.lead := startAt_zero h b.beg

theorem heading_iff : b.Heading p ↔ ∃ path ∈ b.sections.shownPaths, b.start path = p :=
  exists_congr fun _ => by rw [mem_shownPaths_iff, and_assoc]

theorem lead_le_start (hempty : b.sections.NoEmpty) (hpath : path ∈ b.sections.shownPaths) :
    b.lead ≤ b.start path := by
  rw [start_eq (ne_nil_of_mem hpath)]
  exact leading_le_startAt hempty hpath b.beg

theorem zero_mem_shownPaths (h : 0 < b.sections.count) : [0] ∈ b.sections.shownPaths := by
  refine List.mem_of_mem_head? ?_
  rw [head?_shownPaths, if_pos h]
  rfl

theorem count_pos_of_mem {f : Sections} (hpath : path ∈ f.shownPaths) : 0 < f.count := by
  by_contra hzero
  rw [shownPaths_eq_nil_iff.mpr (by omega)] at hpath
  cases hpath

/-- Only the first section begins where the text of the root in front of it ends. -/
theorem eq_zero_of_start (hempty : b.sections.NoEmpty) (hpath : path ∈ b.sections.shownPaths)
    (h : b.start path = b.lead) : path = [0] := by
  have hcount := count_pos_of_mem hpath
  have hcurrent := (start_spec hempty hpath).2.2
  rw [h, ← start_zero hcount, (start_spec hempty (zero_mem_shownPaths hcount)).2.2] at hcurrent
  exact hcurrent.symm

/-- From the text of the root to the next line. -/
theorem forward_lead (h : p < b.lead) :
    b.magitSectionForward p = some (nextLine b.newline p (b.pointMax - p)) := by
  have hcurrent : b.currentSection p = [] := by
    rw [currentSection]
    split
    · rfl
    · next hge => exact pathAt_leading (Nat.not_lt.mp hge) h
  have := lead_le_pointMax b
  rw [magitSectionForward, if_neg (by omega), hcurrent, if_pos rfl]

/-- From a line of the root to the end. -/
theorem walk_lead (hempty : b.sections.NoEmpty) (hlines : b.WholeLines) (hp : b.LineStart p)
    (hle : p ≤ b.lead) :
    ∃ l, Walk b.magitSectionForward p l ∧ l.Pairwise (· < ·)
      ∧ ∀ r, r ∈ l ↔ b.RootLine r ∧ p ≤ r ∨ b.Heading r := by
  induction hn : b.lead - p using Nat.strongRecOn generalizing p with
  | ind n ih =>
  rcases Nat.lt_or_eq_of_le hle with hlt | rfl
  · -- a line in front of the first section
    have hone : 1 ≤ p := by
      rcases hp with rfl | ⟨hp, -⟩
      · exact Nat.le_refl 1
      · exact Nat.le_of_lt hp
    obtain ⟨hq, hq', hnewline, hbetween⟩ := nextLine_spec (n := b.pointMax - p) hlt
      (by have := lead_le_pointMax b; omega) (hlines.resolve_left (by omega))
    generalize hnext : nextLine b.newline p (b.pointMax - p) = q at hq hq' hnewline hbetween
    obtain ⟨l, hwalk, hpairwise, hmem⟩ := ih (b.lead - q) (by omega)
      (.inr ⟨by omega, hnewline⟩) hq' rfl
    have hheading : ∀ r, b.Heading r → b.lead ≤ r := by
      intro r hr
      obtain ⟨path, hpath, rfl⟩ := heading_iff.mp hr
      exact lead_le_start hempty hpath
    refine ⟨p :: l, .move (by rw [forward_lead hlt, hnext]) hwalk, ?_, fun r => ?_⟩
    · refine List.pairwise_cons.mpr ⟨fun r hr => ?_, hpairwise⟩
      rcases (hmem r).mp hr with ⟨-, hr⟩ | hr
      · exact Nat.lt_of_lt_of_le hq hr
      · exact Nat.lt_of_lt_of_le hlt (hheading r hr)
    · rw [List.mem_cons, hmem, ← or_assoc]
      refine or_congr_left ?_
      constructor
      · rintro (rfl | ⟨hr, hle⟩)
        · exact ⟨⟨hp, .inl hlt⟩, Nat.le_refl r⟩
        · exact ⟨hr, by omega⟩
      · rintro ⟨hr, hle⟩
        rcases Nat.lt_or_eq_of_le hle with hpr | rfl
        · refine .inr ⟨hr, Nat.not_lt.mp fun hrq => ?_⟩
          rcases hr.1 with rfl | ⟨-, hr⟩
          · omega
          · rw [hbetween r hpr hrq] at hr
            cases hr
        · exact .inl rfl
  rcases Nat.eq_zero_or_pos b.sections.count with hcount | hcount
  · -- nothing but the text of the root
    have hend : b.pointMax = b.lead := by
      rw [pointMax, lead, leading_eq_length hcount]
    have hstop : b.magitSectionForward b.lead = none := by
      rw [magitSectionForward, if_pos hend.symm]
    refine ⟨[b.lead], .stop hstop, List.pairwise_singleton _ _, fun r => ?_⟩
    rw [List.mem_singleton]
    constructor
    · rintro rfl
      exact .inl ⟨⟨hp, .inr ⟨rfl, hcount⟩⟩, Nat.le_refl _⟩
    · rintro (⟨⟨-, hr | ⟨hr, -⟩⟩, hge⟩ | hr)
      · omega
      · exact hr
      · obtain ⟨path, hpath, -⟩ := heading_iff.mp hr
        exact absurd hcount (Nat.ne_of_gt (count_pos_of_mem hpath))
  · -- the first section
    obtain ⟨l, hl⟩ : ∃ l, b.sections.shownPaths = [0] :: l := by
      have hhead := head?_shownPaths b.sections
      rw [if_pos hcount] at hhead
      exact ⟨_, (List.cons_head?_tail hhead).symm⟩
    have hlinked := (linked_shownPaths b.sections).2.2
    rw [hl] at hlinked
    refine ⟨b.sections.shownPaths.map b.start, ?_, ?_, fun r => ?_⟩
    · have hwalk := walk_shownPaths hempty hlinked fun q hq => hl ▸ hq
      rwa [start_zero hcount, ← hl] at hwalk
    · refine List.pairwise_map.mpr ((pairwise_startAt hempty b.beg).imp_of_mem ?_)
      intro path path' hpath hpath' hlt
      rwa [start_eq (ne_nil_of_mem hpath), start_eq (ne_nil_of_mem hpath')]
    · rw [List.mem_map, heading_iff]
      refine (or_iff_right ?_).symm
      rintro ⟨⟨-, hr | ⟨-, hr⟩⟩, hge⟩ <;> omega

/-- Back from one section to that which is left for it. -/
theorem backward_forward (hempty : b.sections.NoEmpty) (hp : b.Heading p)
    (hforward : b.magitSectionForward p = some q) : b.magitSectionBackward q = some p := by
  obtain ⟨path, hpath, rfl⟩ := heading_iff.mp hp
  rw [forward_start hempty hpath] at hforward
  obtain ⟨next, hnext, rfl⟩ := Option.map_eq_some_iff.mp hforward
  obtain ⟨hmem, hprev⟩ := (linked_shownPaths b.sections).of_mem (List.mem_cons_of_mem _ hpath) hnext
  have hshown : next ∈ b.sections.shownPaths :=
    (List.mem_cons.mp hmem).resolve_left (nextPath_ne_nil hnext)
  rw [backward_start hempty hshown, hprev]
  intro hone
  have hle := one_le_lead b
  have hzero := eq_zero_of_start hempty hshown (by
    have := lead_le_start hempty hshown
    omega)
  subst hzero
  exact ne_nil_of_mem hpath hprev.symm

/-- **Moving forward and backward.**  From the beginning of the buffer `magit-section-forward` goes
down the lines of the root in front of the first section and then to all sections whose ancestors
are shown, in order; between headings `magit-section-backward` undoes it. -/
theorem forward_visits (hempty : b.sections.NoEmpty) (hlines : b.WholeLines) :
    (∃ l, Walk b.magitSectionForward 1 l ∧ l.Pairwise (· < ·)
      ∧ ∀ p, p ∈ l ↔ b.RootLine p ∨ b.Heading p)
      ∧ ∀ p q, p = 1 ∨ b.Heading p → b.Heading q → b.magitSectionForward p = some q →
        b.magitSectionBackward q = some p := by
  constructor
  · obtain ⟨l, hwalk, hpairwise, hmem⟩ := walk_lead hempty hlines (.inl rfl) (one_le_lead b)
    refine ⟨l, hwalk, hpairwise, fun p => (hmem p).trans (or_congr_left (and_iff_left_of_imp ?_))⟩
    rintro ⟨rfl | ⟨hp, -⟩, -⟩
    · exact Nat.le_refl 1
    · exact Nat.le_of_lt hp
  · intro p q hp hq hforward
    by_cases hlead : p = 1 ∧ 1 < b.lead
    · -- from the heading of the root, which is one line
      obtain ⟨rfl, hlt⟩ := hlead
      obtain ⟨path, hpath, rfl⟩ := heading_iff.mp hq
      obtain ⟨-, hle, -⟩ := nextLine_spec (n := b.pointMax - 1) hlt
        (by have := lead_le_pointMax b; omega) (hlines.resolve_left (by omega))
      rw [forward_lead hlt, Option.some_inj] at hforward
      have hge := lead_le_start hempty hpath
      obtain rfl := eq_zero_of_start hempty hpath (by omega)
      exact backward_start hempty hpath (by omega)
    · refine backward_forward hempty (hp.elim (fun hp => ?_) id) hforward
      -- the first section begins the buffer
      have hone := one_le_lead b
      obtain ⟨path, hpath, hstart⟩ := heading_iff.mp hq
      have hcount := count_pos_of_mem hpath
      exact heading_iff.mpr ⟨[0], zero_mem_shownPaths hcount, by rw [start_zero hcount]; omega⟩

/-- A root with a heading, a section that is hidden with the one in it, and another one. -/
def tags : SectionText where
  heading := some 5
  sections := .node 3 none true (.leaf 4 false .nil) (.leaf 6 false .nil)
  display := ⟨[(10, 14)], []⟩
  newline := fun p => [5, 9, 13, 19].contains p

/-- For the tags of the example the walk visits every heading. -/
theorem forward_visits_tags :
    (∃ l, Walk tags.magitSectionForward 1 l ∧ l.Pairwise (· < ·)
      ∧ ∀ p, p ∈ l ↔ tags.RootLine p ∨ tags.Heading p)
      ∧ ∀ p q, p = 1 ∨ tags.Heading p → tags.Heading q → tags.magitSectionForward p = some q →
        tags.magitSectionBackward q = some p :=
  forward_visits ⟨⟨by decide, trivial⟩, by decide, trivial⟩ (.inr rfl)

/-- Two lines of the root in front of a section. -/
def twoLines : SectionText := ⟨⟨some 12, .leaf 4 false .nil, ⟨[], []⟩⟩, fun p => [5, 12].contains p⟩

/-- A section that does not begin at the beginning of a line. -/
def sameLine : SectionText := ⟨⟨some 2, .leaf 4 false .nil, ⟨[], []⟩⟩, fun p => p == 6⟩

/-- An empty section between two others. -/
def emptySection : SectionText :=
  ⟨⟨none, .leaf 4 false (.leaf 0 false (.leaf 4 false .nil)), ⟨[], []⟩⟩, fun p => [4, 8].contains p⟩

/-- A line of the root is visited, a section is skipped, and nothing is undone. -/
theorem not_forward_visits :
    (¬∀ b : SectionText, b.sections.NoEmpty → b.WholeLines →
        ∀ p, b.magitSectionForward 1 = some p → b.Heading p)
      ∧ (¬∀ b : SectionText, b.sections.NoEmpty →
        ∀ l, Walk b.magitSectionForward 1 l → ∀ p, b.Heading p → p ∈ l)
      ∧ ¬∀ b : SectionText, b.WholeLines → ∀ p q, b.Heading p → b.Heading q →
        b.magitSectionForward p = some q → b.magitSectionBackward q = some p := by
  refine ⟨fun h => ?_, fun h => ?_, fun h => ?_⟩
  · have hline := h twoLines ⟨by decide, trivial⟩ (.inr rfl) 6 rfl
    rw [heading_iff] at hline
    exact absurd hline (by decide)
  · have hskipped := h sameLine ⟨by decide, trivial⟩ [1, 7] (.move rfl (.stop rfl)) 3
      ⟨[0], rfl, rfl, rfl⟩
    exact absurd hskipped (by decide)
  · have hback := h emptySection (.inl rfl) 1 5 ⟨[0], rfl, rfl, rfl⟩ ⟨[2], rfl, rfl, rfl⟩ rfl
    exact absurd hback (by decide)

end SectionText

end Magit.Section
