import Magit.Section.Buffer

/-!
# Section/Runs — runs of visibility commands in a section buffer

A buffer is in order (`SectionBuffer.Tidy`) once it has been refreshed, and every command keeps it
so that is run on a section whose ancestors are shown (`Reached.tidy`).  What is invisible then is
what the slots say, but for the carriage returns that washing a hunk has made invisible.
-/

namespace Magit.Section

open Emacs Display

/-- A buffer with sections: the heading of the root, what stands in it, and what is invisible. -/
structure SectionBuffer where
  heading : Option ℕ
  sections : Sections
  display : Display

/-- The visibility commands, with the path of the section they are run on. -/
inductive Command
  | sectionShow (path : List ℕ)
  | sectionHide (path : List ℕ)
  | sectionToggle (path : List ℕ)
  | sectionToggleChildren (path : List ℕ)
  | sectionShowChildren (path : List ℕ) (depth : Option ℤ)
  | sectionHideChildren (path : List ℕ)
  | sectionShowHeadings (path : List ℕ)
  | sectionCycle (path : List ℕ) (tabNext : Bool)
  | sectionCycleGlobal
  | sectionShowLevel (path : List ℕ) (level : ℤ)

/-- The path of the section that the command is run on. -/
def Command.path : Command → List ℕ
  | sectionShow path => path
  | sectionHide path => path
  | sectionToggle path => path
  | sectionToggleChildren path => path
  | sectionShowChildren path _ => path
  | sectionHideChildren path => path
  | sectionShowHeadings path => path
  | sectionCycle path _ => path
  | sectionCycleGlobal => []
  | sectionShowLevel path _ => path

namespace SectionBuffer

/-- Where the content of the root begins, behind its heading if it has one. -/
def beg (b : SectionBuffer) : ℕ := 1 + b.heading.getD 0

/-- The root as a command gets it. -/
def root (b : SectionBuffer) : Place := ⟨.root b.heading.isSome, b.beg, b.sections, b.display⟩

/-- The slots of all sections, the root first. -/
def extents (b : SectionBuffer) : List Extent :=
  ⟨1, b.heading.map (1 + ·), b.beg + b.sections.length, false⟩ :: b.sections.extents b.beg

/-- Runs a command on the section at the path, which is empty for the root. -/
def runAt (b : SectionBuffer) (command : Place → Option Place) : List ℕ → Option SectionBuffer
  | [] => (command b.root).map fun s => { b with sections := s.sections, display := s.display }
  | i :: path => (b.sections.atPath command (i :: path) b.beg b.display).map fun r =>
    { b with sections := r.1, display := r.2 }

/-- `magit-section-show-level` at one section, with what it does from the parent. -/
def levelAt (b : SectionBuffer) (level : ℤ) (path : List ℕ) (parent : Option SectionBuffer) :
    Option SectionBuffer :=
  let depth : ℤ := path.length
  if depth < level then
    b.runAt (fun s => some (s.magitSectionShowChildren (some (level - depth - 1)))) path.reverse
  else if depth = level then
    b.runAt Place.magitSectionHide path.reverse
  else
    parent

/-- The loop of `magit-section-show-level`; the path is that of the section it is at, reversed. -/
def showLevel (b : SectionBuffer) (level : ℤ) : List ℕ → Option SectionBuffer
  | [] => b.levelAt level [] none
  | i :: parent => b.levelAt level (i :: parent) (b.showLevel level parent)

/-- Nothing where the command signals, which leaves the buffer as it is. -/
def step (b : SectionBuffer) : Command → Option SectionBuffer
  | .sectionShow path => b.runAt (fun s => some s.magitSectionShow) path
  | .sectionHide path => b.runAt Place.magitSectionHide path
  | .sectionToggle path => b.runAt Place.magitSectionToggle path
  | .sectionToggleChildren path => b.runAt (fun s => some s.magitSectionToggleChildren) path
  | .sectionShowChildren path depth =>
    b.runAt (fun s => some (s.magitSectionShowChildren depth)) path
  | .sectionHideChildren path => b.runAt (fun s => some s.magitSectionHideChildren) path
  | .sectionShowHeadings path => b.runAt (fun s => some s.magitSectionShowHeadings) path
  | .sectionCycle path tabNext => b.runAt (Place.magitSectionCycle tabNext) path
  | .sectionCycleGlobal => b.runAt (fun s => some s.magitSectionCycleGlobal) []
  | .sectionShowLevel path level =>
    if level < 0 then b.runAt (fun s => some (s.magitSectionShowChildren (some (-level - 1)))) []
    else b.showLevel level path.reverse

/-- A new buffer, whose root `magit-insert-section--finish` shows. -/
def refreshed (heading : Option ℕ) (sections : Sections) : SectionBuffer :=
  let s := (SectionBuffer.mk heading sections ⟨[], []⟩).root.magitSectionShow
  ⟨heading, s.sections, s.display⟩

/-- The overlays are those that the slots call for, and what is shown is washed. -/
structure Tidy (b : SectionBuffer) : Prop where
  root : b.root.Tidy
  outside : ∀ p, b.display.Covered p → b.beg ≤ p ∧ p < b.beg + b.sections.length

/-- A root that is redrawn in a buffer without overlays elsewhere. -/
theorem Tidy.of_kept {b b' : SectionBuffer} (hheading : b'.heading = b.heading)
    (hroot : b'.root.Tidy) (hkept : b.root.Kept b'.root)
    (houtside : ∀ p, b.display.Covered p → b.beg ≤ p ∧ p < b.beg + b.sections.length) :
    b'.Tidy := by
  refine ⟨hroot, fun p hp => ?_⟩
  have hbeg : b'.beg = b.beg := by rw [beg, beg, hheading]
  rw [hbeg]
  rcases Nat.lt_or_ge p b.beg with hlt | hge
  · have := houtside p ((hkept.before p hlt).mp hp)
    omega
  obtain ⟨q, rfl⟩ := Nat.exists_eq_add_of_le hge
  rcases Nat.lt_or_ge q b'.sections.length with hlt | hge
  · omega
  · obtain ⟨r, rfl⟩ := Nat.exists_eq_add_of_le hge
    rw [← Nat.add_assoc] at hp
    have hbehind : b.display.Covered (b.beg + b.sections.length + r) := (hkept.behind r).mp hp
    have := houtside _ hbehind
    omega

/-- What a command does that keeps the buffer in order. -/
def KeepsTidy (command : Place → Option Place) : Prop :=
  ∀ ⦃s s' : Place⦄, s.Tidy → command s = some s' → s'.Tidy ∧ s.Kept s'

/-- A command that never fails keeps the buffer tidy if it leaves every place so. -/
theorem keepsTidy_some {command : Place → Place}
    (h : ∀ {s : Place}, s.Tidy → (command s).Tidy ∧ s.Kept (command s)) :
    KeepsTidy fun s => some (command s) := by
  intro s s' hs hs'
  rw [← Option.some.inj hs']
  exact h hs

/-- **A command on one section** keeps the whole buffer in order. -/
theorem tidy_runAt {b b' : SectionBuffer} {command : Place → Option Place} {path : List ℕ}
    (hcommand : KeepsTidy command) (h : b.Tidy)
    (hshown : Sections.ancestorsShown path b.sections = true)
    (hb' : b.runAt command path = some b') : b'.Tidy ∧ b.root.Kept b'.root := by
  rcases path with _ | ⟨i, path⟩
  · obtain ⟨s', hs', rfl⟩ := Option.map_eq_some_iff.mp hb'
    obtain ⟨htidy, hkept⟩ := hcommand h.root hs'
    have hroot : s' = SectionBuffer.root ⟨b.heading, s'.sections, s'.display⟩ := by
      obtain ⟨level, beg, sections, display⟩ := s'
      obtain rfl : level = _ := hkept.level
      obtain rfl : beg = _ := hkept.beg
      rfl
    rw [hroot] at htidy hkept
    exact ⟨.of_kept (b := b) rfl htidy hkept h.outside, hkept⟩
  · obtain ⟨⟨f', d'⟩, hr, rfl⟩ := Option.map_eq_some_iff.mp hb'
    have hredraws := Sections.redraws_atPath (fun hs hs' => hcommand hs hs') h.root.exactly
      h.root.washed hshown hr
    have hkept : b.root.Kept (SectionBuffer.root ⟨b.heading, f', d'⟩) :=
      ⟨rfl, rfl, hredraws.redrawn.before, hredraws.redrawn.behind,
        fun hplain => hredraws.plain hplain.1 hplain.2⟩
    have htidy : (SectionBuffer.root ⟨b.heading, f', d'⟩).Tidy :=
      Place.tidy_of_redrawn (s := b.root) rfl hredraws.redrawn h.root.loose.not_covered_end
        hredraws.washed
    exact ⟨.of_kept (b := b) rfl htidy hkept h.outside, hkept⟩

/-- Showing a level at a path leaves the buffer tidy. -/
theorem tidy_levelAt {b b' : SectionBuffer} {level : ℤ} {path : List ℕ}
    {parent : Option SectionBuffer} (h : b.Tidy)
    (hshown : Sections.ancestorsShown path.reverse b.sections = true)
    (hparent : parent = some b' → b'.Tidy ∧ b.root.Kept b'.root)
    (hb' : b.levelAt level path parent = some b') : b'.Tidy ∧ b.root.Kept b'.root := by
  simp only [levelAt] at hb'
  split_ifs at hb'
  · exact tidy_runAt (keepsTidy_some fun hs => Place.tidy_magitSectionShowChildren hs _) h hshown hb'
  · exact tidy_runAt (fun _ _ hs hs' => Place.tidy_magitSectionHide hs.loose hs') h hshown hb'
  · exact hparent hb'

/-- Showing a level leaves the buffer tidy. -/
theorem tidy_showLevel {b b' : SectionBuffer} {level : ℤ} {path : List ℕ} (h : b.Tidy)
    (hshown : Sections.ancestorsShown path.reverse b.sections = true)
    (hb' : b.showLevel level path = some b') : b'.Tidy ∧ b.root.Kept b'.root := by
  induction path with
  | nil => exact tidy_levelAt h hshown (fun hnone => by simp at hnone) hb'
  | cons i parent ih =>
    rw [List.reverse_cons] at hshown
    exact tidy_levelAt h (by rwa [List.reverse_cons])
      (fun hparent => ih (Sections.ancestorsShown_parent hshown) hparent) hb'

/-- **A command keeps a buffer in order**, if no ancestor of the section it is run on is hidden. -/
theorem tidy_step {b b' : SectionBuffer} {c : Command} (h : b.Tidy)
    (hshown : Sections.ancestorsShown c.path b.sections = true) (hb' : b.step c = some b') :
    b'.Tidy ∧ b.root.Kept b'.root := by
  have hroot : Sections.ancestorsShown [] b.sections = true := Sections.ancestorsShown_nil _
  rcases c with path | path | path | path | ⟨path, depth⟩ | path | path | ⟨path, tabNext⟩ | _
    | ⟨path, level⟩
  · exact tidy_runAt (keepsTidy_some fun hs => Place.tidy_magitSectionShow hs.loose) h hshown hb'
  · exact tidy_runAt (fun _ _ hs hs' => Place.tidy_magitSectionHide hs.loose hs') h hshown hb'
  · exact tidy_runAt (fun _ _ hs hs' => Place.tidy_magitSectionToggle hs hs') h hshown hb'
  · exact tidy_runAt (keepsTidy_some Place.tidy_magitSectionToggleChildren) h hshown hb'
  · exact tidy_runAt (keepsTidy_some fun hs => Place.tidy_magitSectionShowChildren hs depth) h
      hshown hb'
  · exact tidy_runAt (keepsTidy_some Place.tidy_magitSectionHideChildren) h hshown hb'
  · exact tidy_runAt (keepsTidy_some Place.tidy_magitSectionShowHeadings) h hshown hb'
  · exact tidy_runAt (fun _ _ hs hs' => Place.tidy_magitSectionCycle hs hs') h hshown hb'
  · exact tidy_runAt (keepsTidy_some Place.tidy_magitSectionCycleGlobal) h hroot hb'
  · simp only [step] at hb'
    split_ifs at hb'
    · exact tidy_runAt (keepsTidy_some fun hs => Place.tidy_magitSectionShowChildren hs _) h hroot
        hb'
    · exact tidy_showLevel h (by rwa [List.reverse_reverse]) hb'

/-- A refreshed buffer is tidy. -/
theorem tidy_refreshed (heading : Option ℕ) (f : Sections) :
    (refreshed heading f).Tidy
      ∧ (SectionBuffer.mk heading f ⟨[], []⟩).root.Kept (refreshed heading f).root := by
  have hnone : ∀ p, ¬(SectionBuffer.mk heading f ⟨[], []⟩).display.Covered p := by
    rintro p ⟨o, ho, -⟩
    exact List.not_mem_nil ho
  obtain ⟨htidy, hkept⟩ := Place.tidy_magitSectionShow
    (s := (SectionBuffer.mk heading f ⟨[], []⟩).root) fun p _ hp => absurd hp (hnone _)
  exact ⟨.of_kept (b := ⟨heading, f, ⟨[], []⟩⟩) rfl htidy hkept fun p hp => absurd hp (hnone p),
    hkept⟩

end SectionBuffer

/-- The buffers that commands lead to from a new one, on sections whose ancestors are shown. -/
inductive Reached (heading : Option ℕ) (f : Sections) : SectionBuffer → Prop
  | refreshed : Reached heading f (SectionBuffer.refreshed heading f)
  | command {b b' : SectionBuffer} (c : Command) (hb : Reached heading f b)
      (hshown : Sections.ancestorsShown c.path b.sections = true) (hb' : b.step c = some b') :
      Reached heading f b'

/-- Hiding a section that is shown, and showing it again, in a buffer in order. -/
theorem SectionBuffer.show_hide {b b₁ : SectionBuffer} {path : List ℕ} (h : b.Tidy)
    (hshown : Sections.ancestorsShown path b.sections = true)
    (hvisible : Sections.hiddenAtPath path b.sections = false)
    (hb₁ : b.step (.sectionHide path) = some b₁) :
    Sections.ancestorsShown path b₁.sections = true
      ∧ ∃ d₂, b₁.step (.sectionShow path) = some { b with display := d₂ }
        ∧ d₂.properties = b.display.properties := by
  rcases path with _ | ⟨i, path⟩
  · simp [step, runAt, Place.magitSectionHide, root] at hb₁
  · obtain ⟨⟨f₁, d₁⟩, hr, rfl⟩ := Option.map_eq_some_iff.mp hb₁
    obtain ⟨hpath, d₂, hd₂, hproperties⟩ :=
      Sections.atPath_show_hide h.root.washed hshown hvisible hr
    exact ⟨hpath, d₂, Option.map_eq_some_iff.mpr ⟨_, hd₂, rfl⟩, hproperties⟩

/-- In a buffer in order the overlays cover what the slots say. -/
theorem SectionBuffer.Tidy.covered_iff {b : SectionBuffer} (h : b.Tidy) (p : ℕ) :
    b.display.Covered p ↔ HiddenAt b.extents p := by
  have hroot : HiddenAt b.extents p ↔ HiddenAt (b.sections.extents b.beg) p := by
    rw [extents, hiddenAt_cons]
    exact or_iff_right fun hhides => Bool.noConfusion hhides.1
  rw [hroot]
  rcases Nat.lt_or_ge p b.beg with hlt | hge
  · exact iff_of_false (fun hp => by have := h.outside p hp; omega)
      (Sections.not_hiddenAt_of_lt hlt)
  obtain ⟨q, rfl⟩ := Nat.exists_eq_add_of_le hge
  rw [Sections.hiddenAt_add]
  rcases Nat.lt_or_ge q b.sections.length with hlt | hge
  · exact h.root.exactly q (Nat.le_of_lt hlt)
  · exact iff_of_false (fun hp => by have := h.outside _ hp; omega)
      (Sections.not_hidden_of_length_le hge)

/-- **A run of commands keeps a buffer in order.** -/
theorem Reached.tidy {heading : Option ℕ} {f : Sections} {b : SectionBuffer}
    (h : Reached heading f b) :
    b.Tidy ∧ (f.offsets = [] → b.display.properties = []) := by
  suffices hkept : b.Tidy ∧ (f.offsets = [] → b.root.Plain) from
    ⟨hkept.1, fun hf => (hkept.2 hf).2⟩
  induction h with
  | refreshed =>
    obtain ⟨htidy, hkept⟩ := SectionBuffer.tidy_refreshed heading f
    exact ⟨htidy, fun hf => hkept.plain ⟨hf, rfl⟩⟩
  | command c _ hshown hb' ih =>
    obtain ⟨htidy, hkept⟩ := SectionBuffer.tidy_step ih.1 hshown hb'
    exact ⟨htidy, fun hf => hkept.plain (ih.2 hf)⟩

/-- **What is invisible** in a buffer that commands led to is what the slots say, apart from the
characters that the washer of a hunk made invisible.  So hiding a section and showing it again
changes nothing. -/
theorem invisible_iff_hiddenAt {heading : Option ℕ} {f : Sections} {b : SectionBuffer}
    (h : Reached heading f b) :
    (∀ p ∉ b.display.properties, (b.display.Invisible p ↔ HiddenAt b.extents p))
      ∧ (f.offsets = [] → ∀ p, (b.display.Invisible p ↔ HiddenAt b.extents p))
      ∧ ∀ path, Sections.ancestorsShown path b.sections = true →
        Sections.hiddenAtPath path b.sections = false →
        ∀ b₁, b.step (.sectionHide path) = some b₁ →
          ∃ b₂, b₁.step (.sectionShow path) = some b₂ ∧ b₂.sections = b.sections
            ∧ ∀ p, (b₂.display.Invisible p ↔ b.display.Invisible p) := by
  obtain ⟨htidy, hproperties⟩ := h.tidy
  refine ⟨fun p hp => ?_, fun hf p => ?_, ?_⟩
  · rw [← htidy.covered_iff]
    exact or_iff_left hp
  · rw [← htidy.covered_iff]
    exact or_iff_left (by rw [hproperties hf]; exact List.not_mem_nil)
  · intro path hshown hvisible b₁ hb₁
    obtain ⟨hshown₁, d₂, hb₂, hsame⟩ := SectionBuffer.show_hide htidy hshown hvisible hb₁
    have htidy₁ := (SectionBuffer.tidy_step (c := .sectionHide path) htidy hshown hb₁).1
    have htidy₂ := (SectionBuffer.tidy_step (c := .sectionShow path) htidy₁ hshown₁ hb₂).1
    refine ⟨_, hb₂, rfl, fun p => or_congr ?_ (by rw [hsame])⟩
    rw [htidy₂.covered_iff, htidy.covered_iff]
    rfl

/-! ## The washer of a hunk -/

/-- The characters that `magit-diff-paint-hunk` makes invisible: with the option
`magit-diff-hide-trailing-cr-characters` the carriage returns at the ends of the lines. -/
def trailingReturns (hide : Bool) (offset : ℕ) : List (List Char) → List ℕ
  | [] => []
  | line :: lines =>
    (if hide && line.getLast? == some '\r' then [offset + line.length - 1] else [])
      ++ trailingReturns hide (offset + (line.length + 1)) lines

/-- A hunk as `magit-diff-wash-hunk` inserts it. -/
def hunkSection (hide hidden : Bool) (heading : List Char) (lines : List (List Char))
    (rest : Sections) : Sections :=
  .node heading.length (some (trailingReturns hide 0 lines)) hidden
    (.text (lines.foldr (fun line n => line.length + 1 + n) 0) .nil) rest

/-- Without the option a hunk's washer makes nothing invisible. -/
theorem offsets_hunkSection (hidden : Bool) (heading : List Char) (lines : List (List Char))
    (rest : Sections) : (hunkSection false hidden heading lines rest).offsets = rest.offsets := by
  have hnone : ∀ offset, trailingReturns false offset lines = [] := by
    induction lines with
    | nil => exact fun _ => rfl
    | cons line lines ih => exact fun _ => ih _
  rw [hunkSection, hnone]
  rfl

/-- A carriage return that is painted is invisible in a hunk that is shown. -/
theorem painted_return_invisible :
    ¬∀ (heading : Option ℕ) (f : Sections) (b : SectionBuffer), Reached heading f b →
      ∀ p, (b.display.Invisible p ↔ HiddenAt b.extents p) := by
  intro h
  have hreturn := h none (hunkSection true false "@@ -1 +1 @@".toList ["-a\r".toList] .nil) _
    .refreshed 15
  exact absurd (hreturn.mp (by decide)) (by decide)

/-- A hunk that was hidden at first and has been shown. -/
def shownHunk : SectionBuffer := ⟨none, .node 11 none false (.text 6 .nil) .nil, ⟨[], []⟩⟩

/-- The hunk of the example, shown and hidden. -/
theorem invisible_iff_hiddenAt_hunk :
    (∀ p, (shownHunk.display.Invisible p ↔ HiddenAt shownHunk.extents p))
      ∧ ∃ b, SectionBuffer.step ⟨none, .node 11 none true (.text 6 .nil) .nil, ⟨[(13, 19)], []⟩⟩
          (.sectionShow [0]) = some b ∧ b.sections = shownHunk.sections
        ∧ ∀ p, (b.display.Invisible p ↔ shownHunk.display.Invisible p) := by
  have hreached : Reached none
      (hunkSection false true "@@ -1 +1 @@".toList ["-a".toList, "+b".toList] .nil) shownHunk :=
    .command (.sectionToggle [0]) .refreshed rfl rfl
  obtain ⟨-, hplain, hagain⟩ := invisible_iff_hiddenAt hreached
  exact ⟨hplain (offsets_hunkSection _ _ _ _), hagain [0] rfl rfl _ rfl⟩

end Magit.Section
