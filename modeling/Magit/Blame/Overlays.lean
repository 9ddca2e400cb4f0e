import Mathlib.Data.List.Pairwise
import Magit.Blame.Parse

/-!
# Blame/Overlays — the overlays on the lines of a chunk

A chunk that arrives removes the overlays on its lines.  If the lines in front of it are attributed
to the same commit, then it also takes these, with the number of its own first line in the original
file.  As long as that happens only where it does no harm (`Harmless`), each line whose chunk has
arrived is covered by exactly one heading overlay, that names its commit and the original line of
the overlay's first one (`shows_of_harmless`).
-/

namespace Magit.Blame

/-- An overlay from the beginning of a line to that of another one: a heading, or the highlight of
the first line of a chunk.  Those in the margin do not reach the end of their line, so that they are
never looked at. -/
structure Overlay where
  heading : Bool
  beg : ℕ
  fin : ℕ
  chunk : Chunk

/-- The line is in the overlay. -/
def Overlay.covers (o : Overlay) (line : ℕ) : Bool := o.beg ≤ line && line < o.fin

section

-- in which order Emacs lists overlays is not specified
variable (order : List Overlay → List Overlay)

/-- `(overlays-at pos)` at the end of a line. -/
def overlaysAt (overlays : List Overlay) (line : ℕ) : List Overlay :=
  order (overlays.filter (·.covers line))

/-- `magit-blame-chunk-at`, of the overlays at a line. -/
def magitBlameChunkAt (overlays : List Overlay) (line : ℕ) : Option Chunk :=
  (overlaysAt order overlays line).head?.map Overlay.chunk

/-- `magit-blame--remove-overlays` -/
def magitBlameRemoveOverlays (overlays : List Overlay) (beg fin : ℕ) : List Overlay :=
  overlays.filter fun o => !(o.beg < fin && beg < o.fin)

/-- The chunk itself, or what becomes of it behind one of the same commit. -/
def mergeChunk (before : Option Chunk) (c : Chunk) : Chunk :=
  match before with
  | some b =>
    if b.origRev = c.origRev then
      { c with finalLine := b.finalLine, numLines := c.numLines + b.numLines }
    else c
  | none => c

/-- The overlays of a chunk from its first line, in the place of those that were there. -/
def place (overlays : List Overlay) (c : Chunk) (fin : ℕ) : List Overlay :=
  magitBlameRemoveOverlays overlays c.finalLine fin ++
    [⟨true, c.finalLine, fin, c⟩, ⟨false, c.finalLine, c.finalLine + 1, c⟩]

/-- `magit-blame--make-overlays` -/
def magitBlameMakeOverlays (overlays : List Overlay) (c : Chunk) : List Overlay :=
  place overlays (mergeChunk (magitBlameChunkAt order overlays (c.finalLine - 1)) c)
    (c.finalLine + c.numLines)

end

/-! ## What is to be shown -/

/-- The line of the file that is blamed is one of the chunk's. -/
def Chunk.Contains (c : Chunk) (line : ℕ) : Prop :=
  c.finalLine ≤ line ∧ line < c.finalLine + c.numLines

/-- No line is in both chunks. -/
def Chunk.Apart (c c' : Chunk) : Prop := ∀ line, c.Contains line → ¬c'.Contains line

instance : Std.Symm Chunk.Apart where
  symm _ _ h line hline' hline := h line hline hline'

/-- A blame of a file of so many lines. -/
structure Blames (lines : ℕ) (blame : List Chunk) : Prop where
  nonempty : ∀ c ∈ blame, 1 ≤ c.finalLine ∧ 1 ≤ c.numLines ∧ c.finalLine + c.numLines ≤ lines + 1
  disjoint : blame.Pairwise Chunk.Apart
  covers : ∀ line, 1 ≤ line → line ≤ lines → ∃ c ∈ blame, c.Contains line

/-- Exactly one heading covers the line; it names the commit to which the line is attributed, and the
original line of the first one that it covers. -/
def Shows (overlays : List Overlay) (blame : List Chunk) (line : ℕ) : Prop :=
  ∃ o, overlays.filter (fun o => o.heading && o.covers line) = [o] ∧
    (∀ c ∈ blame, c.Contains line → o.chunk.origRev = c.origRev) ∧
    ∀ c ∈ blame, c.Contains o.beg → o.chunk.origLine = c.origLine + (o.beg - c.finalLine)

/-- If chunks that arrive are merged with what is in front of them, then that has arrived in the same
run, and begins on the same original line. -/
def Harmless (order : List Overlay → List Overlay) :
    List Overlay → List Chunk → List Chunk → Prop
  | _, _, [] => True
  | overlays, arrived, c :: cs =>
    (∀ b, magitBlameChunkAt order overlays (c.finalLine - 1) = some b → b.origRev = c.origRev →
      (∃ c' ∈ arrived, c'.Contains (c.finalLine - 1)) ∧ b.origLine = c.origLine) ∧
    Harmless order (magitBlameMakeOverlays order overlays c) (arrived ++ [c]) cs

/-! ## What a chunk shows -/

/-- A line of the chunks that have arrived. -/
def Arrived (arrived : List Chunk) (line : ℕ) : Prop := ∃ c ∈ arrived, c.Contains line

/-- The heading covers lines that have arrived, and says of them what they are attributed to. -/
structure Overlay.Right (o : Overlay) (arrived : List Chunk) : Prop where
  beg : o.beg = o.chunk.finalLine
  rev : ∀ line, o.covers line = true → ∃ c ∈ arrived, c.Contains line ∧ o.chunk.origRev = c.origRev
  line : ∃ c ∈ arrived, c.Contains o.beg ∧ o.chunk.origLine = c.origLine + (o.beg - c.finalLine)

/-- There is one heading on the line, and all overlays on it are of its chunk. -/
structure Alone (overlays : List Overlay) (o : Overlay) (line : ℕ) : Prop where
  only : overlays.filter (fun o => o.heading && o.covers line) = [o]
  chunk : ∀ o' ∈ overlays, o'.covers line = true → o'.chunk = o.chunk

/-- All lines that have arrived are shown. -/
def Covered (overlays : List Overlay) (arrived : List Chunk) : Prop :=
  ∀ line, Arrived arrived line → ∃ o, Alone overlays o line ∧ o.Right arrived

theorem covers_iff {o : Overlay} {line : ℕ} : o.covers line = true ↔ o.beg ≤ line ∧ line < o.fin := by
  rw [Overlay.covers, Bool.and_eq_true, decide_eq_true_eq, decide_eq_true_eq]

theorem Alone.covers {overlays : List Overlay} {o : Overlay} {line : ℕ} (h : Alone overlays o line) :
    o.covers line = true := by
  have hmem : o ∈ overlays.filter fun o => o.heading && o.covers line := by
    rw [h.only]
    exact List.mem_singleton_self o
  exact (Bool.and_eq_true _ _ ▸ (List.mem_filter.mp hmem).2).2

/-- An overlay that is alone at a line is one of the overlays, and has a heading. -/
theorem Alone.mem {overlays : List Overlay} {o : Overlay} {line : ℕ} (h : Alone overlays o line) :
    o ∈ overlays ∧ o.heading = true := by
  have hmem : o ∈ overlays.filter fun o => o.heading && o.covers line := by
    rw [h.only]
    exact List.mem_singleton_self o
  obtain ⟨ho, hheading⟩ := List.mem_filter.mp hmem
  exact ⟨ho, ((Bool.and_eq_true _ _).mp hheading).1⟩

/-- Another heading on the line is the same. -/
theorem Alone.eq {overlays : List Overlay} {o o' : Overlay} {line line' : ℕ}
    (h : Alone overlays o line) (h' : Alone overlays o' line') (hline : o'.covers line = true) :
    o' = o := by
  have hmem : o' ∈ overlays.filter fun o => o.heading && o.covers line :=
    List.mem_filter.mpr ⟨h'.mem.1, by rw [h'.mem.2, hline]; rfl⟩
  rwa [h.only, List.mem_singleton] at hmem

/-! ## Placing overlays -/

section

variable {overlays : List Overlay} {m : Chunk} {fin : ℕ}

/-- On its lines there are only the overlays that have been placed. -/
theorem alone_place_inside {line : ℕ} (hbeg : m.finalLine ≤ line) (hfin : line < fin) :
    Alone (place overlays m fin) ⟨true, m.finalLine, fin, m⟩ line := by
  have hremoved : ∀ o ∈ magitBlameRemoveOverlays overlays m.finalLine fin,
      o.covers line = false := by
    intro o ho
    have hkept := (List.mem_filter.mp ho).2
    rw [Bool.not_eq_true', Bool.and_eq_false_iff, decide_eq_false_iff_not,
      decide_eq_false_iff_not] at hkept
    refine Bool.eq_false_iff.mpr fun hcovers => ?_
    obtain ⟨hle, hlt⟩ := covers_iff.mp hcovers
    omega
  refine ⟨?_, fun o ho hcovers => ?_⟩
  · have hnone : (magitBlameRemoveOverlays overlays m.finalLine fin).filter
        (fun o => o.heading && o.covers line) = [] :=
      List.filter_eq_nil_iff.mpr fun o ho => by rw [hremoved o ho, Bool.and_false]; exact Bool.false_ne_true
    rw [place, List.filter_append, hnone]
    simp [Overlay.covers, hbeg, hfin]
  · rcases List.mem_append.mp ho with hold | hnew
    · rw [hremoved o hold] at hcovers
      cases hcovers
    · simp only [List.mem_cons, List.not_mem_nil, or_false] at hnew
      rcases hnew with rfl | rfl <;> rfl

/-- A heading none of whose lines it takes stays. -/
theorem alone_place_outside {o : Overlay} {line : ℕ} (h : Alone overlays o line)
    (hfin : m.finalLine < fin) (hdisjoint : o.fin ≤ m.finalLine ∨ fin ≤ o.beg) :
    Alone (place overlays m fin) o line := by
  obtain ⟨hbeg, hlt⟩ := covers_iff.mp h.covers
  have hnew : ∀ o' ∈ [(⟨true, m.finalLine, fin, m⟩ : Overlay),
      ⟨false, m.finalLine, m.finalLine + 1, m⟩], o'.covers line = false := by
    intro o' ho'
    simp only [List.mem_cons, List.not_mem_nil, or_false] at ho'
    refine Bool.eq_false_iff.mpr fun hcovers => ?_
    obtain ⟨hle', hlt'⟩ := covers_iff.mp hcovers
    rcases ho' with rfl | rfl <;> simp only at hle' hlt' <;> omega
  refine ⟨?_, fun o' ho' hcovers => ?_⟩
  · have hnone : ([(⟨true, m.finalLine, fin, m⟩ : Overlay),
        ⟨false, m.finalLine, m.finalLine + 1, m⟩]).filter (fun o => o.heading && o.covers line)
          = [] :=
      List.filter_eq_nil_iff.mpr fun o ho => by rw [hnew o ho, Bool.and_false]; exact Bool.false_ne_true
    have hkept : (!(decide (o.beg < fin) && decide (m.finalLine < o.fin))) = true := by
      rw [Bool.not_eq_true', Bool.and_eq_false_iff, decide_eq_false_iff_not,
        decide_eq_false_iff_not]
      omega
    rw [place, List.filter_append, hnone, List.append_nil, magitBlameRemoveOverlays,
      List.filter_comm, h.only, List.filter_singleton, hkept]
    rfl
  · rcases List.mem_append.mp ho' with hold | hplaced
    · exact h.chunk o' (List.mem_filter.mp hold).1 hcovers
    · rw [hnew o' hplaced] at hcovers
      cases hcovers

/-- An overlay that shows what has arrived stays right when more arrives. -/
theorem Overlay.Right.mono {o : Overlay} {arrived more : List Chunk} (h : o.Right arrived) :
    o.Right (arrived ++ more) where
  beg := h.beg
  rev line hline := by
    obtain ⟨c, hc, hand⟩ := h.rev line hline
    exact ⟨c, List.mem_append_left _ hc, hand⟩
  line := by
    obtain ⟨c, hc, hand⟩ := h.line
    exact ⟨c, List.mem_append_left _ hc, hand⟩

/-- Overlays are placed on the lines of a chunk and of headings in front of it. -/
theorem covered_place {arrived : List Chunk} {c : Chunk} (h : Covered overlays arrived)
    (hlt : m.finalLine < fin)
    (hright : (⟨true, m.finalLine, fin, m⟩ : Overlay).Right (arrived ++ [c]))
    (hin : ∀ line, c.Contains line → m.finalLine ≤ line ∧ line < fin)
    (hout : ∀ o line, Alone overlays o line → o.Right arrived →
      (o.fin ≤ m.finalLine ∨ fin ≤ o.beg) ∨ (m.finalLine ≤ line ∧ line < fin)) :
    Covered (place overlays m fin) (arrived ++ [c]) := by
  intro line hline
  obtain ⟨c', hc', hcontains⟩ := hline
  rcases List.mem_append.mp hc' with hold | hnew
  · obtain ⟨o, halone, hrightO⟩ := h line ⟨c', hold, hcontains⟩
    rcases hout o line halone hrightO with hdisjoint | ⟨hbeg, hfin⟩
    · exact ⟨o, alone_place_outside halone hlt hdisjoint, hrightO.mono⟩
    · exact ⟨_, alone_place_inside hbeg hfin, hright⟩
  · rw [List.mem_singleton.mp hnew] at hcontains
    obtain ⟨hbeg, hfin⟩ := hin line hcontains
    exact ⟨_, alone_place_inside hbeg hfin, hright⟩

end

/-! ## A chunk that arrives -/

/-- A chunk is left as it is unless the one in front of it is of the same commit. -/
theorem mergeChunk_of_ne {before : Option Chunk} {c : Chunk}
    (h : ∀ b, before = some b → b.origRev ≠ c.origRev) : mergeChunk before c = c := by
  rcases before with _ | b
  · rfl
  · exact if_neg (h b rfl)

/-- What `magit-blame-chunk-at` returns is the chunk of an overlay that covers the line, whatever
the order in which the overlays are listed. -/
theorem mem_of_chunkAt {order : List Overlay → List Overlay} (horder : ∀ l o, o ∈ order l → o ∈ l)
    {overlays : List Overlay} {line : ℕ} {b : Chunk}
    (h : magitBlameChunkAt order overlays line = some b) :
    ∃ o ∈ overlays, o.covers line = true ∧ o.chunk = b := by
  obtain ⟨o, ho, rfl⟩ := Option.map_eq_some_iff.mp h
  obtain ⟨hmem, hcovers⟩ := List.mem_filter.mp (horder _ o (List.mem_of_mem_head? ho))
  exact ⟨o, hmem, hcovers, rfl⟩

/-- Overlays that have none of the lines of a chunk are in front of it or behind it. -/
theorem apart_of_not_contains {o : Overlay} {c : Chunk} (hne : o.beg < o.fin)
    (hlines : 1 ≤ c.numLines) (h : ∀ line, o.covers line = true → ¬c.Contains line) :
    o.fin ≤ c.finalLine ∨ c.finalLine + c.numLines ≤ o.beg := by
  by_contra hmeet
  rw [not_or, Nat.not_le, Nat.not_le] at hmeet
  rcases Nat.le_total o.beg c.finalLine with hle | hle
  · exact h c.finalLine (covers_iff.mpr ⟨hle, hmeet.1⟩) ⟨le_rfl, by omega⟩
  · exact h o.beg (covers_iff.mpr ⟨le_rfl, hne⟩) ⟨hle, hmeet.2⟩

/-- **A chunk that arrives keeps what is shown of the others, and is shown itself.** -/
theorem covered_makeOverlays {order : List Overlay → List Overlay}
    (horder : ∀ l o, o ∈ order l → o ∈ l) {overlays : List Overlay} {arrived : List Chunk}
    {c : Chunk} (h : Covered overlays arrived) (hfirst : 1 ≤ c.finalLine) (hlines : 1 ≤ c.numLines)
    (hdisjoint : ∀ line, c.Contains line → ¬Arrived arrived line)
    (hharmless : ∀ b, magitBlameChunkAt order overlays (c.finalLine - 1) = some b →
      b.origRev = c.origRev → Arrived arrived (c.finalLine - 1) ∧ b.origLine = c.origLine) :
    Covered (magitBlameMakeOverlays order overlays c) (arrived ++ [c]) := by
  have hown : c ∈ arrived ++ [c] := List.mem_append_right _ (List.mem_singleton_self c)
  have hnot : ∀ o : Overlay, o.Right arrived → ∀ line, o.covers line = true →
      ¬c.Contains line := by
    intro o ho line hcovers hcontains
    obtain ⟨c', hc', hline, -⟩ := ho.rev line hcovers
    exact hdisjoint line hcontains ⟨c', hc', hline⟩
  have hapart : ∀ o line, Alone overlays o line → o.Right arrived →
      o.fin ≤ c.finalLine ∨ c.finalLine + c.numLines ≤ o.beg := by
    intro o line halone hright
    obtain ⟨hle, hlt⟩ := covers_iff.mp halone.covers
    exact apart_of_not_contains (by omega) hlines (hnot o hright)
  by_cases hmerge : ∃ b, magitBlameChunkAt order overlays (c.finalLine - 1) = some b ∧
      b.origRev = c.origRev
  · obtain ⟨b, hb, hrev⟩ := hmerge
    obtain ⟨hbefore, hline⟩ := hharmless b hb hrev
    obtain ⟨x, hx, hcovers, rfl⟩ := mem_of_chunkAt horder hb
    obtain ⟨o, halone, hright⟩ := h _ hbefore
    have hchunk := halone.chunk x hx hcovers
    rw [hchunk] at hb hrev hline
    obtain ⟨hbeg, hfin⟩ := covers_iff.mp halone.covers
    have hend : o.fin = c.finalLine := by
      rcases hapart o _ halone hright with hle | hle <;> omega
    have hmerged : mergeChunk (magitBlameChunkAt order overlays (c.finalLine - 1)) c
        = { c with finalLine := o.chunk.finalLine, numLines := c.numLines + o.chunk.numLines } := by
      rw [hb]
      exact if_pos hrev
    rw [magitBlameMakeOverlays, hmerged]
    refine covered_place h ?_ ⟨rfl, fun line hline => ?_, ?_⟩ (fun line hcontains => ?_)
      fun o' line halone' hright' => ?_
    · rw [← hright.beg]
      omega
    · obtain ⟨hle, hlt⟩ := covers_iff.mp hline
      simp only [← hright.beg] at hle hlt
      rcases Nat.lt_or_ge line c.finalLine with hfront | hbehind
      · obtain ⟨c', hc', hcontains, heq⟩ :=
          hright.rev line (covers_iff.mpr ⟨hle, hend ▸ hfront⟩)
        exact ⟨c', List.mem_append_left _ hc', hcontains, hrev.symm.trans heq⟩
      · exact ⟨c, hown, ⟨hbehind, hlt⟩, rfl⟩
    · obtain ⟨c', hc', hcontains, heq⟩ := hright.line
      simp only [← hright.beg]
      exact ⟨c', List.mem_append_left _ hc', hcontains, hline.symm.trans heq⟩
    · simp only [← hright.beg]
      obtain ⟨hle, hlt⟩ := hcontains
      omega
    · simp only [← hright.beg]
      by_cases hsame : o' = o
      · subst hsame
        obtain ⟨hle, hlt⟩ := covers_iff.mp halone'.covers
        right
        omega
      left
      have hdiff : ∀ k, o'.covers k = true → ¬o.covers k = true := by
        intro k hk' hk
        obtain ⟨c', hc', hcontains, -⟩ := hright'.rev k hk'
        obtain ⟨o₂, halone₂, -⟩ := h k ⟨c', hc', hcontains⟩
        exact hsame ((halone₂.eq halone' hk').trans (halone₂.eq halone hk).symm)
      obtain ⟨hle', hlt'⟩ := covers_iff.mp halone'.covers
      rcases hapart o' line halone' hright' with hfront | hbehind
      · by_contra hmeet
        exact hdiff (o'.fin - 1) (covers_iff.mpr (by omega)) (covers_iff.mpr (by omega))
      · exact .inr hbehind
  · have hself : mergeChunk (magitBlameChunkAt order overlays (c.finalLine - 1)) c = c :=
      mergeChunk_of_ne fun b hb hrev => hmerge ⟨b, hb, hrev⟩
    rw [magitBlameMakeOverlays, hself]
    refine covered_place h (Nat.lt_add_of_pos_right hlines)
      ⟨rfl, fun line hcovers => ?_, c, hown, ?_, ?_⟩ (fun line hcontains => hcontains)
      fun o line halone hright => .inl (hapart o line halone hright)
    · exact ⟨c, hown, covers_iff.mp hcovers, rfl⟩
    · exact ⟨le_rfl, Nat.lt_add_of_pos_right hlines⟩
    · simp

/-! ## A run -/

/-- Any number of chunks that do not overlap keep the overlays `Covered`. -/
theorem covered_foldl {order : List Overlay → List Overlay} (horder : ∀ l o, o ∈ order l → o ∈ l)
    {overlays : List Overlay} {arrived cs : List Chunk} (h : Covered overlays arrived)
    (hnonempty : ∀ c ∈ cs, 1 ≤ c.finalLine ∧ 1 ≤ c.numLines)
    (hdisjoint : (arrived ++ cs).Pairwise Chunk.Apart)
    (hharmless : Harmless order overlays arrived cs) :
    Covered (cs.foldl (magitBlameMakeOverlays order) overlays) (arrived ++ cs) := by
  induction cs generalizing overlays arrived with
  | nil => rwa [List.append_nil]
  | cons c cs ih =>
    obtain ⟨hc, hcs⟩ := List.forall_mem_cons.mp hnonempty
    have hnew : ∀ line, c.Contains line → ¬Arrived arrived line := by
      rintro line hline ⟨c', hc', hline'⟩
      exact (List.pairwise_append.mp hdisjoint).2.2 c' hc' c List.mem_cons_self line hline' hline
    have hstep := covered_makeOverlays horder h hc.1 hc.2 hnew hharmless.1
    have happend : arrived ++ c :: cs = (arrived ++ [c]) ++ cs := by
      rw [List.append_assoc, List.singleton_append]
    rw [happend] at hdisjoint ⊢
    exact ih hstep hcs hdisjoint hharmless.2

/-- Two chunks of a blame that contain the same line are the same. -/
theorem Blames.eq_of_contains {lines : ℕ} {blame : List Chunk} (h : Blames lines blame)
    {c c' : Chunk} (hc : c ∈ blame) (hc' : c' ∈ blame) {line : ℕ} (hline : c.Contains line)
    (hline' : c'.Contains line) : c = c' := by
  by_contra hne
  exact h.disjoint.forall hc hc' hne line hline hline'

/-- **As long as merging does no harm, each line whose chunk has arrived is shown, and in the end
every line is, whatever overlays there were before.** -/
theorem shows_of_harmless {order : List Overlay → List Overlay}
    (horder : ∀ l o, o ∈ order l → o ∈ l) {lines : ℕ} {blame : List Chunk} (h : Blames lines blame)
    {arrived rest : List Chunk} (hperm : (arrived ++ rest).Perm blame) (overlays : List Overlay)
    (hharmless : Harmless order overlays [] arrived) :
    (∀ line, Arrived arrived line →
      Shows (arrived.foldl (magitBlameMakeOverlays order) overlays) blame line) ∧
    (rest = [] → ∀ line, 1 ≤ line → line ≤ lines →
      Shows (arrived.foldl (magitBlameMakeOverlays order) overlays) blame line) := by
  have hmem : ∀ c ∈ arrived, c ∈ blame :=
    fun c hc => hperm.subset (List.mem_append_left rest hc)
  have hall : (arrived ++ rest).Pairwise Chunk.Apart :=
    (hperm.pairwise_iff fun hapart => Std.Symm.symm _ _ hapart).mpr h.disjoint
  have hdisjoint := (List.pairwise_append.mp hall).1
  have hnone : Covered overlays [] := by
    rintro line ⟨c, hc, -⟩
    cases hc
  have hcovered := covered_foldl horder hnone
    (fun c hc => ⟨(h.nonempty c (hmem c hc)).1, (h.nonempty c (hmem c hc)).2.1⟩)
    hdisjoint hharmless
  have hshows : ∀ line, Arrived arrived line →
      Shows (arrived.foldl (magitBlameMakeOverlays order) overlays) blame line := by
    intro line hline
    obtain ⟨o, halone, hright⟩ := hcovered line hline
    refine ⟨o, halone.only, fun c hc hcontains => ?_, fun c hc hcontains => ?_⟩
    · obtain ⟨c', hc', hcontains', hrev⟩ := hright.rev line halone.covers
      rw [hrev, h.eq_of_contains hc (hmem c' hc') hcontains hcontains']
    · obtain ⟨c', hc', hcontains', hline'⟩ := hright.line
      rw [hline', h.eq_of_contains hc (hmem c' hc') hcontains hcontains']
  refine ⟨hshows, fun hrest line hfirst hlast => hshows line ?_⟩
  obtain ⟨c, hc, hcontains⟩ := h.covers line hfirst hlast
  rw [hrest, List.append_nil] at hperm
  exact ⟨c, hperm.symm.subset hc, hcontains⟩

/-! Four lines in two chunks. -/

namespace TwoChunks

/-- A chunk without the files it comes from. -/
def chunk (rev : Text) (origLine finalLine numLines : ℕ) : Chunk :=
  ⟨rev, origLine, finalLine, numLines, none, none, none⟩

/-- The first two lines of one commit, and two lines of one or another. -/
def blame (rev : Text) : List Chunk := [chunk ['X'] 1 1 2, chunk rev 10 3 2]

theorem blames (rev : Text) : Blames 4 (blame rev) := by
  refine ⟨?_, ?_, fun line hfirst hlast => ?_⟩
  · simp [blame, chunk]
  · simp only [blame, List.pairwise_cons, List.mem_singleton, forall_eq, List.not_mem_nil,
      false_implies, implies_true, List.Pairwise.nil, and_true, Chunk.Apart, Chunk.Contains, chunk]
    omega
  · rcases Nat.lt_or_ge line 3 with hlt | hge
    · exact ⟨_, List.mem_cons_self, hfirst, hlt⟩
    · exact ⟨_, List.mem_cons_of_mem _ (List.mem_singleton_self _), hge, Nat.lt_succ_of_le hlast⟩

/-- The chunks are of two commits. -/
theorem shows_apart :
    (∀ line, Arrived (blame ['Y']) line →
      Shows ((blame ['Y']).foldl (magitBlameMakeOverlays id) []) (blame ['Y']) line) ∧
    (([] : List Chunk) = [] → ∀ line, 1 ≤ line → line ≤ 4 →
      Shows ((blame ['Y']).foldl (magitBlameMakeOverlays id) []) (blame ['Y']) line) := by
  have horder : ∀ (l : List Overlay) (o : Overlay), o ∈ id l → o ∈ l := fun _ _ h => h
  refine shows_of_harmless horder (blames ['Y']) ?_ [] ?_
  · rw [List.append_nil]
  · refine ⟨fun b hb => ?_, fun b hb hrev => ?_, trivial⟩
    · cases hb
    · obtain rfl : chunk ['X'] 1 1 2 = b := Option.some.inj hb
      exact absurd hrev (by decide)

/-- The chunks are of one commit: the heading names the original line of the third line. -/
theorem not_shows_merged :
    ¬Shows ((blame ['X']).foldl (magitBlameMakeOverlays id) []) (blame ['X']) 1 := by
  rintro ⟨o, ho, -, hline⟩
  have honly : ((blame ['X']).foldl (magitBlameMakeOverlays id) []).filter
      (fun o => o.heading && o.covers 1) = [⟨true, 1, 5, ⟨['X'], 10, 1, 4, none, none, none⟩⟩] := rfl
  obtain rfl := (List.singleton_inj.mp (honly.symm.trans ho))
  have horig := hline (chunk ['X'] 1 1 2) List.mem_cons_self ⟨le_rfl, by decide⟩
  exact absurd horig (by decide)

/-- The end of the file has been blamed before; then the second chunk arrives before the first one. -/
example : ([chunk ['X'] 3 3 1, chunk ['X'] 10 4 2, chunk ['X'] 10 4 2, chunk ['X'] 1 1 3].foldl
    (magitBlameMakeOverlays id) []).filter (fun o => o.heading && o.covers 4) = [] := rfl

end TwoChunks

end Magit.Blame
