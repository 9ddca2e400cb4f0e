import Magit.Diff.Wash

/-!
# Diff/CachedWash — the changes that the server has sent

The unstaged and the staged changes are washed from what `git diff` prints, or from the diff of the
server's response.  Where the former leaves nothing it cancels the section, and it looks for a
headline first; the latter does neither.  Both leave the same exactly if the washing of the first
lines leaves something (`washedAlike_iff`); an empty diff is not of that kind.
-/

namespace Magit.DiffWash

open Emacs

variable (env : WashEnv)

/-! ## Both ways -/

/-- The complete lines of a text, once a missing newline is added. -/
def washLines (text : Text) : List Text :=
  let lines := text.splitOn '\n'
  if lines.getLast? = some [] then lines.dropLast else lines

/-- `magit-diff-wash-diffs`, where the arguments ask for no signature and no diffstat; a search
that fails leaves point where it is. -/
def magitDiffWashDiffs (b : LineBuffer) : Option (List FileSection × LineBuffer) :=
  let found := LineBuffer.passUntil (headline env) b.before b.after
  if found.after = [] then some ([], b)
  else (washDiffs env found.after.length found).map fun r => (r.1, r.2.insert ['\n'])

/-- `magit--git-wash` of an output, with `magit-diff-wash-diffs`, where git succeeds; no files where
the section is cancelled. -/
def magitGitWash (before output : Text) : Option (Option (List FileSection) × LineBuffer) :=
  let beg := before.length + 1
  if output = [] then some (none, ⟨before, []⟩)
  else
    (magitDiffWashDiffs env ⟨before, washLines output⟩).map fun r =>
      if r.2.point = beg ∨ r.2.point = beg + 1 then (none, r.2) else (some r.1, r.2)

/-- `magit--git-wash-diff-lines`, and `magit--git-wash-staged`, which is the same. -/
def magitGitWashDiffLines (before insertString : Text) :
    Option (Option (List FileSection) × LineBuffer) :=
  let lines := washLines insertString
  (washDiffs env lines.length ⟨before, lines⟩).map fun r => (some r.1, r.2.insert ['\n'])

/-- The section of the changes, without its type and what all sections have. -/
structure ChangesSection where
  start : ℕ
  content : ℕ
  fin : ℕ
  children : List FileSection

/-- `magit-insert-section` around a heading and a body; `magit-cancel-section` deletes what stands
between the start and point. -/
def insertChanges (heading before : Text)
    (body : Text → Option (Option (List FileSection) × LineBuffer)) :
    Option (Option ChangesSection × LineBuffer) :=
  let b := insertHeading ((LineBuffer.mk before []).insert heading)
  (body b.before).map fun
    | (none, b') => (none, ⟨before, b'.after⟩)
    | (some files, b') => (some ⟨before.length + 1, b.point, b'.point, files⟩, b')

/-- `(magit-insert-heading t heading)` before the newline. -/
def countedHeading (showChildCount : Bool) (heading : String) : Text :=
  heading.toList ++ if showChildCount then " (t)".toList else []

/-- The diff of `git-info-for-hooks`, or else what `git diff` prints. -/
def changesBody (diffStr : Option Text) (gitDiff before : Text) :
    Option (Option (List FileSection) × LineBuffer) :=
  match diffStr with
  | some diffStr => magitGitWashDiffLines env before diffStr
  | none => magitGitWash env before gitDiff

/-- `magit-insert-unstaged-changes`, with the diff of a response if there is one. -/
def magitInsertUnstagedChanges (showChildCount : Bool) (diffStr : Option Text)
    (gitDiff before : Text) : Option (Option ChangesSection × LineBuffer) :=
  insertChanges (countedHeading showChildCount "Unstaged changes") before
    (changesBody env diffStr gitDiff)

/-- Nothing is inserted in a bare repository. -/
def magitInsertStagedChanges (bare showChildCount : Bool) (diffStr : Option Text)
    (gitDiff before : Text) : Option (Option ChangesSection × LineBuffer) :=
  if bare then some (none, ⟨before, []⟩)
  else insertChanges (countedHeading showChildCount "Staged changes") before
    (changesBody env diffStr gitDiff)

/-! ## What the first lines leave -/

/-- A line about a submodule or an unmerged path, or one of `git merge-tree`. -/
def isOther (line : Text) : Bool :=
  (["Submodule", "* Unmerged path "] ++ conflictHeadlines).any fun piece =>
    lookingAt env.fold piece.toList line

/-- The text behind point begins with the diff of a file; or with lines of another kind that leave
something or signal, or that are taken out and followed by such. -/
inductive Begins : LineBuffer → Prop
  | file {before line : Text} {lines : List Text} (hline : isOther env line = false)
      (hdiff : (lookingAtDiff env line).isSome) : Begins ⟨before, line :: lines⟩
  | signals {before line : Text} {lines : List Text} (hline : isOther env line = true)
      (h : env.others ⟨before, line :: lines⟩ = none) : Begins ⟨before, line :: lines⟩
  | left {before line : Text} {lines : List Text} {files : Option (List FileSection)}
      {b : LineBuffer} (hline : isOther env line = true)
      (h : env.others ⟨before, line :: lines⟩ = some (files, b)) (hne : b.before ≠ before) :
    Begins ⟨before, line :: lines⟩
  | removed {before line : Text} {lines : List Text} {files : List FileSection} {b : LineBuffer}
      (hline : isOther env line = true)
      (h : env.others ⟨before, line :: lines⟩ = some (some files, b)) (heq : b.before = before)
      (hrest : Begins b) : Begins ⟨before, line :: lines⟩

/-- What `magit-wash-sequence` asks of the branches for other lines: what stands in front of point
stays there, and a round that is not the last takes a line or more. -/
structure OthersForward : Prop where
  before : ∀ {b files b'}, env.others b = some (files, b') → b.before <+: b'.before
  after : ∀ {b files b'}, env.others b = some (some files, b') → b'.after.length < b.after.length

/-! ## Text in front of point stays there -/

/-- Moving forward keeps what is before point. -/
theorem passUntil_before (stop : Text → Bool) (before : Text) (lines : List Text) :
    before <+: (LineBuffer.passUntil stop before lines).before := by
  induction lines generalizing before with
  | nil => exact List.prefix_rfl
  | cons line lines ih =>
    rw [LineBuffer.passUntil]
    split
    · exact List.prefix_rfl
    · rw [List.append_assoc]
      exact (List.prefix_append _ _).trans (ih _)

theorem insert_before (b : LineBuffer) (text : Text) : b.before <+: (b.insert text).before :=
  List.prefix_append _ _

/-- Inserting a heading keeps what is before point. -/
theorem insertHeading_before (b : LineBuffer) : b.before <+: (insertHeading b).before := by
  rw [insertHeading]
  split
  · exact List.prefix_rfl
  · exact List.prefix_append _ _

/-- Washing a hunk keeps what is before it. -/
theorem washHunk_before {b b' : LineBuffer} {hunk : HunkSection}
    (h : washHunk b = some (hunk, b')) : b.before <+: b'.before := by
  rw [washHunk] at h
  split at h
  · exact absurd h (by simp)
  · next line lines _ =>
    obtain ⟨m, -, hm⟩ := Option.map_eq_some_iff.mp h
    rw [← (Prod.mk.inj hm).2]
    exact ((insert_before ⟨b.before, lines⟩ _).trans (insertHeading_before _)).trans
      (passUntil_before _ _ _)

/-- Washing hunks keeps what is before them. -/
theorem washHunks_before (fuel : ℕ) (b : LineBuffer) :
    b.before <+: (washHunks fuel b).2.before := by
  induction fuel generalizing b with
  | zero => exact List.prefix_rfl
  | succ fuel ih =>
    rw [washHunks]
    split
    · exact List.prefix_rfl
    · next hunk b' h => exact (washHunk_before h).trans (ih b')

/-- Inserting a special section keeps what is before point. -/
theorem insertSpecial_before (value : HunkValue) (text : Option Text) (b : LineBuffer) :
    b.before <+: (insertSpecial value text b).2.before := by
  cases text with
  | none => exact List.prefix_rfl
  | some text => exact (insert_before b text).trans (insertHeading_before _)

/-- A file leaves a heading in front of point. -/
theorem insertFileSection_before (file : Text) (orig : Option Text) (status : Text)
    (modes rename : Option Text) (header : Text) (binary : Bool) (b : LineBuffer) :
    b.before <+: (insertFileSection file orig status modes rename header binary b).2.before
      ∧ b.before.length
        < (insertFileSection file orig status modes rename header binary b).2.before.length := by
  have hnames (names : Text) (fuel : ℕ) (special : LineBuffer → LineBuffer)
      (hspecial : ∀ b, b.before <+: (special b).before) :
      let inserted := b.insert (fileHeading status names)
      let b' := if binary then inserted.insert " (binary)".toList else inserted
      b.before <+: (washHunks fuel (special (insertHeading b'))).2.before
        ∧ b.before.length < (washHunks fuel (special (insertHeading b'))).2.before.length := by
    intro inserted b'
    have hheading : b.before.length < inserted.before.length := by
      simp only [inserted, LineBuffer.insert, fileHeading, List.length_append, List.length_cons]
      omega
    have hbinary : inserted.before <+: b'.before := by
      simp only [b']
      split
      · exact insert_before _ _
      · exact List.prefix_rfl
    have hrest := hbinary.trans ((insertHeading_before b').trans ((hspecial _).trans
      (washHunks_before fuel _)))
    exact ⟨(insert_before b _).trans hrest, hheading.trans_le hrest.length_le⟩
  exact hnames _ _ (fun b => (insertSpecial .rename rename (insertSpecial .chmod modes b).2).2)
    fun b => (insertSpecial_before .chmod modes b).trans (insertSpecial_before .rename rename _)

section

variable {env}

/-- The end of a file inserts its section. -/
theorem finishFile_inserts {st : HeaderState} {b : LineBuffer} {r : FileSection × LineBuffer}
    (h : finishFile env st b = some r) :
    ∃ file orig status modes rename header binary,
      insertFileSection file orig status modes rename header binary b = r := by
  have hsome {o : Option Text} {f : Text → Option (FileSection × LineBuffer)}
      (h : o.bind f = some r) : ∃ text, f text = some r := by
    obtain ⟨text, -, h⟩ := Option.bind_eq_some_iff.mp h
    exact ⟨text, h⟩
  obtain ⟨status, orig, name, header, modes, rename, binary⟩ := st
  rcases orig with _ | orig
  · obtain ⟨file, h⟩ := hsome h
    split_ifs at h
    · obtain ⟨file, h⟩ := hsome h
      exact ⟨_, _, _, _, _, _, _, Option.some.inj h⟩
    · exact ⟨_, _, _, _, _, _, _, Option.some.inj h⟩
  · obtain ⟨orig, -, h⟩ := Option.bind_eq_some_iff.mp h
    obtain ⟨file, h⟩ := hsome h
    split_ifs at h
    · rcases orig with _ | orig
      · obtain ⟨file, h⟩ := hsome h
        exact ⟨_, _, _, _, _, _, _, Option.some.inj h⟩
      · obtain ⟨orig, -, h⟩ := Option.bind_eq_some_iff.mp h
        obtain ⟨file, h⟩ := hsome h
        exact ⟨_, _, _, _, _, _, _, Option.some.inj h⟩
    · exact ⟨_, _, _, _, _, _, _, Option.some.inj h⟩

/-- The end of a file keeps what is before point and inserts something. -/
theorem finishFile_before {st : HeaderState} {b b' : LineBuffer} {file' : FileSection}
    (h : finishFile env st b = some (file', b')) :
    b.before <+: b'.before ∧ b.before.length < b'.before.length := by
  obtain ⟨file, orig, status, modes, rename, header, binary, hinsert⟩ := finishFile_inserts h
  have hbefore := insertFileSection_before file orig status modes rename header binary b
  rw [hinsert] at hbefore
  exact hbefore

theorem magitDiffWashDiff_other {before line : Text} {lines : List Text}
    (hline : isOther env line = true) :
    magitDiffWashDiff env ⟨before, line :: lines⟩ = env.others ⟨before, line :: lines⟩ :=
  if_pos hline

/-- A line that begins no diff ends the washing. -/
theorem magitDiffWashDiff_none {before line : Text} {lines : List Text}
    (hline : isOther env line = false) (hdiff : lookingAtDiff env line = none) :
    magitDiffWashDiff env ⟨before, line :: lines⟩ = some (none, ⟨before, line :: lines⟩) := by
  rw [isOther, ← Bool.not_eq_true] at hline
  rw [magitDiffWashDiff]
  dsimp only
  rw [if_neg hline, hdiff]

/-- **The diff of a file leaves its section in front of point**, if it does not signal. -/
theorem magitDiffWashDiff_file {before line : Text} {lines : List Text}
    (hline : isOther env line = false) (hdiff : (lookingAtDiff env line).isSome)
    {files : Option (List FileSection)} {b : LineBuffer}
    (h : magitDiffWashDiff env ⟨before, line :: lines⟩ = some (files, b)) :
    before <+: b.before ∧ before.length < b.before.length ∧ files.isSome := by
  rw [isOther, ← Bool.not_eq_true] at hline
  obtain ⟨⟨status, file⟩, hmatch⟩ := Option.isSome_iff_exists.mp hdiff
  rw [magitDiffWashDiff] at h
  dsimp only at h
  rw [if_neg hline, hmatch] at h
  obtain ⟨⟨st, lines⟩, -, h⟩ := Option.bind_eq_some_iff.mp h
  obtain ⟨⟨file, b'⟩, hfinish, h⟩ := Option.bind_eq_some_iff.mp h
  obtain ⟨rfl, rfl⟩ := Prod.mk.inj (Option.some.inj h)
  obtain ⟨hpre, hlength⟩ := finishFile_before hfinish
  exact ⟨hpre, hlength, rfl⟩

/-- Washing a diff keeps what is before it. -/
theorem magitDiffWashDiff_before (hothers : OthersForward env) {b b' : LineBuffer}
    {files : Option (List FileSection)} (h : magitDiffWashDiff env b = some (files, b')) :
    b.before <+: b'.before := by
  obtain ⟨before, _ | ⟨line, lines⟩⟩ := b
  · rw [← (Prod.mk.inj (Option.some.inj h)).2]
  · by_cases hline : isOther env line = true
    · rw [magitDiffWashDiff_other hline] at h
      exact hothers.before h
    · have hother := Bool.eq_false_iff.mpr hline
      by_cases hdiff : (lookingAtDiff env line).isSome
      · exact (magitDiffWashDiff_file hother hdiff h).1
      · rw [magitDiffWashDiff_none hother (Option.not_isSome_iff_eq_none.mp hdiff)] at h
        rw [← (Prod.mk.inj (Option.some.inj h)).2]

/-- Washing any number of diffs keeps what is before them. -/
theorem washDiffs_before (hothers : OthersForward env) {fuel : ℕ} {b b' : LineBuffer}
    {files : List FileSection} (h : washDiffs env fuel b = some (files, b')) :
    b.before <+: b'.before := by
  induction fuel generalizing b files with
  | zero => rw [← (Prod.mk.inj (Option.some.inj h)).2]
  | succ fuel ih =>
    rw [washDiffs] at h
    split at h
    · rw [← (Prod.mk.inj (Option.some.inj h)).2]
    · obtain ⟨⟨first, next⟩, hfirst, h⟩ := Option.bind_eq_some_iff.mp h
      have hnext := magitDiffWashDiff_before hothers hfirst
      cases first with
      | none =>
        rw [← (Prod.mk.inj (Option.some.inj h)).2]
        exact hnext
      | some first =>
        obtain ⟨⟨rest, last⟩, hrest, h⟩ := Option.bind_eq_some_iff.mp h
        obtain rfl : last = b' := (Prod.mk.inj (Option.some.inj h)).2
        exact hnext.trans (ih hrest)

/-- One round decides, or leaves it to the rounds behind it. -/
theorem begins_cons {before line : Text} {lines : List Text} :
    Begins env ⟨before, line :: lines⟩
      ↔ ∀ files b, magitDiffWashDiff env ⟨before, line :: lines⟩ = some (files, b) →
        b.before ≠ before ∨ files.isSome ∧ Begins env b := by
  by_cases hline : isOther env line = true
  · rw [magitDiffWashDiff_other hline]
    constructor
    · intro h files b hstep
      cases h with
      | file hother => exact absurd hline (Bool.eq_false_iff.mp hother)
      | signals _ hnone => exact absurd (hnone.symm.trans hstep) (by simp)
      | left _ hleft hne =>
        obtain ⟨rfl, rfl⟩ := Prod.mk.inj (Option.some.inj (hleft.symm.trans hstep))
        exact .inl hne
      | removed _ hremoved _ hrest =>
        obtain ⟨rfl, rfl⟩ := Prod.mk.inj (Option.some.inj (hremoved.symm.trans hstep))
        exact .inr ⟨rfl, hrest⟩
    · intro h
      rcases hstep : env.others ⟨before, line :: lines⟩ with _ | ⟨files, b⟩
      · exact .signals hline hstep
      · by_cases heq : b.before = before
        · obtain ⟨hfiles, hrest⟩ := (h files b hstep).resolve_left (not_not_intro heq)
          obtain ⟨files, rfl⟩ := Option.isSome_iff_exists.mp hfiles
          exact .removed hline hstep heq hrest
        · exact .left hline hstep heq
  · have hother := Bool.eq_false_iff.mpr hline
    by_cases hdiff : (lookingAtDiff env line).isSome
    · refine iff_of_true (.file hother hdiff) fun files b hstep => .inl fun heq => ?_
      exact (magitDiffWashDiff_file hother hdiff hstep).2.1.ne (congrArg List.length heq.symm)
    · rw [magitDiffWashDiff_none hother (Option.not_isSome_iff_eq_none.mp hdiff)]
      refine iff_of_false (fun h => ?_) fun h => ?_
      · cases h <;> contradiction
      · exact (h none _ rfl).elim (fun hne => hne rfl) fun hsome => Bool.false_ne_true hsome.1

/-- **Washing leaves something in front of point, or signals, exactly if the text begins so.** -/
theorem begins_iff (hothers : OthersForward env) {fuel : ℕ} {b : LineBuffer}
    (hfuel : b.after.length ≤ fuel) :
    Begins env b ↔ ∀ files b', washDiffs env fuel b = some (files, b') → b'.before ≠ b.before := by
  induction fuel generalizing b with
  | zero =>
    have hafter : b.after = [] := List.length_eq_zero_iff.mp (Nat.le_zero.mp hfuel)
    refine iff_of_false (fun h => ?_) fun h => h [] b rfl rfl
    cases h <;> exact List.cons_ne_nil _ _ hafter
  | succ fuel ih =>
    obtain ⟨before, _ | ⟨line, lines⟩⟩ := b
    · exact iff_of_false (by rintro ⟨⟩) fun h => h [] ⟨before, []⟩ rfl rfl
    have hround : washDiffs env (fuel + 1) ⟨before, line :: lines⟩
        = (magitDiffWashDiff env ⟨before, line :: lines⟩).bind fun r =>
          r.1.elim (some ([], r.2)) fun files =>
            (washDiffs env fuel r.2).map fun r' => (files ++ r'.1, r'.2) := by
      rw [washDiffs, if_neg (List.cons_ne_nil _ _)]
      refine congrArg (Option.bind _) (funext fun r => ?_)
      obtain ⟨files, b⟩ := r
      cases files
      · rfl
      · exact Option.map_eq_bind.symm
    rw [begins_cons, hround]
    rcases hstep : magitDiffWashDiff env ⟨before, line :: lines⟩ with _ | ⟨_ | first, next⟩
    · exact iff_of_true (by rintro _ _ ⟨⟩) (by rintro _ _ ⟨⟩)
    · -- it was the last round
      rw [Option.bind_some]
      constructor
      · intro h files b heq
        obtain ⟨-, rfl⟩ := Prod.mk.inj (Option.some.inj heq)
        exact (h none next rfl).resolve_right fun hsome => Bool.false_ne_true hsome.1
      · intro h files b heq
        obtain ⟨-, rfl⟩ := Prod.mk.inj (Option.some.inj heq)
        exact .inl (h [] next rfl)
    · have hpre := magitDiffWashDiff_before hothers hstep
      rw [Option.bind_some]
      by_cases hkept : next.before = before
      · -- something was taken out without a trace
        have hline : isOther env line = true := by
          by_contra hline
          have hother := Bool.eq_false_iff.mpr hline
          by_cases hdiff : (lookingAtDiff env line).isSome
          · exact (magitDiffWashDiff_file hother hdiff hstep).2.1.ne
              (congrArg List.length hkept.symm)
          · rw [magitDiffWashDiff_none hother (Option.not_isSome_iff_eq_none.mp hdiff)] at hstep
            cases hstep
        rw [magitDiffWashDiff_other hline] at hstep
        have hrest := ih (Nat.le_of_lt_succ ((hothers.after hstep).trans_le hfuel))
        rw [hkept] at hrest
        constructor
        · intro h files b heq
          obtain ⟨⟨rest, last⟩, hwash, heq⟩ := Option.map_eq_some_iff.mp heq
          obtain ⟨-, rfl⟩ := Prod.mk.inj heq
          have hbegins := ((h (some first) next rfl).resolve_left (not_not_intro hkept)).2
          exact hrest.mp hbegins rest last hwash
        · intro h files b heq
          obtain ⟨rfl, rfl⟩ := Prod.mk.inj (Option.some.inj heq)
          refine .inr ⟨rfl, hrest.mpr fun rest last hwash => h (first ++ rest) last ?_⟩
          exact Option.map_eq_some_iff.mpr ⟨(rest, last), hwash, rfl⟩
      · -- something is left in front of point
        refine iff_of_true (fun files b heq => ?_) fun files b heq hsame => ?_
        · obtain ⟨-, rfl⟩ := Prod.mk.inj (Option.some.inj heq)
          exact .inl hkept
        · obtain ⟨⟨rest, last⟩, hwash, heq⟩ := Option.map_eq_some_iff.mp heq
          obtain ⟨-, rfl⟩ := Prod.mk.inj heq
          have hlonger := washDiffs_before hothers hwash
          rw [hsame] at hlonger
          exact hkept (hlonger.eq_of_length_le hpre.length_le)

/-! ## Where a headline is -/

/-- What is looked at begins with every front of it. -/
theorem lookingAt_of_append {fold : Char → Char} {piece more text : Text}
    (h : lookingAt fold (piece ++ more) text = true) : lookingAt fold piece text = true := by
  rw [lookingAt, beq_iff_eq] at h ⊢
  have htake := congrArg (List.take piece.length) h
  rw [← List.map_take, ← List.map_take, List.take_take, List.take_left, List.length_append,
    min_eq_left (Nat.le_add_right _ _)] at htake
  exact htake

/-- What is washed begins with a headline. -/
theorem headline_of_kind {line : Text}
    (h : isOther env line = true ∨ (lookingAtDiff env line).isSome) : headline env line = true := by
  have hpiece (piece : String) (more : Text) (hmem : piece ∈ ["@@", "diff", "Submodule",
      "* Unmerged path"] ++ conflictHeadlines)
      (hlook : lookingAt env.fold (piece.toList ++ more) line = true) :
      headline env line = true :=
    List.any_eq_true.mpr ⟨piece, hmem, lookingAt_of_append hlook⟩
  rcases h with h | h
  · obtain ⟨piece, hmem, hlook⟩ := List.any_eq_true.mp h
    rcases List.mem_append.mp hmem with hmem | hmem
    · rcases List.mem_pair.mp hmem with rfl | rfl
      · exact hpiece "Submodule" [] (by simp) hlook
      · exact hpiece "* Unmerged path" [' '] (by simp) hlook
    · refine hpiece piece [] (List.mem_append_right _ hmem) ?_
      rw [List.append_nil]
      exact hlook
  · rw [lookingAtDiff] at h
    split at h
    · next hgit => exact hpiece "diff" " --git ".toList (by simp) hgit
    · rw [Option.isSome_or, Bool.or_eq_true, Option.isSome_map, Option.isSome_map] at h
      have hwith (piece : String) (hsome : (lineWith env piece line).isSome = true) :
          lookingAt env.fold piece.toList line = true := by
        by_contra hlook
        rw [lineWith, Bool.eq_false_iff.mpr hlook, Bool.false_and] at hsome
        exact Bool.false_ne_true hsome
      rcases h with h | h
      · exact hpiece "diff" " --cc ".toList (by simp) (hwith "diff --cc " h)
      · exact hpiece "diff" " --combined ".toList (by simp) (hwith "diff --combined " h)

/-- The line with which a diff begins is a headline. -/
theorem Begins.headline {before line : Text} {lines : List Text}
    (h : Begins env ⟨before, line :: lines⟩) : headline env line = true := by
  cases h with
  | file _ hdiff => exact headline_of_kind (.inr hdiff)
  | signals hline _ => exact headline_of_kind (.inl hline)
  | left hline _ _ => exact headline_of_kind (.inl hline)
  | removed hline _ _ _ => exact headline_of_kind (.inl hline)

/-! ## When both ways leave the same -/

theorem washLines_eq_nil {text : Text} (h : washLines text = []) : text = [] := by
  have hlines : text.splitOn '\n' ≠ [] := List.splitOn_ne_nil _ _
  rw [washLines] at h
  split_ifs at h with hlast
  · obtain ⟨lines, hsplit⟩ := List.getLast?_eq_some_iff.mp hlast
    rw [hsplit, List.dropLast_concat] at h
    have htext := @List.intercalate_splitOn _ text _ _ '\n'
    rw [hsplit, h] at htext
    exact htext.symm
  · exact absurd h hlines

/-- What washing leaves in front of point decides about the section. -/
theorem bodies_iff (hothers : OthersForward env) (before text : Text) :
    magitGitWashDiffLines env before text = magitGitWash env before text
      ↔ Begins env ⟨before, washLines text⟩ := by
  rcases hlines : washLines text with _ | ⟨line, lines⟩
  · -- nothing
    obtain rfl := washLines_eq_nil hlines
    refine iff_of_false (fun h => ?_) (by rintro ⟨⟩)
    rw [magitGitWashDiffLines, hlines, magitGitWash, if_pos rfl] at h
    cases h
  have htext : text ≠ [] := by
    rintro rfl
    exact List.cons_ne_nil _ _ hlines.symm
  rw [magitGitWashDiffLines, magitGitWash, if_neg htext, hlines, magitDiffWashDiffs]
  by_cases hhead : headline env line = true
  · -- both wash the same lines
    have hfound : LineBuffer.passUntil (headline env) before (line :: lines)
        = ⟨before, line :: lines⟩ :=
      LineBuffer.passUntil_of_stop (by rintro _ ⟨⟩; exact hhead) before
    have hfuel : (LineBuffer.mk before (line :: lines)).after.length ≤ (line :: lines).length :=
      le_rfl
    rw [begins_iff hothers hfuel, hfound,
      if_neg (List.cons_ne_nil _ _)]
    rcases hwash : washDiffs env (line :: lines).length ⟨before, line :: lines⟩
      with _ | ⟨files, b⟩
    · exact iff_of_true rfl (by rintro _ _ ⟨⟩)
    · have hpre : before <+: b.before := washDiffs_before hothers hwash
      have hpoint : ((b.insert ['\n']).point = before.length + 1
          ∨ (b.insert ['\n']).point = before.length + 1 + 1) ↔ b.before = before := by
        have hle := hpre.length_le
        rw [LineBuffer.point, LineBuffer.insert, List.length_append, List.length_singleton]
        constructor
        · intro h
          exact (hpre.eq_of_length_le (by omega)).symm
        · intro h
          rw [h]
          exact .inr rfl
      simp only [Option.map_some, hpoint]
      constructor
      · intro heq files' b' hsame hkept
        obtain ⟨rfl, rfl⟩ := Prod.mk.inj (Option.some.inj hsame)
        rw [if_pos hkept] at heq
        cases heq
      · intro hleft
        rw [if_neg (hleft files b rfl)]
  · -- the direct way passes over lines, or cancels the section
    refine iff_of_false (fun heq => ?_) fun h => hhead h.headline
    have hother : isOther env line = false :=
      Bool.eq_false_iff.mpr fun h => hhead (headline_of_kind (.inl h))
    have hdiff : lookingAtDiff env line = none :=
      Option.not_isSome_iff_eq_none.mp fun h => hhead (headline_of_kind (.inr h))
    have hcached : washDiffs env (line :: lines).length ⟨before, line :: lines⟩
        = some ([], ⟨before, line :: lines⟩) := by
      rw [List.length_cons, washDiffs, if_neg (List.cons_ne_nil _ _),
        magitDiffWashDiff_none hother hdiff]
      rfl
    have hpassed : before ++ line ++ ['\n']
        <+: (LineBuffer.passUntil (headline env) before (line :: lines)).before := by
      rw [LineBuffer.passUntil, if_neg hhead]
      exact passUntil_before _ _ _
    rw [hcached] at heq
    split_ifs at heq with hnone
    · rw [Option.map_some, Option.map_some, if_pos (.inl rfl)] at heq
      cases heq
    · rcases hwash : washDiffs env _ (LineBuffer.passUntil (headline env) before (line :: lines))
        with _ | ⟨files, b⟩
      · rw [hwash] at heq
        cases heq
      · have hlength := (hpassed.trans (washDiffs_before hothers hwash)).length_le
        rw [List.length_append, List.length_append, List.length_singleton] at hlength
        rw [hwash, Option.map_some, Option.map_some, Option.map_some, Option.some.injEq] at heq
        dsimp only at heq
        split_ifs at heq
        · cases heq
        · have hbefore := congrArg (List.length ∘ LineBuffer.before) (Prod.mk.inj heq).2
          simp only [Function.comp_apply, LineBuffer.insert, List.length_append] at hbefore
          omega

/-- The cached way cancels no section. -/
theorem insertChanges_inj {heading before : Text}
    {body body' : Text → Option (Option (List FileSection) × LineBuffer)}
    (hkept : ∀ before b, body before ≠ some (none, b)) :
    insertChanges heading before body = insertChanges heading before body'
      ↔ body (insertHeading ((LineBuffer.mk before []).insert heading)).before
        = body' (insertHeading ((LineBuffer.mk before []).insert heading)).before := by
  refine ⟨fun h => ?_, fun h => by rw [insertChanges, insertChanges, h]⟩
  rw [insertChanges, insertChanges] at h
  generalize insertHeading ((LineBuffer.mk before []).insert heading) = b at h ⊢
  rcases hbody : body b.before with _ | ⟨_ | files, b'⟩
  · rw [hbody, Option.map_none] at h
    exact (Option.map_eq_none_iff.mp h.symm).symm
  · exact absurd hbody (hkept _ _)
  · rcases hbody' : body' b.before with _ | ⟨_ | files', b''⟩
    · rw [hbody, hbody'] at h
      exact nomatch h
    · rw [hbody, hbody'] at h
      exact nomatch h
    · rw [hbody, hbody', Option.map_some, Option.map_some, Option.some.injEq] at h
      obtain ⟨hsection, rfl⟩ := Prod.mk.inj h
      rw [(ChangesSection.mk.inj (Option.some.inj hsection)).2.2.2]

/-- With a text that is given there is always a list of files, be it empty. -/
theorem changesBody_ne_none (text gitDiff before : Text) (b : LineBuffer) :
    changesBody env (some text) gitDiff before ≠ some (none, b) := by
  intro h
  obtain ⟨r, -, hr⟩ := Option.map_eq_some_iff.mp h
  exact nomatch hr

end

/-- The buffer in which the text below a heading is washed. -/
def bodyBuffer (showChildCount : Bool) (heading : String) (before text : Text) : LineBuffer :=
  let b := (LineBuffer.mk before []).insert (countedHeading showChildCount heading)
  ⟨(insertHeading b).before, washLines text⟩

/-- Both ways leave the same buffer and the same section, or none, whatever git would print for
the cached one. -/
def UnstagedAlike (showChildCount : Bool) (before text : Text) : Prop :=
  ∀ gitDiff, magitInsertUnstagedChanges env showChildCount (some text) gitDiff before
    = magitInsertUnstagedChanges env showChildCount none text before

/-- The same for the section of staged changes. -/
def StagedAlike (bare showChildCount : Bool) (before text : Text) : Prop :=
  ∀ gitDiff, magitInsertStagedChanges env bare showChildCount (some text) gitDiff before
    = magitInsertStagedChanges env bare showChildCount none text before

/-- **Both ways leave the same exactly if the text begins with what leaves something.** -/
theorem washedAlike_iff (hothers : OthersForward env) (bare showChildCount : Bool)
    (before text : Text) :
    (UnstagedAlike env showChildCount before text
        ↔ Begins env (bodyBuffer showChildCount "Unstaged changes" before text))
      ∧ (StagedAlike env bare showChildCount before text
        ↔ bare = true ∨ Begins env (bodyBuffer showChildCount "Staged changes" before text)) := by
  have hone (heading : String) : (∀ gitDiff,
      insertChanges (countedHeading showChildCount heading) before
          (changesBody env (some text) gitDiff)
        = insertChanges (countedHeading showChildCount heading) before (changesBody env none text))
      ↔ Begins env (bodyBuffer showChildCount heading before text) := by
    simp only [insertChanges_inj (fun before b => changesBody_ne_none text _ before b)]
    exact (forall_const Text).trans (bodies_iff hothers _ text)
  refine ⟨hone "Unstaged changes", ?_⟩
  cases bare with
  | false => exact (hone "Staged changes").trans (by simp)
  | true => exact iff_of_true (fun _ => rfl) (.inl rfl)

/-- No lines of other kinds are read. -/
def filesEnv : WashEnv where
  fold := id
  readPath := some
  revisionMode := false
  logTraced := false
  others _ := none

/-- Both sections, for the text of a file without hunks. -/
theorem washedAlike_iff_filesEnv :
    (UnstagedAlike filesEnv true [] "diff --git f f\n".toList
        ↔ Begins filesEnv (bodyBuffer true "Unstaged changes" [] "diff --git f f\n".toList))
      ∧ (StagedAlike filesEnv false true [] "diff --git f f\n".toList
        ↔ false = true
          ∨ Begins filesEnv (bodyBuffer true "Staged changes" [] "diff --git f f\n".toList)) :=
  washedAlike_iff filesEnv ⟨(nomatch ·), (nomatch ·)⟩ false true [] _

/-- An empty diff leaves a section without files, where git's output leaves none. -/
theorem not_unstagedAlike_empty : ¬ UnstagedAlike filesEnv true [] [] := by
  intro h
  have hsections := congrArg (Option.map fun r => r.1.isSome) (h [])
  exact absurd hsections (by decide)

end Magit.DiffWash
