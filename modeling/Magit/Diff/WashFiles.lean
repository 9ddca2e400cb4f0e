import Magit.Diff.WashHeaders

/-!
# Diff/WashFiles — the diffs of files and their sections

A file's diff is its first line, its extended headers and its hunks.  Its section has a section for
the mode change, one for the rename, and one for each hunk (`FileDiff.parts`); their texts and the
slot `header` hold every line of the diff once, and make up its patch (`FileWashed`).
-/

namespace Magit.DiffWash

open Emacs

/-! ## Diffs of files -/

/-- The first line of a file's diff. -/
inductive DiffLine
  | git (orig file : Text)
  | cc (file : Text)
  | combined (file : Text)

namespace DiffLine

/-- The first line of a file's diff. -/
def line : DiffLine → Text
  | git orig file => pieceLine ("diff --git ", orig ++ ' ' :: file)
  | cc file => pieceLine ("diff --cc ", file)
  | combined file => pieceLine ("diff --combined ", file)

/-- The file names in it. -/
def names : DiffLine → List Text
  | git orig file => [orig, file]
  | cc file => [file]
  | combined file => [file]

/-- The name of the file, if it can be told from the first line. -/
def fileName (env : WashEnv) : DiffLine → Option Text
  | git orig file => doubled env (orig ++ ' ' :: file)
  | cc file => some file
  | combined file => some file

end DiffLine

/-- The diff of one file. -/
structure FileDiff where
  first : DiffLine
  headers : List Header
  hunks : List Hunk

namespace FileDiff

variable (d : FileDiff)

/-- The lines of the hunks. -/
def hunkLines : List Text := d.hunks.flatMap Hunk.lines

/-- All lines of a file's diff. -/
def lines : List Text := d.first.line :: (d.headers.flatMap Header.lines ++ d.hunkLines)

/-- The headers that are left at a place. -/
def headersAt (place : Header.Place) : List Header := d.headers.filter (·.place = place)

/-- The lines of the headers that go to a place. -/
def linesAt (place : Header.Place) : List Text := (d.headersAt place).flatMap Header.lines

/-- A file's diff as git prints it: its mode changes once, and so does its name. -/
structure WellFormed : Prop where
  first : ∀ name ∈ d.first.names, name ≠ [] ∧ '\n' ∉ name
  headers : ∀ h ∈ d.headers, h.WellFormed
  chmod : (d.headersAt .chmod).length ≤ 1
  rename : (d.headersAt .rename).length ≤ 1
  hunks : ∀ h ∈ d.hunks, h.WellFormed

/-- The name of the file: the last one that the headers give it, or else that of the first line. -/
def fileName (env : WashEnv) : Option Text :=
  (d.headers.filterMap Header.fileName).getLast?.or (d.first.fileName env)

/-- The name it had, if the headers give it one. -/
def origName : Option Text := (d.headers.filterMap Header.origName).getLast?

/-- A name that can be read, also behind the prefix that `git log -L` puts in front of it. -/
def Readable (env : WashEnv) (name : Text) : Prop :=
  ∃ path, magitDecodeGitPath env name = some path ∧ (env.logTraced = true → 2 ≤ path.length)

/-- The diff tells the name of the file. -/
structure Named (env : WashEnv) : Prop where
  file : ∃ name, d.fileName env = some name ∧ Readable env name
  orig : ∀ name, d.origName = some name → Readable env name

/-- What the slot `header` is to hold. -/
def headerLines : List Text := d.first.line :: d.linesAt .header

/-- What becomes a section of its own above the hunks. -/
def specialLines : List Text := d.linesAt .chmod ++ d.linesAt .rename

/-- The lines in the order of the patch. -/
def patchLines : List Text := d.headerLines ++ (d.specialLines ++ d.hunkLines)

/-- **The patch has each line of the diff once.** -/
theorem patchLines_perm : d.patchLines.Perm d.lines := by
  have hplaces : (d.headersAt .header ++ (d.headersAt .chmod ++ d.headersAt .rename)).Perm
      d.headers := by
    rw [headersAt, headersAt, headersAt]
    induction d.headers with
    | nil => exact List.Perm.refl []
    | cons h headers ih =>
      rcases hplace : h.place with _ | _ | _
      · simpa [hplace] using ih
      · simpa [hplace] using List.perm_middle.trans (ih.cons h)
      · rw [← List.append_assoc] at ih
        simpa [hplace] using List.perm_middle.trans (ih.cons h)
  have hlines := (hplaces.flatMap_right Header.lines).append_right d.hunkLines
  simpa [patchLines, headerLines, specialLines, linesAt, lines] using hlines

/-- **Without mode changes and renames it has them in their order.** -/
theorem patchLines_of_header (h : ∀ header ∈ d.headers, header.place = .header) :
    d.patchLines = d.lines := by
  have hheader : d.headersAt .header = d.headers :=
    List.filter_eq_self.mpr fun header hmem => decide_eq_true (h header hmem)
  have hspecial : ∀ place, place ≠ .header → d.headersAt place = [] := fun place hne =>
    List.filter_eq_nil_iff.mpr fun header hmem => by
      rw [h header hmem, decide_eq_true_eq]
      exact hne.symm
  rw [patchLines, headerLines, specialLines, linesAt, linesAt, linesAt, hheader,
    hspecial .chmod (by decide), hspecial .rename (by decide)]
  rfl

end FileDiff

/-! ## Sections one after the other -/

namespace Part

/-- Parts behind others are placed at the end of these. -/
theorem placeAll_append (pos : ℕ) (parts parts' : List Part) :
    placeAll pos (parts ++ parts')
      = placeAll pos parts ++ placeAll (pos + (parts.flatMap text).length) parts' := by
  induction parts generalizing pos with
  | nil => rfl
  | cons p parts ih =>
    rw [List.cons_append, placeAll, ih, placeAll, List.flatMap_cons, List.length_append,
      List.cons_append, Nat.add_assoc]

/-- **Each section holds its own text.** -/
theorem map_hunkContent_placeAll (parts : List Part) (before more : Text) :
    (placeAll (before.length + 1) parts).map
        (hunkContent (before ++ parts.flatMap text ++ more)) = parts.map text := by
  induction parts generalizing before with
  | nil => rfl
  | cons p parts ih =>
    have hpos : before.length + 1 + p.text.length = (before ++ p.text).length + 1 :=
      (LineBuffer.length_append_succ before p.text).symm
    have hcons : before ++ (p :: parts).flatMap text ++ more
        = before ++ p.text ++ (parts.flatMap text ++ more) := by
      rw [List.flatMap_cons, List.append_assoc, List.append_assoc, List.append_assoc]
    have hown : hunkContent (before ++ p.text ++ (parts.flatMap text ++ more))
        (p.place (before.length + 1)) = p.text := by
      rw [hunkContent, place, hpos, region_point]
    have hothers := ih (before ++ p.text)
    rw [List.append_assoc] at hothers
    rw [placeAll, hcons, List.map_cons, List.map_cons, hown, hpos, hothers]

end Part

/-- The section for a mode change or a rename. -/
def specialPart (value : HunkValue) (text : Text) : Part where
  heading := text
  body := []
  value := value
  combined := false
  fromRange := []
  toRange := none
  about := none

/-- A special section is inserted with its text, if there is one. -/
theorem insertSpecial_eq (value : HunkValue) {text : Option Text}
    (h : ∀ t, text = some t → ∃ line, t = line ++ ['\n']) (before : Text) (after : List Text) :
    insertSpecial value text ⟨before, after⟩
      = (Part.placeAll (before.length + 1) (text.toList.map (specialPart value)),
          ⟨before ++ (text.toList.map (specialPart value)).flatMap Part.text, after⟩) := by
  rcases text with _ | text
  · rw [insertSpecial, Option.toList_none, List.map_nil, List.flatMap_nil, List.append_nil]
    rfl
  · obtain ⟨line, rfl⟩ := h text rfl
    have hpart : (specialPart value (line ++ ['\n'])).text = line ++ ['\n'] := List.append_nil _
    rw [insertSpecial, Option.toList_some, List.map_singleton, List.flatMap_singleton, hpart]
    simp only [LineBuffer.insert, insertHeading_newline, LineBuffer.point,
      LineBuffer.length_append_succ, Part.placeAll, Part.place, hpart]
    rfl

/-- Inserting a heading inserts a text and does not move what is behind point. -/
theorem insertHeading_insert (b : LineBuffer) (text : Text) :
    ∃ heading, insertHeading (b.insert text) = ⟨b.before ++ heading, b.after⟩ := by
  rw [insertHeading]
  split
  · exact ⟨text, rfl⟩
  · exact ⟨text ++ ['\n'], by rw [LineBuffer.insert, LineBuffer.insert, List.append_assoc]⟩

/-- There are no more hunks than lines of them. -/
theorem length_le_hunkLines (hunks : List Hunk) (rest : List Text) :
    hunks.length ≤ (hunks.flatMap Hunk.lines ++ rest).length := by
  induction hunks with
  | nil => exact Nat.zero_le _
  | cons h hunks ih =>
    rw [List.flatMap_cons, Hunk.lines, List.cons_append, List.cons_append, List.length_cons,
      List.length_cons, List.append_assoc, List.length_append]
    exact Nat.succ_le_succ (ih.trans (Nat.le_add_left _ _))

/-- **The section of a file has its sections one after the other.** -/
theorem insertFileSection_eq {modes rename : Option Text}
    (hmodes : ∀ t, modes = some t → ∃ line, t = line ++ ['\n'])
    (hrename : ∀ t, rename = some t → ∃ line, t = line ++ ['\n']) {hunks : List Hunk}
    (hwf : ∀ h ∈ hunks, h.WellFormed) (file : Text) (orig : Option Text) (status header : Text)
    (binary : Bool) (before : Text) {rest : List Text} (hrest : EndsHunks rest) {parts : List Part}
    (hparts : parts = modes.toList.map (specialPart .chmod)
      ++ (rename.toList.map (specialPart .rename) ++ hunks.map Hunk.part)) :
    ∃ heading s, insertFileSection file orig status modes rename header binary
        ⟨before, hunks.flatMap Hunk.lines ++ rest⟩
        = (s, ⟨before ++ heading ++ parts.flatMap Part.text, rest⟩)
      ∧ s.header = header ∧ s.content = (before ++ heading).length + 1
      ∧ s.fin = (before ++ heading ++ parts.flatMap Part.text).length + 1
      ∧ s.children = Part.placeAll s.content parts := by
  have hheading : ∀ text after, ∃ heading,
      insertHeading (if binary then (LineBuffer.insert ⟨before, after⟩ text).insert
        " (binary)".toList else LineBuffer.insert ⟨before, after⟩ text)
        = ⟨before ++ heading, after⟩ := by
    intro text after
    rcases binary with _ | _
    · exact insertHeading_insert ⟨before, after⟩ text
    · obtain ⟨more, hmore⟩ := insertHeading_insert (LineBuffer.insert ⟨before, after⟩ text)
        " (binary)".toList
      exact ⟨text ++ more, hmore.trans (by rw [LineBuffer.insert, List.append_assoc])⟩
  simp only [insertFileSection]
  generalize fileHeading status _ = text
  obtain ⟨heading, htext⟩ := hheading text (hunks.flatMap Hunk.lines ++ rest)
  subst hparts
  rw [htext]
  simp only [insertSpecial_eq _ hmodes, insertSpecial_eq _ hrename,
    washHunks_eq hwf (length_le_hunkLines hunks rest) _ hrest, LineBuffer.point]
  refine ⟨heading, _, Prod.ext rfl ?_, rfl, rfl, ?_, ?_⟩
  · simp only [List.flatMap_append, List.append_assoc]
  · simp only [List.flatMap_append, List.append_assoc]
  · simp only [Part.placeAll_append, LineBuffer.length_append_succ]

/-! ## The section of a file's diff -/

namespace FileDiff

variable (d : FileDiff)

/-- The sections below that of the file. -/
def parts : List Part :=
  (d.headersAt .chmod).map (fun h => specialPart .chmod (unlines h.lines))
    ++ ((d.headersAt .rename).map (fun h => specialPart .rename (unlines h.lines))
      ++ d.hunks.map Hunk.part)

/-- The text of the parts is that of the special lines and then that of the hunks. -/
theorem parts_flatMap_text :
    d.parts.flatMap Part.text = unlines (d.specialLines ++ d.hunkLines) := by
  have hspecial : ∀ (value : HunkValue) (headers : List Header),
      (headers.map fun h => specialPart value (unlines h.lines)).flatMap Part.text
        = unlines (headers.flatMap Header.lines) := by
    intro value headers
    induction headers with
    | nil => rfl
    | cons h headers ih =>
      rw [List.map_cons, List.flatMap_cons, ih, List.flatMap_cons, unlines_append]
      exact congrArg (· ++ _) (List.append_nil _)
  have hhunks : (d.hunks.map Hunk.part).flatMap Part.text = unlines d.hunkLines := by
    rw [hunkLines]
    induction d.hunks with
    | nil => rfl
    | cons h hunks ih =>
      have hpart : h.part.text = unlines h.lines := by
        rw [Hunk.lines, unlines_cons, Part.text, Hunk.part, List.append_assoc, List.singleton_append]
      rw [List.map_cons, List.flatMap_cons, ih, List.flatMap_cons, unlines_append, hpart]
  rw [parts, List.flatMap_append, List.flatMap_append, hspecial, hspecial, hhunks, specialLines,
    linesAt, linesAt, unlines_append, unlines_append, List.append_assoc]

end FileDiff

/-- What the section of a file's diff holds in a buffer. -/
structure FileWashed (env : WashEnv) (text : Text) (d : FileDiff) (s : FileSection) : Prop where
  children : s.children = Part.placeAll s.content d.parts
  contents : s.children.map (hunkContent text) = d.parts.map Part.text
  header : env.logTraced = false → magitDiffFileHeader s = unlines d.headerLines
  patch : env.logTraced = false → magitApplyDiff text s = unlines d.patchLines

section

variable {env : WashEnv}

theorem unlines_endsLine (h : Header) : ∃ line, unlines h.lines = line ++ ['\n'] := by
  rw [Header.lines]
  rcases h.second with _ | next
  · exact ⟨pieceLine h.first, unlines_cons _ _⟩
  · refine ⟨pieceLine h.first ++ '\n' :: pieceLine next, ?_⟩
    simp only [Option.map_some, Option.toList_some, unlines_cons, unlines_nil, List.append_assoc,
      List.cons_append]

/-- The first line of a diff is recognized, with the name of its file. -/
theorem lookingAtDiff_line (hfold : FoldsAscii env.fold) {first : DiffLine}
    (hwf : ∀ name ∈ first.names, name ≠ [] ∧ '\n' ∉ name) :
    ∃ status, lookingAtDiff env first.line = some (status, first.fileName env) := by
  have hgit : ∀ piece : String, differs "diff --git ".toList piece.toList = true →
      ∀ rest, lookingAt env.fold "diff --git ".toList (pieceLine (piece, rest)) = false :=
    fun _ hd rest => lookingAt_of_differs hfold hd rest
  cases first with
  | git orig file =>
    have hdrop : (pieceLine ("diff --git ", orig ++ ' ' :: file)).drop 11 = orig ++ ' ' :: file :=
      List.drop_left' (show "diff --git ".toList.length = 11 by decide)
    have hlook : lookingAt env.fold "diff --git ".toList
        (pieceLine ("diff --git ", orig ++ ' ' :: file)) = true := lookingAt_append _ _
    rw [DiffLine.line, lookingAtDiff, hlook, if_pos rfl, hdrop]
    exact ⟨_, rfl⟩
  | cc file =>
    have hfile : file ≠ [] := (hwf file List.mem_cons_self).1
    rw [DiffLine.line, lookingAtDiff, hgit "diff --cc " (by decide), if_neg Bool.false_ne_true,
      lineWith_append "diff --cc " hfile]
    exact ⟨_, rfl⟩
  | combined file =>
    have hfile : file ≠ [] := (hwf file List.mem_cons_self).1
    rw [DiffLine.line, lookingAtDiff, hgit "diff --combined " (by decide), if_neg Bool.false_ne_true,
      lineWith_of_differs hfold (by decide) file, lineWith_append "diff --combined " hfile]
    exact ⟨_, rfl⟩

theorem line_prefix (first : DiffLine) : ∃ rest, first.line = "diff --".toList ++ rest := by
  have hpiece : ∀ piece piece' : String, piece.toList = "diff --".toList ++ piece'.toList →
      ∀ rest, pieceLine (piece, rest) = "diff --".toList ++ (piece'.toList ++ rest) := by
    intro piece piece' h rest
    rw [pieceLine, h, List.append_assoc]
  cases first with
  | git orig file => exact ⟨_, hpiece "diff --git " "git " (by decide) _⟩
  | cc file => exact ⟨_, hpiece "diff --cc " "cc " (by decide) _⟩
  | combined file => exact ⟨_, hpiece "diff --combined " "combined " (by decide) _⟩

/-- What a diff of a file does not begin with. -/
theorem differs_others : (["Submodule", "* Unmerged path "] ++ conflictHeadlines).all
    (fun piece => differs piece.toList "diff --".toList) = true := by decide

/-- The first line of a diff is no other headline. -/
theorem others_line (hfold : FoldsAscii env.fold) (first : DiffLine) :
    (["Submodule", "* Unmerged path "] ++ conflictHeadlines).any
      (fun piece => lookingAt env.fold piece.toList first.line) = false := by
  obtain ⟨rest, hrest⟩ := line_prefix first
  rw [List.any_eq_false, hrest]
  intro piece hpiece
  rw [lookingAt_of_differs hfold (List.all_eq_true.mp differs_others piece hpiece)]
  exact Bool.false_ne_true

/-- What may follow the lines of a file: nothing, or another file. -/
def StartsFile (rest : List Text) : Prop :=
  ∀ line, rest.head? = some line → ∃ more, line = "diff --".toList ++ more

/-- The beginning of a file ends the hunks. -/
theorem StartsFile.endsHunks {rest : List Text} (h : StartsFile rest) : EndsHunks rest := by
  intro line hline
  obtain ⟨more, rfl⟩ := h line hline
  have hdiff : "diff --".toList = 'd' :: "iff --".toList := by decide
  rw [hdiff]
  exact ⟨rfl, rfl⟩

/-- Behind the headers there is a headline. -/
theorem StartsFile.stops {rest : List Text} (h : StartsFile rest) {hunks : List Hunk}
    (hwf : ∀ h ∈ hunks, h.WellFormed) {line : Text}
    (hline : (hunks.flatMap Hunk.lines ++ rest).head? = some line) : headline env line = true := by
  have hpiece : ∀ piece ∈ ["@@", "diff", "Submodule", "* Unmerged path"], ∀ more,
      headline env (piece.toList ++ more) = true := fun piece hmem more =>
    List.any_eq_true.mpr ⟨piece, List.mem_append_left _ hmem, lookingAt_append _ _⟩
  rcases hunks with _ | ⟨hunk, hunks⟩
  · obtain ⟨more, rfl⟩ := h line hline
    have hdiff : "diff --".toList = "diff".toList ++ " --".toList := by decide
    rw [hdiff, List.append_assoc]
    exact hpiece "diff" (by simp) _
  · obtain ⟨n, hats⟩ := Nat.exists_eq_add_of_le' (hwf hunk List.mem_cons_self).ats
    have hheading : ∃ more, hunk.heading = "@@".toList ++ more := by
      rw [Hunk.heading, hats]
      exact ⟨_, rfl⟩
    obtain ⟨more, hmore⟩ := hheading
    rw [← Option.some.inj hline]
    exact hmore ▸ hpiece "@@" (by simp) more

theorem toList_getLast? {α : Type} {items : List α} (h : items.length ≤ 1) :
    items.getLast?.toList = items := by
  rcases items with _ | ⟨item, _ | ⟨item', items⟩⟩
  · rfl
  · rfl
  · simp at h

/-- The texts of the headers for a place. -/
theorem filterMap_textAt (headers : List Header) (place : Header.Place) :
    headers.filterMap (Header.textAt · place)
      = (headers.filter (·.place = place)).map fun h => unlines h.lines := by
  induction headers with
  | nil => rfl
  | cons h headers ih =>
    by_cases hplace : h.place = place
    · rw [List.filterMap_cons, Header.textAt, if_pos hplace,
        List.filter_cons_of_pos (by simpa using hplace), List.map_cons, ← ih]
    · rw [List.filterMap_cons, Header.textAt, if_neg hplace,
        List.filter_cons_of_neg (by simpa using hplace), ih]

/-- The state of the headers' loop at the end of a file's headers. -/
def FileDiff.state (env : WashEnv) (d : FileDiff) (status : Text) : HeaderState :=
  d.headers.foldl HeaderState.apply
    ⟨status, none, d.first.fileName env, [unlines [d.first.line]], none, none, false⟩

section

variable {d : FileDiff} (env) (status : Text)

/-- The special texts of a file are those of its headers. -/
theorem state_texts (hwf : d.WellFormed) :
    (d.state env status).modes.toList = (d.headersAt .chmod).map (fun h => unlines h.lines)
      ∧ (d.state env status).rename.toList
        = (d.headersAt .rename).map (fun h => unlines h.lines) := by
  rw [FileDiff.state, foldl_apply apply_modes, foldl_apply apply_rename, filterMap_textAt,
    filterMap_textAt, Option.or_none, Option.or_none]
  exact ⟨toList_getLast? ((List.length_map _).trans_le hwf.chmod),
    toList_getLast? ((List.length_map _).trans_le hwf.rename)⟩

theorem state_names :
    (d.state env status).file = d.fileName env ∧ (d.state env status).orig = d.origName := by
  rw [FileDiff.state, foldl_apply apply_file, foldl_apply apply_orig, Option.or_none]
  exact ⟨rfl, rfl⟩

variable {env} in
theorem state_header (hfold : FoldsAscii env.fold) :
    (d.state env status).header.reverse.flatten = unlines d.headerLines := by
  rw [FileDiff.state, foldl_apply_header hfold, FileDiff.headerLines, unlines_cons]
  simp [FileDiff.linesAt, FileDiff.headersAt]

end

/-- A section is inserted, if the names can be read. -/
theorem finishFile_eq {d : FileDiff} (hnamed : d.Named env) (status : Text) (b : LineBuffer) :
    ∃ file orig header, finishFile env (d.state env status) b
        = some (insertFileSection file orig (d.state env status).status
            (d.state env status).modes (d.state env status).rename header
            (d.state env status).binary b)
      ∧ (env.logTraced = false → header = (d.state env status).header.reverse.flatten) := by
  obtain ⟨hfile, horig⟩ := state_names (d := d) env status
  obtain ⟨name, hname, path, hpath, hlong⟩ := hnamed.file
  rw [finishFile, hfile, horig, hname]
  rcases horigName : d.origName with _ | orig
  · by_cases htraced : env.logTraced = true
    · have hfileLong := hlong htraced
      simp [hpath, htraced, substring, hfileLong]
      exact ⟨_, _, _, rfl⟩
    · simp [hpath, htraced]
      exact ⟨_, _, rfl⟩
  · obtain ⟨origPath, horigPath, horigLong⟩ := hnamed.orig orig horigName
    by_cases htraced : env.logTraced = true
    · have hfileLong := hlong htraced
      have horigLong := horigLong htraced
      simp [hpath, horigPath, htraced, substring, hfileLong, horigLong]
      exact ⟨_, _, _, rfl⟩
    · simp [hpath, horigPath, htraced]
      exact ⟨_, _, rfl⟩

/-- The lines of a file's diff are read up to its hunks. -/
theorem magitDiffWashDiff_finish (hfold : FoldsAscii env.fold) {d : FileDiff} (hwf : d.WellFormed)
    (before : Text) {rest : List Text} (hrest : StartsFile rest) :
    ∃ status, magitDiffWashDiff env ⟨before, d.lines ++ rest⟩
      = (finishFile env (d.state env status) ⟨before, d.hunkLines ++ rest⟩).map fun r =>
        (some [r.1], r.2) := by
  obtain ⟨status, hstatus⟩ := lookingAtDiff_line hfold hwf.first
  have hloop : headerLoop env ⟨status, none, d.first.fileName env, [unlines [d.first.line]], none,
      none, false⟩ (d.headers.flatMap Header.lines ++ (d.hunkLines ++ rest))
      = some (d.state env status, d.hunkLines ++ rest) := by
    rw [headerLoop_headers hfold hwf.headers]
    exact headerLoop_of_headline _ fun line hline => hrest.stops hwf.hunks hline
  have hafter : d.lines ++ rest
      = d.first.line :: (d.headers.flatMap Header.lines ++ (d.hunkLines ++ rest)) := by
    rw [FileDiff.lines, List.cons_append, List.append_assoc]
  refine ⟨status, ?_⟩
  rw [magitDiffWashDiff, hafter]
  simp only [others_line hfold, if_neg Bool.false_ne_true, hstatus, hloop, Option.bind_eq_bind,
    Option.bind_some]
  exact Option.map_eq_bind.symm

/-- **A file's diff becomes a section that holds its lines.** -/
theorem magitDiffWashDiff_lines (hfold : FoldsAscii env.fold) {d : FileDiff} (hwf : d.WellFormed)
    (hnamed : d.Named env) (before : Text) {rest : List Text} (hrest : StartsFile rest) :
    ∃ s text, magitDiffWashDiff env ⟨before, d.lines ++ rest⟩
        = some (some [s], ⟨before ++ text, rest⟩)
      ∧ ∀ more, FileWashed env (before ++ text ++ more) d s := by
  obtain ⟨status, hwash⟩ := magitDiffWashDiff_finish hfold hwf before hrest
  obtain ⟨file, orig, header, hfinish, hheader⟩ :=
    finishFile_eq hnamed status ⟨before, d.hunkLines ++ rest⟩
  obtain ⟨hmodes, hrename⟩ := state_texts env status hwf
  have hends : ∀ (place : Header.Place) (text : Option Text),
      text.toList = (d.headersAt place).map (fun h => unlines h.lines) →
      ∀ t, text = some t → ∃ line, t = line ++ ['\n'] := by
    intro place text htext t ht
    have hmem : t ∈ text.toList := Option.mem_toList.mpr ht
    rw [htext] at hmem
    obtain ⟨h, -, rfl⟩ := List.mem_map.mp hmem
    exact unlines_endsLine h
  have hparts : d.parts = (d.state env status).modes.toList.map (specialPart .chmod)
      ++ ((d.state env status).rename.toList.map (specialPart .rename)
        ++ d.hunks.map Hunk.part) := by
    rw [hmodes, hrename, List.map_map, List.map_map]
    rfl
  obtain ⟨heading, s, hsection, hsheader, hcontent, hfin, hchildren⟩ :=
    insertFileSection_eq (hends .chmod _ hmodes) (hends .rename _ hrename) hwf.hunks file orig
      (d.state env status).status header (d.state env status).binary before hrest.endsHunks hparts
  refine ⟨s, heading ++ d.parts.flatMap Part.text, ?_, fun more => ?_⟩
  · rw [hwash, hfinish, FileDiff.hunkLines, hsection, Option.map_some, List.append_assoc]
  · have hcontents := Part.map_hunkContent_placeAll d.parts (before ++ heading) more
    have hregion : fileContent (before ++ heading ++ d.parts.flatMap Part.text ++ more) s
        = d.parts.flatMap Part.text := by
      rw [fileContent, hcontent, hfin, region_point]
    rw [← List.append_assoc before]
    have hslot : env.logTraced = false → magitDiffFileHeader s = unlines d.headerLines :=
      fun htraced => hsheader.trans ((hheader htraced).trans (state_header status hfold))
    refine ⟨hchildren, ?_, hslot, fun htraced => ?_⟩
    · rw [hchildren, hcontent, hcontents]
    · rw [magitApplyDiff, hslot htraced, hregion, d.parts_flatMap_text, FileDiff.patchLines,
        unlines_append d.headerLines, unlines_append]

/-- **The diffs of any number of files become sections, and nothing of them is lost.** -/
theorem washDiffs_lines (hfold : FoldsAscii env.fold) {ds : List FileDiff}
    (hwf : ∀ d ∈ ds, d.WellFormed) (hnamed : ∀ d ∈ ds, d.Named env) {fuel : ℕ}
    (hfuel : ds.length ≤ fuel) (before : Text) :
    ∃ sections text, washDiffs env fuel ⟨before, ds.flatMap FileDiff.lines⟩
        = some (sections, ⟨before ++ text, []⟩)
      ∧ ∀ more, List.Forall₂ (FileWashed env (before ++ text ++ more)) ds sections := by
  induction ds generalizing fuel before with
  | nil =>
    refine ⟨[], [], ?_, fun more => .nil⟩
    rw [List.append_nil]
    rcases fuel with _ | fuel
    · rfl
    · rfl
  | cons d ds ih =>
    obtain ⟨hd, hds⟩ := List.forall_mem_cons.mp hwf
    obtain ⟨hdn, hdsn⟩ := List.forall_mem_cons.mp hnamed
    obtain ⟨fuel, rfl⟩ := Nat.exists_eq_add_of_le' (Nat.one_le_of_lt hfuel)
    have hrest : StartsFile (ds.flatMap FileDiff.lines) := by
      intro line hline
      rcases ds with _ | ⟨d', ds⟩
      · exact absurd hline (by simp)
      · rw [← Option.some.inj hline]
        exact line_prefix d'.first
    obtain ⟨s, text, hone, hs⟩ := magitDiffWashDiff_lines hfold hd hdn before hrest
    obtain ⟨sections, texts, hmany, hsections⟩ :=
      ih hds hdsn (Nat.le_of_succ_le_succ hfuel) (before ++ text)
    refine ⟨s :: sections, text ++ texts, ?_, fun more => .cons ?_ ?_⟩
    · have hlines : d.lines ++ ds.flatMap FileDiff.lines ≠ [] :=
        List.append_ne_nil_of_left_ne_nil (List.cons_ne_nil _ _) _
      rw [List.flatMap_cons, washDiffs]
      simp only [if_neg hlines, hone, Option.bind_eq_bind, Option.bind_some, hmany, List.append_assoc,
        List.singleton_append]
    · rw [← List.append_assoc before, List.append_assoc (before ++ text)]
      exact hs (texts ++ more)
    · rw [← List.append_assoc before]
      exact hsections more

/-- What `magit-apply-diffs` gives Git for the files washed is the patch of one after the other. -/
theorem magitApplyDiffs_washed {ds : List FileDiff} {sections : List FileSection} {text : Text}
    (htraced : env.logTraced = false) (h : List.Forall₂ (FileWashed env text) ds sections) :
    magitApplyDiffs text sections = unlines (ds.flatMap FileDiff.patchLines) := by
  induction h with
  | nil => rfl
  | cons hfile _ ih =>
    rw [magitApplyDiffs] at ih ⊢
    rw [List.flatMap_cons, List.flatMap_cons, unlines_append, hfile.patch htraced, ih]

/-- …and the diff itself if no file changes its mode or its name. -/
theorem magitApplyDiffs_washed_of_header {ds : List FileDiff} {sections : List FileSection}
    {text : Text} (htraced : env.logTraced = false)
    (h : List.Forall₂ (FileWashed env text) ds sections)
    (hheader : ∀ d ∈ ds, ∀ h ∈ d.headers, h.place = .header) :
    magitApplyDiffs text sections = unlines (ds.flatMap FileDiff.lines) := by
  rw [magitApplyDiffs_washed htraced h]
  exact congrArg unlines (List.flatMap_congr fun d hd => d.patchLines_of_header (hheader d hd))

/-- **Washing loses nothing.**  There is a section for each file, in order, and below it one for each
hunk, in order, with the hunk's ranges, behind those for the mode change and the rename.  Each line
of a file's diff is in the slot `header` or in one of these sections, and in the patch once; without
mode changes and renames the patch is the diff. -/
theorem washed_complete (hfold : FoldsAscii env.fold) {ds : List FileDiff}
    (hwf : ∀ d ∈ ds, d.WellFormed) (hnamed : ∀ d ∈ ds, d.Named env) {fuel : ℕ}
    (hfuel : ds.length ≤ fuel) (before : Text) :
    ∃ sections text, washDiffs env fuel ⟨before, ds.flatMap FileDiff.lines⟩
        = some (sections, ⟨text, []⟩)
      ∧ List.Forall₂ (FileWashed env text) ds sections
      ∧ ∀ d ∈ ds, d.patchLines.Perm d.lines
        ∧ ((∀ h ∈ d.headers, h.place = .header) → d.patchLines = d.lines) := by
  obtain ⟨sections, text, hwash, hsections⟩ := washDiffs_lines hfold hwf hnamed hfuel before
  have hwashed := hsections []
  rw [List.append_nil] at hwashed
  exact ⟨sections, before ++ text, hwash, hwashed,
    fun d _ => ⟨d.patchLines_perm, d.patchLines_of_header⟩⟩

end

/-! ## A change of mode next to a change of content -/

namespace ModeChange

/-- Paths are as they are written, and no log is followed. -/
def env : WashEnv where
  fold := Char.toLower
  readPath := some
  revisionMode := false
  logTraced := false
  others := fun b => some (none, b)

/-- A hunk that adds a line. -/
def hunk : Hunk where
  ats := 2
  ranges := [⟨'-', 1, none⟩, ⟨'+', 1, some 2⟩]
  about := none
  body := [[' ', 'a'], ['+', 'b']]

/-- The diff of a file whose mode changes too. -/
def diff : FileDiff where
  first := .git "f".toList "f".toList
  headers := [.modes "100644".toList "100755".toList, .index "7898192..422c2b7".toList,
    .fromFile "f".toList, .toFile "f".toList]
  hunks := [hunk]

theorem foldsAscii : FoldsAscii env.fold := fun _ _ => rfl

theorem hunk_wellFormed : hunk.WellFormed where
  ats := by decide
  ranges := by decide
  sign := by decide
  about := by simp [hunk]
  body := by
    intro line hline
    rcases List.mem_pair.mp hline with rfl | rfl
    · exact ⟨by decide, ' ', by decide, _, rfl⟩
    · exact ⟨by decide, '+', by decide, _, rfl⟩

theorem wellFormed : diff.WellFormed where
  first := by decide
  headers := by
    simp only [Header.WellFormed]
    decide
  chmod := by decide
  rename := by decide
  hunks := fun _ h => List.mem_singleton.mp h ▸ hunk_wellFormed

theorem named : diff.Named env where
  file := ⟨['f'], by decide, ['f'], by decide, fun h => absurd h (by decide)⟩
  orig := by
    intro name hname
    obtain rfl : ['f'] = name := Option.some.inj (Eq.trans (by decide) hname)
    exact ⟨['f'], by decide, fun h => absurd h (by decide)⟩

/-- Two changes of the mode are one section, and the patch has both. -/
theorem washed_more_sections : diff.WellFormed ∧ diff.Named env
    ∧ ((washDiffs env 1 ⟨[], diff.lines⟩).map fun r =>
        r.1.map fun s => (s.children.map HunkSection.value, magitApplyDiff r.2.before s))
      = some [([.chmod, .ranges none [[1, 1], [1, 2]]], unlines diff.patchLines)]
    ∧ diff.hunks.length = 1 ∧ unlines diff.patchLines ≠ unlines diff.lines :=
  ⟨wellFormed, named, by decide +kernel, rfl, by decide +kernel⟩

/-- The change of a mode is washed completely. -/
theorem washed_complete_modeChange :
    ∃ sections text, washDiffs env 1 ⟨[], [diff].flatMap FileDiff.lines⟩ = some (sections, ⟨text, []⟩)
      ∧ List.Forall₂ (FileWashed env text) [diff] sections
      ∧ ∀ d ∈ [diff], d.patchLines.Perm d.lines
        ∧ ((∀ h ∈ d.headers, h.place = .header) → d.patchLines = d.lines) :=
  washed_complete foldsAscii (fun _ h => List.mem_singleton.mp h ▸ wellFormed)
    (fun _ h => List.mem_singleton.mp h ▸ named) (Nat.le_refl 1) []

end ModeChange

end Magit.DiffWash
