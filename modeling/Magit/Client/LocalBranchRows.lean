import Magit.Client.BranchRecords
import Magit.Client.StatusHeaders

/-!
# Client/LocalBranchRows — the rows of the local branches

`magit-refs--format-local-branches` makes a row of each record, of a response or of git, and in
front of them one for a detached `HEAD`.  It knows that `HEAD` is detached from the name of the
current branch being nil, which that of a response never is: there is no such row with a response
(`magitRefsFormatLocalBranches_eq_iff`).  The record it makes for the row has one separator too
few, so that the subject of the commit is not shown.
-/

namespace Magit.Client

open Emacs Git Protocol Server

namespace LocalBranch

variable (b : LocalBranch)

/-- The fields, in their order. -/
def fields : List (Option Text) :=
  [b.head, b.branch, b.ref, b.upstream, b.uRef, b.uTrack, b.push, b.pRef, b.pTrack, b.msg]

/-- A record as git prints it, without the newline. -/
def line : Text := terminated nul (b.fields.dropLast.map (·.getD [])) ++ b.msg.getD []

/-- A record that can be read: its fields have no separators, and the name is there. -/
structure Printed : Prop where
  field : ∀ field ∈ b.fields, ∀ text ∈ field, text ≠ [] ∧ '\n' ∉ text ∧ nul ∉ text
  branch : b.branch.isSome

end LocalBranch

namespace Refs

/-! ## `magit-refs--format-local-branches` -/

/-- `magit-refs-show-commit-count` -/
inductive ShowCommitCount
  | all
  | branch
  | never
  deriving DecidableEq

/-- `magit-refs-primary-column-width` -/
inductive PrimaryColumnWidth
  | fixed (width : ℕ)
  | between (least greatest : ℕ)

/-- The options of the buffer. -/
structure RefsOptions where
  filterAlist : List ((Text → Bool) × Bool)
  showPushRemote : Bool
  padCommitCounts : Bool
  showBranchDescriptions : Bool
  showCommitCount : ShowCommitCount
  focusColumnWidth : ℕ
  primaryColumnWidth : PrimaryColumnWidth
  upstream : Text
  arguments : List Text

/-- What is asked besides: `magit-rev-verify`, the description of a branch, `magit-rev-diff-count`
and `magit-log--wash-summary`. -/
structure RefsGit where
  revVerify : Option Text → Bool
  description : Option Text → Option Text
  revDiffCount : Text → Option Text → ℕ × ℕ
  washSummary : Text → Text

/-- The argument `type` of `magit-refs--format-focus-column`. -/
inductive FocusType
  | none
  | head
  | tag
  deriving DecidableEq

/-- What `magit-refs--format-local-branch` returns. -/
structure BranchRow where
  width : ℕ
  branch : Option Text
  focus : Text
  branchPretty : Text
  uAhead : Option Text
  pAhead : Option Text
  uBehind : Option Text
  upstream : Option Text
  push : Option Text
  msg : Option Text
  deriving DecidableEq

section

variable (o : RefsOptions) (g : RefsGit)

/-- `magit-refs--insert-refname-p` -/
def magitRefsInsertRefnameP (refname : Text) : Bool :=
  match o.filterAlist.find? (·.1 refname) with
  | some entry => entry.2
  | none => true

/-- `magit-refs--format-focus-column` -/
def magitRefsFormatFocusColumn (ref : Option Text) (type : FocusType) : Text :=
  let head := o.upstream = "HEAD".toList
  let width := if o.showCommitCount = .never then 1 else o.focusColumnWidth
  let string :=
    if ref = some o.upstream ∨ (type = .head ∧ head) then
      (if head then '@' else '*') :: List.replicate (width - 1) ' '
    else if (if type = .tag then o.showCommitCount = .all else o.showCommitCount ≠ .never) then
      if 0 < (g.revDiffCount o.upstream ref).2 then
        '<' :: decimal (g.revDiffCount o.upstream ref).2
      else if 0 < (g.revDiffCount o.upstream ref).1 then
        decimal (g.revDiffCount o.upstream ref).1 ++ ['>']
      else ['=']
    else []
  string.leftpad width ' ' ++ [' ']

/-- The blank that `magit-refs-pad-commit-counts` puts at a count. -/
def countPadding : Text := if o.padCommitCounts then [' '] else []

/-- Whether the push-remote is shown. -/
def pushp (b : LocalBranch) : Bool :=
  b.push.isSome && o.showPushRemote && g.revVerify b.pRef && b.pRef != b.uRef

/-- The row of a record. -/
def branchRow (b : LocalBranch) : BranchRow :=
  let branchPretty := b.branch.getD "(detached)".toList
  let uAhead := b.uAhead.map fun n => countPadding o ++ n ++ ['>']
  let uBehind := b.uBehind.map fun n => '<' :: n ++ countPadding o
  let track := if pushp o g b then b.pTrack else none
  let pAhead := (track.bind (matchCount "ahead ".toList)).map fun n => n ++ '>' :: countPadding o
  let pBehind := (track.bind (matchCount "behind ".toList)).map fun n => '<' :: n ++ countPadding o
  let description := if o.showBranchDescriptions then g.description b.branch else none
  { width := (branchPretty ++ uAhead.getD [] ++ pAhead.getD [] ++ uBehind.getD []).length + 1
    branch := b.branch
    focus := magitRefsFormatFocusColumn o g b.branch (if b.headp then .head else .none)
    branchPretty, uAhead, pAhead, uBehind
    upstream := b.upstream.map (· ++ [' '])
    push := if pushp o g b then some (pBehind.getD [] ++ b.push.getD [] ++ [' ']) else none
    msg := description.or (b.msg.map g.washSummary) }

/-- `magit-refs--format-local-branch` -/
def magitRefsFormatLocalBranch (text : Text) : Option BranchRow :=
  let b := localBranch text
  if b.branch.all (magitRefsInsertRefnameP o) then some (branchRow o g b) else none

/-- The width that the list sets `magit-refs-primary-column-width` to. -/
def primaryWidth (rows : List BranchRow) : ℕ :=
  match o.primaryColumnWidth with
  | .fixed width => width
  | .between least greatest => min greatest ((rows.map (·.width)).foldr max least)

/-- The blanks in front of the second column. -/
def BranchRow.padding (width : ℕ) (row : BranchRow) : Text :=
  List.replicate (max 1 (width - (row.branchPretty ++ row.uAhead.getD [] ++ row.pAhead.getD []
    ++ row.uBehind.getD []).length)) ' '

/-- The strings that `magit-insert-heading` is given. -/
def BranchRow.strings (width : ℕ) (row : BranchRow) : List (Option Text) :=
  [some row.focus, some row.branchPretty, row.uAhead, row.pAhead, some (row.padding width),
    row.uBehind, row.upstream, row.push, row.msg]

/-- The record of a detached `HEAD`. -/
def detachedLine (subject : Option Text) : Text :=
  '*' :: List.replicate 8 nul ++ subject.getD []

/-- The last step of `magit-refs--format-local-branches`. -/
def padded (rows : List BranchRow) : List (Option Text × List (Option Text)) :=
  rows.map fun row => (row.branch, row.strings (primaryWidth o rows))

/-- The arguments of `git for-each-ref`. -/
def forEachRefArgs : List Text :=
  ["for-each-ref".toList,
    "--format=%(HEAD)%00%(refname:short)%00%(refname)%00".toList
      ++ "%(upstream:short)%00%(upstream)%00%(upstream:track)%00".toList
      ++ (if o.showPushRemote then "%(push:remotename)%00%(push)%00%(push:track)%00%(subject)"
        else "%00%00%00%(subject)").toList,
    "refs/heads".toList] ++ o.arguments

variable (git : List Text → Text) (gitInfo : List (MsgpackObject × MsgpackObject))

/-- The lines of the records. -/
def branchLines : List Text :=
  if gitInfo = [] then splitString '\n' (git (forEachRefArgs o))
  else splitString '\n' ((infoText magitInfoBranchesEnum gitInfo).getD [])

/-- The subject of `HEAD`, by `magit-rev-format`. -/
def headSubject : Option Text :=
  (gitString git ["log".toList, "--no-walk".toList, "--format=%s".toList, "HEAD".toList,
    "--".toList]).filter (· ≠ [])

/-- `magit-refs--format-local-branches` -/
def magitRefsFormatLocalBranches : List (Option Text × List (Option Text)) :=
  let rows := (branchLines o git gitInfo).filterMap (magitRefsFormatLocalBranch o g)
  let detached :=
    if magitGetCurrentBranchV2 git gitInfo = none then
      (magitRefsFormatLocalBranch o g (detachedLine (headSubject git))).toList
    else []
  padded o (detached ++ rows)

end

/-! ## Records -/

variable {o : RefsOptions} {g : RefsGit} {b : LocalBranch} {bs : List LocalBranch}

/-- The fields of a printed record are read back from its line. -/
theorem recordFields_line (h : b.Printed) : recordFields b.line = b.fields := by
  have hfield : ∀ field ∈ b.fields, nul ∉ field.getD [] ∧ orNil (field.getD []) = field := by
    intro field hmem
    refine ⟨?_, orNil_getD fun text htext => (h.field field hmem text htext).1⟩
    rcases field with _ | text
    · exact List.not_mem_nil
    · exact (h.field _ hmem text rfl).2.2
  have hfront : ∀ text ∈ b.fields.dropLast.map (·.getD []), nul ∉ text :=
    List.forall_mem_map.mpr fun field hmem => (hfield field (List.mem_of_mem_dropLast hmem)).1
  have hmsg : b.msg ∈ b.fields := by simp [LocalBranch.fields]
  have hall : b.fields.dropLast.map (·.getD []) ++ [b.msg.getD []] = b.fields.map (·.getD []) := rfl
  rw [recordFields, LocalBranch.line, splitOn_terminated_append hfront,
    List.splitOn_eq_singleton (hfield _ hmsg).1, hall, List.map_map]
  exact (List.map_congr_left fun field hmem => (hfield field hmem).2).trans (List.map_id _)

/-- **The line of a printed record is read back.** -/
theorem localBranch_line (h : b.Printed) : localBranch b.line = b := by
  rw [localBranch, recordFields_line h]
  rfl

theorem line_ne_nil (b : LocalBranch) : b.line ≠ [] := by
  rw [LocalBranch.line, LocalBranch.fields]
  simp

theorem newline_notMem_line (h : b.Printed) : '\n' ∉ b.line := by
  have hfield : ∀ field ∈ b.fields, '\n' ∉ field.getD [] := by
    intro field hmem
    rcases field with _ | text
    · exact List.not_mem_nil
    · exact (h.field _ hmem text rfl).2.1
  rw [LocalBranch.line, List.mem_append, not_or]
  refine ⟨fun hmem => ?_, hfield _ (by simp [LocalBranch.fields])⟩
  obtain ⟨text, htext, hmem⟩ := List.mem_flatMap.mp hmem
  obtain ⟨field, hfieldMem, rfl⟩ := List.mem_map.mp htext
  rcases List.mem_append.mp hmem with hmem | hnul
  · exact hfield field (List.mem_of_mem_dropLast hfieldMem) hmem
  · exact absurd (List.mem_singleton.mp hnul) (by decide)

/-- The lines that git prints are split again. -/
theorem splitString_lines (h : ∀ b ∈ bs, b.Printed) :
    splitString '\n' (terminated '\n' (bs.map LocalBranch.line)) = bs.map LocalBranch.line := by
  rw [splitString_terminated]
  · refine List.filter_eq_self.mpr (List.forall_mem_map.mpr fun b _ => ?_)
    exact decide_eq_true (line_ne_nil b)
  · exact List.forall_mem_map.mpr fun b hb => newline_notMem_line (h b hb)

/-- The rows are made of the records that are read from the field of a response. -/
theorem filterMap_magitRefsFormatLocalBranch (branches : Text) :
    (splitString '\n' branches).filterMap (magitRefsFormatLocalBranch o g)
      = (Client.magitRefsFormatLocalBranches (magitRefsInsertRefnameP o) branches).map
          (branchRow o g) := by
  rw [Client.magitRefsFormatLocalBranches, List.map_filterMap]
  refine List.filterMap_congr fun line _ => ?_
  rw [magitRefsFormatLocalBranch]
  dsimp only
  split
  · rfl
  · rfl

/-- The rows of some records: the names that are filtered out are missing. -/
theorem filterMap_lines (h : ∀ b ∈ bs, b.Printed) :
    (bs.map LocalBranch.line).filterMap (magitRefsFormatLocalBranch o g)
      = (bs.filter fun b => b.branch.all (magitRefsInsertRefnameP o)).map (branchRow o g) := by
  rw [List.filterMap_map, ← List.filterMap_eq_map, List.filterMap_filter]
  refine List.filterMap_congr fun b hb => ?_
  rw [Function.comp_apply, magitRefsFormatLocalBranch, localBranch_line (h b hb)]
  rfl

/-! ## The row of a detached `HEAD` -/

/-- It has no branch, and nothing of the commit. -/
def detachedRow (o : RefsOptions) (g : RefsGit) : BranchRow :=
  branchRow o g ⟨some ['*'], none, none, none, none, none, none, none, none, none⟩

/-- Its record has the subject where the track of the push-remote belongs. -/
theorem localBranch_detachedLine {subject : Option Text} (h : nul ∉ subject.getD []) :
    localBranch (detachedLine subject)
      = ⟨some ['*'], none, none, none, none, none, none, none, orNil (subject.getD []), none⟩ := by
  have hline : detachedLine subject
      = terminated nul (['*'] :: List.replicate 7 []) ++ subject.getD [] := rfl
  have hfront : ∀ text ∈ ['*'] :: List.replicate 7 [], nul ∉ text := by decide
  rw [localBranch, recordFields, hline, splitOn_terminated_append hfront,
    List.splitOn_eq_singleton h]
  rfl

/-- The line for a detached `HEAD` is formatted as its row. -/
theorem magitRefsFormatLocalBranch_detachedLine {subject : Option Text}
    (h : nul ∉ subject.getD []) :
    magitRefsFormatLocalBranch o g (detachedLine subject) = some (detachedRow o g) := by
  rw [magitRefsFormatLocalBranch, localBranch_detachedLine h]
  rfl

/-! ## The columns -/

/-- No element is above the maximum. -/
theorem le_foldr_max {ns : List ℕ} {n : ℕ} (h : n ∈ ns) (least : ℕ) : n ≤ ns.foldr max least := by
  induction ns with
  | nil => cases h
  | cons m ns ih =>
    rw [List.foldr_cons]
    rcases List.mem_cons.mp h with rfl | h
    · exact Nat.le_max_left _ _
    · exact (ih h).trans (Nat.le_max_right _ _)

/-- What is in front of the second column. -/
def BranchRow.primary (width : ℕ) (row : BranchRow) : Text :=
  row.branchPretty ++ row.uAhead.getD [] ++ row.pAhead.getD [] ++ row.padding width
    ++ row.uBehind.getD []

/-- The width of a row is what it needs in front of the second column. -/
def BranchRow.Measured (row : BranchRow) : Prop :=
  row.width = (row.branchPretty ++ row.uAhead.getD [] ++ row.pAhead.getD []
    ++ row.uBehind.getD []).length + 1

/-- The first column is at least as wide as it has to be. -/
theorem BranchRow.Measured.length_primary {row : BranchRow} (h : row.Measured) (width : ℕ) :
    (row.primary width).length = max row.width width := by
  rw [primary, padding, h]
  simp only [List.length_append, List.length_replicate]
  omega

/-- **The second column begins at the same place in all rows that are not too wide for it.** -/
theorem length_primary_padded {rows : List BranchRow} {row : BranchRow} (hmem : row ∈ rows)
    (h : row.Measured) {least greatest : ℕ}
    (hwidth : o.primaryColumnWidth = .between least greatest) (hfits : row.width ≤ greatest) :
    (row.primary (primaryWidth o rows)).length = primaryWidth o rows := by
  have hle : row.width ≤ primaryWidth o rows := by
    rw [primaryWidth, hwidth]
    exact Nat.le_min.mpr ⟨hfits, le_foldr_max (List.mem_map_of_mem hmem) least⟩
  rw [h.length_primary, Nat.max_eq_right hle]

/-! ## The rows -/

section

variable {δ : Type} {lg : Libgit2 δ} {s : RefStore} {git : List Text → Text}
  {reports : List BranchReport} {refs : List Reference}

/-- The rows of the records that are not filtered out. -/
def shownRows (o : RefsOptions) (g : RefsGit) (bs : List LocalBranch) : List BranchRow :=
  (bs.filter fun b => b.branch.all (magitRefsInsertRefnameP o)).map (branchRow o g)

/-- The record of a report has the line of the report. -/
theorem line_localBranch (r : BranchReport) : r.localBranch.line = r.line := by
  have hgetD : ∀ text : Text, (orNil text).getD [] = text := by
    intro text
    rw [orNil]
    split
    · next h => rw [h, Option.getD_none]
    · rw [Option.getD_some]
  simp only [LocalBranch.line, LocalBranch.fields, BranchReport.localBranch, BranchReport.line,
    BranchReport.front, BranchReport.fields, List.dropLast_cons_cons, List.dropLast_singleton,
    List.map_cons, List.map_nil, hgetD, Option.getD_some, Option.getD_none]

theorem fields_localBranch {r : BranchReport} (h : r.WellFormed) :
    r.localBranch.fields = r.fields.map orNil := by
  rw [← BranchReport.localBranch_line h, localBranch, BranchReport.recordFields_line h]
  rfl

/-- The record of a well-formed report can be printed and read back. -/
theorem printed_localBranch {r : BranchReport} (h : r.WellFormed) : r.localBranch.Printed where
  branch := rfl
  field := by
    have hfields : r.fields = r.front ++ [r.subject] := rfl
    rw [fields_localBranch h]
    intro field hmem text htext
    obtain ⟨found, hfound, rfl⟩ := List.mem_map.mp hmem
    rw [Option.mem_def, orNil] at htext
    split at htext
    · cases htext
    · next hne =>
      obtain rfl := Option.some.inj htext
      rw [hfields, List.mem_append] at hfound
      rcases hfound with hfront | hsubject
      · exact ⟨hne, h.notMem_front (.inl rfl) found hfront, h.notMem_front (.inr rfl) found hfront⟩
      · rw [List.mem_singleton.mp hsubject] at hne ⊢
        exact ⟨hne, h.subject.1, h.subject.2⟩

/-- The records of a response. -/
theorem branchLines_response (hopen : 0 ≤ lg.openExt) (data : GitRootReqT)
    (hrefs : lg.branchIterator = .ok ⟨refs, gitIterover⟩)
    (hreports : List.Forall₂ (fun r ref => BranchReport.Of r lg ref) reports refs)
    (hwf : ∀ r ∈ reports, r.WellFormed) :
    branchLines o git (responseInfo lg data)
      = (reports.map BranchReport.localBranch).map LocalBranch.line := by
  have hcontent : content (gitRootWorker lg data).branches = (getBranchList lg []).2 := by
    rw [gitRootWorker, if_neg (not_lt.mpr hopen)]
    dsimp only
    split <;> rfl
  have hfield : infoText magitInfoBranchesEnum (responseInfo lg data)
      = some (getBranchList lg []).2 := by
    rw [← hcontent]
    exact infoText_of_produced (show MagitResKey.branches ≠ .id by decide) (by decide) (by decide)
      rfl
  have hlist : getBranchList lg [] = (0, terminated '\n' (reports.map BranchReport.line)) := by
    rw [getBranchList, hrefs]
    exact branchLoop_eq hreports gitIterover []
  have hlines : reports.map BranchReport.line
      = (reports.map BranchReport.localBranch).map LocalBranch.line := by
    rw [List.map_map]
    exact List.map_congr_left fun r _ => (line_localBranch r).symm
  rw [branchLines, if_neg (responseInfo_ne_nil lg data), hfield, Option.getD_some, hlist, hlines,
    splitString_lines]
  exact List.forall_mem_map.mpr fun r hr => printed_localBranch (hwf r hr)

/-- **The rows are those of the records that are not filtered out, in order, and with git, but not
with a response, one more in front of them if `HEAD` is detached.**  So where git prints the records
of the response the lists are the same if and only if it is not. -/
theorem magitRefsFormatLocalBranches_eq_iff (hopen : 0 ≤ lg.openExt) (hhead : GitHead s git)
    (data : GitRootReqT) (hrefs : lg.branchIterator = .ok ⟨refs, gitIterover⟩)
    (hreports : List.Forall₂ (fun r ref => BranchReport.Of r lg ref) reports refs)
    (hwf : ∀ r ∈ reports, r.WellFormed) (hsubject : nul ∉ (headSubject git).getD [])
    (hbs : ∀ b ∈ bs, b.Printed)
    (hgit : git (forEachRefArgs o) = terminated '\n' (bs.map LocalBranch.line)) :
    let found := reports.map BranchReport.localBranch
    magitRefsFormatLocalBranches o g git (responseInfo lg data) = padded o (shownRows o g found)
      ∧ (s.Detached → magitRefsFormatLocalBranches o g git []
        = padded o (detachedRow o g :: shownRows o g bs))
      ∧ (¬ s.Detached → magitRefsFormatLocalBranches o g git [] = padded o (shownRows o g bs))
      ∧ (bs = found → (magitRefsFormatLocalBranches o g git (responseInfo lg data)
        = magitRefsFormatLocalBranches o g git [] ↔ ¬ s.Detached)) := by
  intro found
  have hfound : ∀ b ∈ found, b.Printed :=
    List.forall_mem_map.mpr fun r hr => printed_localBranch (hwf r hr)
  have hresponse : magitRefsFormatLocalBranches o g git (responseInfo lg data)
      = padded o (shownRows o g found) := by
    have hbranch : magitGetCurrentBranchV2 git (responseInfo lg data) ≠ none := by
      rw [magitGetCurrentBranchV2, if_neg (responseInfo_ne_nil lg data),
        (infoText_responseInfo hopen data).1]
      exact Option.some_ne_none _
    rw [magitRefsFormatLocalBranches, branchLines_response hopen data hrefs hreports hwf,
      filterMap_lines hfound, if_neg hbranch]
    rfl
  have hlines : branchLines o git [] = bs.map LocalBranch.line := by
    rw [branchLines, if_pos rfl, hgit, splitString_lines hbs]
  have hdetached : s.Detached → magitRefsFormatLocalBranches o g git []
      = padded o (detachedRow o g :: shownRows o g bs) := by
    intro hd
    have hbranch : magitGetCurrentBranchV2 git [] = none :=
      gitString_of_nothing (hhead.detached hd)
    rw [magitRefsFormatLocalBranches, hlines, filterMap_lines hbs, if_pos hbranch,
      magitRefsFormatLocalBranch_detachedLine hsubject]
    rfl
  have hattached : ¬ s.Detached → magitRefsFormatLocalBranches o g git []
      = padded o (shownRows o g bs) := by
    intro hd
    obtain ⟨name, hword, hname⟩ := hhead.branch hd
    have hbranch : magitGetCurrentBranchV2 git [] ≠ none := by
      rw [magitGetCurrentBranchV2, if_pos rfl, magitGetCurrentBranch,
        gitString_of_line hname hword.2.2]
      exact Option.some_ne_none _
    rw [magitRefsFormatLocalBranches, hlines, filterMap_lines hbs, if_neg hbranch]
    rfl
  refine ⟨hresponse, hdetached, hattached, ?_⟩
  rintro rfl
  rw [hresponse]
  refine ⟨fun heq hd => ?_, fun hd => (hattached hd).symm⟩
  have hlen := congrArg List.length (heq.trans (hdetached hd))
  simp only [padded, List.length_map, List.length_cons] at hlen
  omega

end

/-! ## A detached `HEAD` and a branch -/

namespace DetachedTopic

/-- A branch without an upstream. -/
def topic : BranchReport := ⟨"topic".toList, false, none, .none, "Start".toList⟩

/-- A repository with that branch only, and no current branch. -/
def libgit2 : Libgit2 Unit :=
  { detachedStore.libgit2 with
    branchIterator := .ok ⟨[⟨topic.refname, .direct "c0ffee".toList⟩], gitIterover⟩
    branchName := fun ref => .ok (stripPrefix "refs/heads/".toList ref.name)
    branchIsHead := fun _ => 0
    branchUpstreamName := fun _ => .error gitEnotfound
    referenceNameToId := fun _ => .ok "c0ffee".toList
    commitLookup := fun _ => .ok ⟨none, none, "Start".toList⟩ }

/-- The defaults of the list of branches, without counts. -/
def options : RefsOptions where
  filterAlist := []
  showPushRemote := false
  padCommitCounts := false
  showBranchDescriptions := false
  showCommitCount := .never
  focusColumnWidth := 5
  primaryColumnWidth := .between 16 32
  upstream := "HEAD".toList
  arguments := []

/-- A git that knows nothing. -/
def asked : RefsGit := ⟨fun _ => false, fun _ => none, fun _ _ => (0, 0), id⟩

/-- What git prints there. -/
def git (args : List Text) : Text :=
  if args = forEachRefArgs options then topic.line ++ ['\n'] else []

theorem wellFormed_topic : topic.WellFormed where
  refname := isRefName_of_all (by decide) (by decide) (by decide)
  upstream := by
    rintro up ⟨⟩
  subject := by decide

theorem of_topic : topic.Of libgit2 ⟨topic.refname, .direct "c0ffee".toList⟩ where
  name := rfl
  shortName := by decide
  head := by decide
  upstream := by decide
  track := by decide
  subject := by decide

theorem detached : detachedStore.Detached := ⟨"c0ffee".toList, rfl⟩

theorem gitHead : GitHead detachedStore git where
  detached _ := by decide
  branch h := absurd detached h

/-- With a detached `HEAD` the rows of a response are not those of git. -/
theorem rows_differ :
    magitRefsFormatLocalBranches options asked git
        (responseInfo libgit2 { id := 1, result := -1 })
      ≠ magitRefsFormatLocalBranches options asked git [] := by
  have hopen : 0 ≤ libgit2.openExt := le_refl 0
  have hrows := magitRefsFormatLocalBranches_eq_iff (o := options) (g := asked)
    hopen gitHead { id := 1, result := -1 } rfl (.cons of_topic .nil)
    (List.forall_mem_singleton.mpr wellFormed_topic) List.not_mem_nil
    (List.forall_mem_singleton.mpr (printed_localBranch wellFormed_topic)) (by decide)
  exact fun heq => hrows.2.2.2 rfl |>.mp heq detached

end DetachedTopic

end Refs

end Magit.Client
