import Magit.Emacs.Buffer
import Magit.Git.Worker
import Magit.Protocol.Response

/-!
# Client/StatusHeaders — the headers about `HEAD` and its upstream

`magit-insert-head-branch-header` and `magit-insert-upstream-branch-header` take what they show
from the response, if there is one, and else from git.  Where git prints nothing, the function that
asks it returns nil, and the headers test for that; a field of the response that says nothing is an
empty string.
-/

namespace Magit.Client

open Emacs Git Protocol Server

/-! ## What is read, from the response or from git -/

section

-- What git prints to its output, given its arguments.
variable (git : List Text → Text)

/-- `magit-git-string`. -/
def gitString (args : List Text) : Option Text := outputLine (git args)

/-- How the current branch is asked for. -/
def symbolicRefArgs : List Text := ["symbolic-ref".toList, "--short".toList, "HEAD".toList]

/-- `magit-get-current-branch` -/
def magitGetCurrentBranch : Option Text := gitString git symbolicRefArgs

/-- How an abbreviation is asked for. -/
def abbrevRefArgs (refname : Text) : List Text :=
  ["rev-parse".toList, "--verify".toList, "--abbrev-ref".toList, refname]

/-- `magit-ref-abbrev` -/
def magitRefAbbrev (refname : Text) : Option Text := gitString git (abbrevRefArgs refname)

/-- `(concat branch "@{upstream}")`. -/
def upstreamRev (branch : Text) : Text := branch ++ "@\x7bupstream\x7d".toList

/-- Whether a line of the text begins with `:/`. -/
def isMessageSearch (rev : Text) : Bool :=
  (searchLines (fun text => if ":/".toList.isPrefixOf text then some () else none) rev).isSome

/-- `magit--rev-dereference` -/
def magitRevDereference (rev : Text) : Text :=
  if isMessageSearch rev then rev else rev ++ "^\x7bcommit\x7d".toList

/-- How one commit is formatted. -/
def logArgs (format rev : Text) : List Text :=
  ["log".toList, "--no-walk".toList, "--format=".toList ++ format, magitRevDereference rev,
    "--".toList]

/-- `magit-rev-format` -/
def magitRevFormat (format rev : Text) : Option Text :=
  (gitString git (logArgs format rev)).filter (· ≠ [])

/-- A string field of a response. -/
def infoText (key : ℕ) (gitInfo : List (MsgpackObject × MsgpackObject)) : Option Text :=
  match magitInfoGet key gitInfo with
  | some (.str text) => some text
  | _ => none

-- The response, `git-info-for-hooks`; nil if git is to be asked.
variable (gitInfo : List (MsgpackObject × MsgpackObject))

/-- `magit-get-current-branch-v2`, of a response. -/
def magitGetCurrentBranchV2 : Option Text :=
  if gitInfo = [] then magitGetCurrentBranch git else infoText magitInfoBranchEnum gitInfo

/-- `magit-rev-format-head-log-line`, of a response. -/
def magitRevFormatHeadLogLine : Option Text :=
  if gitInfo = [] then magitRevFormat git "%h %s".toList "HEAD".toList
  else infoText magitInfoHeadLogLineEnum gitInfo

/-- `magit-get-upstream-branch` -/
def magitGetUpstreamBranch (branch : Option Text) : Option Text :=
  (branch.or (magitGetCurrentBranch git)).bind fun branch => magitRefAbbrev git (upstreamRev branch)

/-- `magit-get-upstream-branch-v2`, of a response. -/
def magitGetUpstreamBranchV2 (branch : Option Text) : Option Text :=
  if gitInfo = [] then magitGetUpstreamBranch git branch
  else infoText magitInfoUpstreamBranchEnum gitInfo

/-- `magit-upstream-subj`, of a response. -/
def magitUpstreamSubj (upstream : Text) : Option Text :=
  if gitInfo = [] then magitRevFormat git "%s".toList upstream
  else infoText magitInfoUpstreamSubjEnum gitInfo

/-! ## The headers -/

/-- What the headers read besides: the user's options, git's options (under the parts of their
names) and the remotes. -/
structure HeaderOptions where
  showHashesInHeaders : Bool
  washSummary : Text → Text
  get : List Text → Option Text
  pullRebase : Bool
  listRemotes : List Text

variable (o : HeaderOptions)

/-- `^\([^ ]+\) \(.*\)`, at the beginning of a line. -/
def lookingAtHeadLine (text : Text) : Option (Text × Text) :=
  let commit := text.takeWhile (· ≠ ' ')
  match text.drop commit.length with
  | _ :: summary => if commit = [] then none else some (commit, lineText summary)
  | [] => none

/-- What is shown for a commit without a subject. -/
def noCommitMessage : Text := "(no commit message)".toList

/-- A subject as it is shown. -/
def shownSummary (summary : Text) : Text := if summary = [] then noCommitMessage else summary

/-- `(format "%-10s" keyword)`. -/
def headerKeyword (keyword : Text) : Text := keyword.rightpad 10 ' '

/-- The text that is inserted; `none` is a signal: `string-match` of nil. -/
def magitInsertHeadBranchHeader : Option Text := do
  let branch := magitGetCurrentBranchV2 git gitInfo
  let output ← magitRevFormatHeadLogLine git gitInfo
  let (commit, summary) ← searchLines lookingAtHeadLine output
  let summary := shownSummary summary
  match branch with
  | some branch =>
    return headerKeyword "Head: ".toList
      ++ ((if o.showHashesInHeaders then commit ++ [' '] else [])
        ++ (branch ++ ' ' :: (o.washSummary summary ++ ['\n'])))
  | none =>
    return headerKeyword "Head: ".toList ++ (commit ++ ' ' :: (o.washSummary summary ++ ['\n']))

/-- `\(\`\.\{0,2\}/\|[:@]\)` in the remote. -/
def isUrl (remote : Text) : Bool :=
  "/".toList.isPrefixOf remote || "./".toList.isPrefixOf remote || "../".toList.isPrefixOf remote
    || remote.any fun c => c = ':' ∨ c = '@'

/-- `magit--unnamed-upstream-p` -/
def magitUnnamedUpstreamP (remote merge : Option Text) : Bool :=
  remote.any isUrl && merge.any ("refs/".toList.isPrefixOf ·)

/-- `magit--valid-upstream-p` -/
def magitValidUpstreamP (remote merge : Option Text) : Bool :=
  remote.any (fun remote => remote == ".".toList || o.listRemotes.contains remote)
    && merge.any ("refs/".toList.isPrefixOf ·)

/-- What is said of an upstream that does not exist. -/
def missingUpstream (remote merge : Option Text) : Text :=
  if magitUnnamedUpstreamP remote merge then
    merge.getD [] ++ " from ".toList ++ remote.getD []
  else if magitValidUpstreamP o remote merge then
    if remote = some ".".toList then merge.getD [] ++ " does not exist".toList
    else merge.getD [] ++ " does not exist on ".toList ++ remote.getD []
  else "invalid upstream configuration".toList

/-- What is said of an upstream; `none` is a signal: `propertize` of nil. -/
def shownUpstream (upstream : Text) : Option Text := do
  let hash ←
    if o.showHashesInHeaders then
      (magitRevFormat git "%h".toList upstream).map (· ++ [' '])
    else some []
  return hash ++ (upstream ++ ' ' ::
    o.washSummary ((magitUpstreamSubj git gitInfo upstream).getD noCommitMessage))

/-- Pulling into the branch rebases it. -/
def rebases (branch : Text) : Bool :=
  match o.get ["branch".toList, branch, "rebase".toList] with
  | some value =>
    if value = "true".toList then true
    else if value = "false".toList then false
    else o.pullRebase
  | none => o.pullRebase

/-- `magit-insert-upstream-branch-header` -/
def magitInsertUpstreamBranchHeader : Option Text :=
  match magitGetCurrentBranchV2 git gitInfo with
  | none => some []
  | some branch =>
    let remote := o.get ["branch".toList, branch, "remote".toList]
    let merge := o.get ["branch".toList, branch, "merge".toList]
    if remote.isSome ∨ merge.isSome then do
      let keyword := if rebases o branch then "Rebase: ".toList else "Merge: ".toList
      let text ←
        match magitGetUpstreamBranchV2 git gitInfo (some branch) with
        | some upstream => shownUpstream git gitInfo o upstream
        | none => some (missingUpstream o remote merge)
      return headerKeyword keyword ++ (text ++ ['\n'])
    else some []

end

/-! ## The fields of a response -/

section

variable {δ : Type} {lg : Libgit2 δ} {s : RefStore}

/-- The response to a request, as it is decoded. -/
def responseInfo (lg : Libgit2 δ) (data : GitRootReqT) : List (MsgpackObject × MsgpackObject) :=
  resMsg (afterGitRootRes (gitRootWorker lg data))

theorem responseInfo_ne_nil (lg : Libgit2 δ) (data : GitRootReqT) : responseInfo lg data ≠ [] :=
  List.cons_ne_nil _ _

/-- A text of the response is what the client reads. -/
theorem infoText_of_produced {data : GitRootReqT} {key : MagitResKey} {text : Text}
    (hid : key ≠ .id) (hbare : key ≠ .isBare) (hmaster : key ≠ .upstreamBranchMaster)
    (h : produced (gitRootWorker lg data) key = some (.str text)) :
    infoText (infoEnum key) (responseInfo lg data) = some text := by
  rw [infoText, responseInfo, magitInfoGet_resMsg, lookup_afterGitRootRes _ hid hbare hmaster, h]

/-- The three fields about the branch are what their steps wrote, though nothing if they failed. -/
theorem content_gitRootWorker (hopen : 0 ≤ lg.openExt) (data : GitRootReqT) :
    content (gitRootWorker lg data).branch = (branchSteps lg).branch.2
      ∧ content (gitRootWorker lg data).upstreamBranch = (branchSteps lg).upstreamBranch.2
      ∧ content (gitRootWorker lg data).upstreamSubj = (branchSteps lg).upstreamSubj.2 := by
  rw [gitRootWorker, if_neg (not_lt.mpr hopen)]
  dsimp only
  split <;> exact ⟨rfl, rfl, rfl⟩

/-- The line for `HEAD` in the response: the hash and the subject. -/
theorem headLogLine_gitRootWorker (hopen : 0 ≤ lg.openExt) (hg : gating lg = true)
    (data : GitRootReqT) :
    content (gitRootWorker lg data).headLogLine
      = gitOidTostr (gitRevHead lg).2 ++ [' '] ++ (gitHeadSubject lg [] "HEAD".toList).2 := by
  rw [gitRootWorker, if_neg (not_lt.mpr hopen)]
  dsimp only
  rw [if_pos hg]
  rfl

/-- The line about `HEAD` is its id and the summary of its commit. -/
theorem headLogLine_of_headOid (h : NormalRepository lg s) {oid : Oid} {commit : Commit}
    (hoid : s.headOid = some oid) (hcommit : s.commits oid = some commit) (data : GitRootReqT) :
    content (gitRootWorker lg data).headLogLine = oid ++ ' ' :: commit.summary := by
  obtain ⟨ref, hhead, htarget⟩ := h.refs.head_ok hoid
  obtain ⟨headRef, hlookup⟩ := h.exists_lookup_head
  have hrev : gitRevHead lg = (0, some oid) := by
    rw [gitRevHead, hhead]
    simp only [Reference.oid, htarget]
  have hsubj : gitHeadSubject lg [] "HEAD".toList = (0, commit.summary) := by
    rw [gitHeadSubject, show "HEAD".toList = RefStore.headName from rfl, hlookup]
    simp only [h.refs.peel_ok hlookup hoid hcommit, List.nil_append]
  rw [headLogLine_gitRootWorker h.opens (h.gating_of_headOid hoid), hrev, hsubj]
  simp [gitOidTostr]

end

/-! ## Lines -/

/-- A name or an id: something without blanks and newlines. -/
def IsWord (text : Text) : Prop := text ≠ [] ∧ ' ' ∉ text ∧ '\n' ∉ text

instance (text : Text) : Decidable (IsWord text) :=
  inferInstanceAs (Decidable (text ≠ [] ∧ ' ' ∉ text ∧ '\n' ∉ text))

theorem gitString_of_line {git : List Text → Text} {args : List Text} {line : Text}
    (h : git args = line ++ ['\n']) (hline : '\n' ∉ line) : gitString git args = some line := by
  rw [gitString, h, outputLine, if_neg (by simp), lineText_append hline]

theorem gitString_of_nothing {git : List Text → Text} {args : List Text} (h : git args = []) :
    gitString git args = none := by
  rw [gitString, outputLine, if_pos h]

theorem magitRevFormat_of_line {git : List Text → Text} {format rev line : Text}
    (h : git (logArgs format rev) = line ++ ['\n']) (hline : '\n' ∉ line) (hne : line ≠ []) :
    magitRevFormat git format rev = some line := by
  rw [magitRevFormat, gitString_of_line h hline, Option.filter_some, if_pos (decide_eq_true hne)]

/-- The line about `HEAD` is taken apart behind its first word. -/
theorem searchLines_headLine {commit summary : Text} (hcommit : IsWord commit)
    (hsummary : '\n' ∉ summary) :
    searchLines lookingAtHeadLine (commit ++ ' ' :: summary) = some (commit, summary) := by
  have htake : (commit ++ ' ' :: summary).takeWhile (· ≠ ' ') = commit := by
    rw [List.takeWhile_append_of_pos, List.takeWhile_cons_of_neg (by simp), List.append_nil]
    intro c hc
    exact decide_eq_true fun h => hcommit.2.1 (h ▸ hc)
  have hlooking : lookingAtHeadLine (commit ++ ' ' :: summary) = some (commit, summary) := by
    rw [lookingAtHeadLine, htake, List.drop_left]
    dsimp only
    rw [if_neg hcommit.1, lineText_of_notMem hsummary]
  rw [searchLines, hlooking, Option.some_or]

/-- What stands before the first blank can be told from what stands behind it. -/
theorem append_blank_eq_iff {name name' rest rest' : Text} (hname : ' ' ∉ name)
    (hname' : ' ' ∉ name') :
    name ++ ' ' :: rest = name' ++ ' ' :: rest' ↔ name = name' ∧ rest = rest' := by
  induction name generalizing name' with
  | nil =>
    cases name' with
    | nil => simp
    | cons c name' => simp [(List.ne_of_not_mem_cons hname')]
  | cons c name ih =>
    cases name' with
    | nil => simp [(List.ne_of_not_mem_cons hname).symm]
    | cons c' name' =>
      rw [List.cons_append, List.cons_append, List.cons.injEq, List.cons.injEq,
        ih (List.not_mem_of_not_mem_cons hname) (List.not_mem_of_not_mem_cons hname'), and_assoc]

/-- A header's words can be told apart. -/
theorem hashed_eq_iff {showHashes : Bool} {hash hash' name name' rest rest' : Text}
    (hhash : ' ' ∉ hash) (hhash' : ' ' ∉ hash') (hname : ' ' ∉ name) (hname' : ' ' ∉ name') :
    (if showHashes then hash ++ [' '] else []) ++ (name ++ ' ' :: rest)
        = (if showHashes then hash' ++ [' '] else []) ++ (name' ++ ' ' :: rest')
      ↔ (showHashes = true → hash = hash') ∧ name = name' ∧ rest = rest' := by
  have hnames : name ++ ' ' :: rest = name' ++ ' ' :: rest' ↔ name = name' ∧ rest = rest' :=
    append_blank_eq_iff hname hname'
  cases showHashes with
  | false =>
    simp only [Bool.false_eq_true, if_false, List.nil_append, hnames, false_implies, true_and]
  | true =>
    simp only [if_true, List.append_assoc, List.singleton_append, true_implies,
      append_blank_eq_iff hhash hhash', hnames]

/-! ## What is shown from the response and from git -/

section

variable {δ : Type} (lg : Libgit2 δ) (s : RefStore) (git : List Text → Text)

/-- What the documentation promises about git: it names the branch `HEAD` is on, which is a word, and
nothing if `HEAD` is detached. -/
structure GitHead : Prop where
  detached : s.Detached → git symbolicRefArgs = []
  branch : ¬ s.Detached → ∃ name, IsWord name ∧ git symbolicRefArgs = name ++ ['\n']

/-- A name of the upstream, libgit2's or the one that git prints. -/
def IsUpstreamName (rev : Text) : Prop :=
  (branchSteps lg).upstreamBranch = (0, rev)
    ∨ ∃ name, git symbolicRefArgs = name ++ ['\n']
      ∧ git (abbrevRefArgs (upstreamRev name)) = rev ++ ['\n']

/-- What the documentation promises about git and libgit2 in one repository besides: git finds an
upstream if libgit2 does, names are words, and of the commit that a branch leads to git prints one
abbreviated id. -/
structure GitNames : Prop extends GitHead s git where
  branch_word : ¬ s.Detached → IsWord (branchSteps lg).branch.2
  no_upstream : ∀ {name}, git symbolicRefArgs = name ++ ['\n'] →
    (branchSteps lg).upstreamBranch.1 ≠ 0 → git (abbrevRefArgs (upstreamRev name)) = []
  upstream : ∀ {name}, git symbolicRefArgs = name ++ ['\n'] →
    (branchSteps lg).upstreamBranch.1 = 0 →
      ∃ upstream, IsWord upstream ∧ git (abbrevRefArgs (upstreamRev name)) = upstream ++ ['\n']
        ∧ git (logArgs "%h".toList upstream) ≠ []
  upstream_word : (branchSteps lg).upstreamBranch.1 = 0 → IsWord (branchSteps lg).upstreamBranch.2
  hash : ∀ {rev}, IsUpstreamName lg git rev → git (logArgs "%h".toList rev) ≠ [] →
    ∃ hash, IsWord hash ∧ git (logArgs "%h".toList rev) = hash ++ ['\n']

/-- The commit `HEAD` leads to, as libgit2 knows it and as git prints it. -/
structure HeadCommit (oid short subject : Text) (commit : Commit) : Prop where
  headOid : s.headOid = some oid
  lookup : s.commits oid = some commit
  oid_word : IsWord oid
  summary_line : '\n' ∉ commit.summary
  log : git (logArgs "%h %s".toList "HEAD".toList) = short ++ ' ' :: subject ++ ['\n']
  short_word : IsWord short
  subject_line : '\n' ∉ subject

variable (o : HeaderOptions) (gitInfo : List (MsgpackObject × MsgpackObject))

/-- What a response does not have reads as nil, as from git, and the headers are the same. -/
structure ReadsAbsent : Prop where
  branch : magitGetCurrentBranchV2 git gitInfo = none ↔ magitGetCurrentBranch git = none
  upstream :
    magitGetUpstreamBranchV2 git gitInfo none = none ↔ magitGetUpstreamBranch git none = none
  head : magitInsertHeadBranchHeader git gitInfo o = magitInsertHeadBranchHeader git [] o
  upstreamHeader :
    magitInsertUpstreamBranchHeader git gitInfo o = magitInsertUpstreamBranchHeader git [] o

/-- A remote or a branch to merge is configured for a branch. -/
def HasUpstreamOption (branch : Text) : Prop :=
  (o.get ["branch".toList, branch, "remote".toList]).isSome
    ∨ (o.get ["branch".toList, branch, "merge".toList]).isSome

/-- Nothing is absent, and git prints what libgit2 says. -/
structure ShownAlike (oid short subject summary : Text) : Prop where
  attached : ¬ s.Detached
  upstream : (branchSteps lg).upstreamBranch.1 = 0
  name : git symbolicRefArgs = (branchSteps lg).branch.2 ++ ['\n']
  hash : o.showHashesInHeaders = true → oid = short
  summary : o.washSummary (shownSummary summary) = o.washSummary (shownSummary subject)
  upstreamName : HasUpstreamOption o (branchSteps lg).branch.2 →
    git (abbrevRefArgs (upstreamRev (branchSteps lg).branch.2))
      = (branchSteps lg).upstreamBranch.2 ++ ['\n']
  upstreamSubj : HasUpstreamOption o (branchSteps lg).branch.2 →
    o.washSummary (branchSteps lg).upstreamSubj.2
      = o.washSummary ((magitRevFormat git "%s".toList
          (branchSteps lg).upstreamBranch.2).getD noCommitMessage)

variable {lg s git o gitInfo}

/-- The header for `HEAD` is made of the branch, the hash and the summary. -/
theorem headHeader_of_line {oid summary : Text} (hoid : IsWord oid) (hsummary : '\n' ∉ summary)
    {branch : Text} (hbranch : magitGetCurrentBranchV2 git gitInfo = some branch)
    (hline : magitRevFormatHeadLogLine git gitInfo = some (oid ++ ' ' :: summary)) :
    magitInsertHeadBranchHeader git gitInfo o
      = some (headerKeyword "Head: ".toList
          ++ ((if o.showHashesInHeaders then oid ++ [' '] else [])
            ++ (branch ++ ' ' :: (o.washSummary (shownSummary summary) ++ ['\n'])))) := by
  rw [magitInsertHeadBranchHeader, hline, hbranch]
  simp only [Option.bind_eq_bind, Option.bind_some, searchLines_headLine hoid hsummary]
  rfl

/-- On a branch, the head's header is the same exactly if its words and its summary are. -/
theorem headHeader_eq_iff {oid short summary subject branch branch' : Text}
    {gitInfo' : List (MsgpackObject × MsgpackObject)} (hoid : IsWord oid) (hshort : IsWord short)
    (hsummary : '\n' ∉ summary) (hsubject : '\n' ∉ subject) (hword : IsWord branch)
    (hword' : IsWord branch') (hbranch : magitGetCurrentBranchV2 git gitInfo = some branch)
    (hbranch' : magitGetCurrentBranchV2 git gitInfo' = some branch')
    (hline : magitRevFormatHeadLogLine git gitInfo = some (oid ++ ' ' :: summary))
    (hline' : magitRevFormatHeadLogLine git gitInfo' = some (short ++ ' ' :: subject)) :
    magitInsertHeadBranchHeader git gitInfo o = magitInsertHeadBranchHeader git gitInfo' o
      ↔ (o.showHashesInHeaders = true → oid = short) ∧ branch = branch'
        ∧ o.washSummary (shownSummary summary) = o.washSummary (shownSummary subject) := by
  rw [headHeader_of_line hoid hsummary hbranch hline,
    headHeader_of_line hshort hsubject hbranch' hline', Option.some_inj, List.append_right_inj,
    hashed_eq_iff hoid.2.1 hshort.2.1 hword.2.1 hword'.2.1, List.append_left_inj]

/-- Of an upstream that git knows the same is shown, if anything, exactly for its own name and a
subject that looks the same. -/
theorem shownUpstream_eq_iff (hnames : GitNames lg s git) {upstream upstream' : Text}
    {gitInfo' : List (MsgpackObject × MsgpackObject)} (hname : IsUpstreamName lg git upstream)
    (hname' : IsUpstreamName lg git upstream') (hword : IsWord upstream)
    (hword' : IsWord upstream') (hhash : git (logArgs "%h".toList upstream') ≠ []) :
    shownUpstream git gitInfo o upstream = shownUpstream git gitInfo' o upstream'
      ↔ upstream = upstream'
        ∧ o.washSummary ((magitUpstreamSubj git gitInfo upstream).getD noCommitMessage)
          = o.washSummary ((magitUpstreamSubj git gitInfo' upstream').getD noCommitMessage) := by
  obtain ⟨hash', hhashWord', hprinted'⟩ := hnames.hash hname' hhash
  have hsome' := magitRevFormat_of_line hprinted' hhashWord'.2.2 hhashWord'.1
  cases hshow : o.showHashesInHeaders with
  | false =>
    simp only [shownUpstream, hshow, Bool.false_eq_true, if_false, Option.bind_eq_bind,
      Option.bind_some, List.nil_append, Option.pure_def, Option.some_inj,
      append_blank_eq_iff hword.2.1 hword'.2.1]
  | true =>
    by_cases hprints : git (logArgs "%h".toList upstream) = []
    -- git knows no commit by the name, and `propertize` signals.
    · have hnone : magitRevFormat git "%h".toList upstream = none := by
        rw [magitRevFormat, gitString_of_nothing hprints, Option.filter_none]
      simp only [shownUpstream, hshow, if_true, hnone, hsome', Option.map_none, Option.map_some,
        Option.bind_eq_bind, Option.bind_none, Option.bind_some, Option.pure_def]
      refine iff_of_false (by simp) fun h => hhash ?_
      rw [← h.1, hprints]
    · obtain ⟨hash, hhashWord, hprinted⟩ := hnames.hash hname hprints
      have hsome := magitRevFormat_of_line hprinted hhashWord.2.2 hhashWord.1
      have hsame : upstream = upstream' → hash = hash' := by
        rintro rfl
        exact Option.some.inj (hsome.symm.trans hsome')
      simp only [shownUpstream, hshow, if_true, hsome, hsome', Option.map_some,
        Option.bind_eq_bind, Option.bind_some, Option.pure_def, Option.some_inj,
        List.append_assoc, List.singleton_append,
        append_blank_eq_iff hhashWord.2.1 hhashWord'.2.1,
        append_blank_eq_iff hword.2.1 hword'.2.1]
      tauto

/-- Two headers are the same exactly if what they show is. -/
theorem bind_header_eq_iff {keyword : Text} {shown shown' : Option Text} :
    (shown.bind fun text => some (keyword ++ (text ++ ['\n'])))
        = (shown'.bind fun text => some (keyword ++ (text ++ ['\n'])))
      ↔ shown = shown' := by
  cases shown <;> cases shown' <;> simp

/-- If both name the branch and an upstream, its header is the same if none is configured, and
otherwise exactly if the upstream looks the same. -/
theorem upstreamHeader_eq_iff (hnames : GitNames lg s git) {branch upstream upstream' : Text}
    {gitInfo' : List (MsgpackObject × MsgpackObject)} (hname : IsUpstreamName lg git upstream)
    (hname' : IsUpstreamName lg git upstream') (hword : IsWord upstream)
    (hword' : IsWord upstream') (hhash : git (logArgs "%h".toList upstream') ≠ [])
    (hbranch : magitGetCurrentBranchV2 git gitInfo = some branch)
    (hbranch' : magitGetCurrentBranchV2 git gitInfo' = some branch)
    (hup : magitGetUpstreamBranchV2 git gitInfo (some branch) = some upstream)
    (hup' : magitGetUpstreamBranchV2 git gitInfo' (some branch) = some upstream') :
    magitInsertUpstreamBranchHeader git gitInfo o = magitInsertUpstreamBranchHeader git gitInfo' o
      ↔ HasUpstreamOption o branch → upstream = upstream'
        ∧ o.washSummary ((magitUpstreamSubj git gitInfo upstream).getD noCommitMessage)
          = o.washSummary ((magitUpstreamSubj git gitInfo' upstream').getD noCommitMessage) := by
  rw [magitInsertUpstreamBranchHeader, magitInsertUpstreamBranchHeader, hbranch, hbranch']
  dsimp only
  rw [hup, hup', HasUpstreamOption]
  split
  · rename_i hoption
    rw [imp_iff_right hoption, ← shownUpstream_eq_iff hnames hname hname' hword hword' hhash]
    exact bind_header_eq_iff
  · exact iff_of_true rfl fun h => absurd h ‹_›

/-- The three branches of the response, as the client reads them. -/
theorem infoText_responseInfo (hopen : 0 ≤ lg.openExt) (data : GitRootReqT) :
    infoText magitInfoBranchEnum (responseInfo lg data) = some (branchSteps lg).branch.2
      ∧ infoText magitInfoUpstreamBranchEnum (responseInfo lg data)
        = some (branchSteps lg).upstreamBranch.2
      ∧ infoText magitInfoUpstreamSubjEnum (responseInfo lg data)
        = some (branchSteps lg).upstreamSubj.2 := by
  obtain ⟨hbranch, hupstream, hsubj⟩ := content_gitRootWorker hopen data
  refine ⟨?_, ?_, ?_⟩
  · rw [← hbranch]
    exact infoText_of_produced (show MagitResKey.branch ≠ .id by decide) (by decide) (by decide) rfl
  · rw [← hupstream]
    exact infoText_of_produced (show MagitResKey.upstreamBranch ≠ .id by decide) (by decide)
      (by decide) rfl
  · rw [← hsubj]
    exact infoText_of_produced (show MagitResKey.upstreamSubj ≠ .id by decide) (by decide)
      (by decide) rfl

/-- With a response the line for `HEAD` has the whole hash and the summary. -/
theorem headLogLine_responseInfo (h : NormalRepository lg s) {oid : Oid} {short subject : Text}
    {commit : Commit} (hcommit : HeadCommit s git oid short subject commit) (data : GitRootReqT) :
    magitRevFormatHeadLogLine git (responseInfo lg data) = some (oid ++ ' ' :: commit.summary) := by
  rw [magitRevFormatHeadLogLine, if_neg (responseInfo_ne_nil lg data),
    ← headLogLine_of_headOid h hcommit.headOid hcommit.lookup data]
  exact infoText_of_produced (show MagitResKey.headLogLine ≠ .id by decide) (by decide) (by decide)
    rfl

/-- Without one it has the short hash and the subject. -/
theorem headLogLine_git {oid : Oid} {short subject : Text} {commit : Commit}
    (hcommit : HeadCommit s git oid short subject commit) :
    magitRevFormatHeadLogLine git [] = some (short ++ ' ' :: subject) := by
  refine magitRevFormat_of_line hcommit.log ?_ (by simp)
  simp [hcommit.short_word.2.2, hcommit.subject_line]

/-- On a commit, a response is read as git is exactly if nothing in it is absent. -/
theorem readsAbsent_iff_shownAlike (h : NormalRepository lg s) (hnames : GitNames lg s git)
    {oid : Oid} {short subject : Text} {commit : Commit}
    (hcommit : HeadCommit s git oid short subject commit) (data : GitRootReqT) :
    ReadsAbsent git o (responseInfo lg data)
      ↔ ShownAlike lg s git o oid short subject commit.summary := by
  obtain ⟨hinfoBranch, hinfoUpstream, hinfoSubj⟩ := infoText_responseInfo h.opens data
  have hne := responseInfo_ne_nil lg data
  have hbranch : magitGetCurrentBranchV2 git (responseInfo lg data)
      = some (branchSteps lg).branch.2 := by
    rw [magitGetCurrentBranchV2, if_neg hne, hinfoBranch]
  have hupstream (branch : Option Text) : magitGetUpstreamBranchV2 git (responseInfo lg data) branch
      = some (branchSteps lg).upstreamBranch.2 := by
    rw [magitGetUpstreamBranchV2, if_neg hne, hinfoUpstream]
  by_cases hdetached : s.Detached
  · have hnone := gitString_of_nothing (hnames.detached hdetached)
    exact iff_of_false (fun hr => by simpa [hbranch] using hr.branch.mpr hnone)
      fun hs => hs.attached hdetached
  obtain ⟨name, hnameWord, hname⟩ := hnames.branch hdetached
  have hgitBranch : magitGetCurrentBranch git = some name := gitString_of_line hname hnameWord.2.2
  by_cases hcode : (branchSteps lg).upstreamBranch.1 = 0
  swap
  · have hnone : magitGetUpstreamBranch git none = none := by
      rw [magitGetUpstreamBranch, Option.none_or, hgitBranch, Option.bind_some, magitRefAbbrev,
        gitString_of_nothing (hnames.no_upstream hname hcode)]
    exact iff_of_false (fun hr => by simpa [hupstream] using hr.upstream.mpr hnone)
      fun hs => hcode hs.upstream
  obtain ⟨upstream, hupWord, hupPrinted, hupHash⟩ := hnames.upstream hname hcode
  have hgitUpstream : magitGetUpstreamBranch git (some name) = some upstream :=
    gitString_of_line hupPrinted hupWord.2.2
  have hgitDefault : magitGetUpstreamBranch git none = some upstream := by
    rw [magitGetUpstreamBranch, Option.none_or, hgitBranch]
    exact hgitUpstream
  have hhead : magitInsertHeadBranchHeader git (responseInfo lg data) o
        = magitInsertHeadBranchHeader git [] o
      ↔ (o.showHashesInHeaders = true → oid = short) ∧ (branchSteps lg).branch.2 = name
        ∧ o.washSummary (shownSummary commit.summary) = o.washSummary (shownSummary subject) :=
    headHeader_eq_iff hcommit.oid_word hcommit.short_word hcommit.summary_line hcommit.subject_line
      (hnames.branch_word hdetached) hnameWord hbranch hgitBranch
      (headLogLine_responseInfo h hcommit data) (headLogLine_git hcommit)
  have hheader (hsame : (branchSteps lg).branch.2 = name) :
      magitInsertUpstreamBranchHeader git (responseInfo lg data) o
          = magitInsertUpstreamBranchHeader git [] o
        ↔ HasUpstreamOption o name → (branchSteps lg).upstreamBranch.2 = upstream
          ∧ o.washSummary (branchSteps lg).upstreamSubj.2
            = o.washSummary ((magitRevFormat git "%s".toList upstream).getD noCommitMessage) := by
    have hsubj : magitUpstreamSubj git (responseInfo lg data) (branchSteps lg).upstreamBranch.2
        = some (branchSteps lg).upstreamSubj.2 := by
      rw [magitUpstreamSubj, if_neg hne, hinfoSubj]
    have hgitSubj : magitUpstreamSubj git [] upstream = magitRevFormat git "%s".toList upstream :=
      rfl
    have hgitBranchV2 : magitGetCurrentBranchV2 git [] = some name := hgitBranch
    rw [upstreamHeader_eq_iff hnames (.inl (Prod.ext hcode rfl)) (.inr ⟨name, hname, hupPrinted⟩)
      (hnames.upstream_word hcode) hupWord hupHash
      (hsame ▸ hbranch) hgitBranchV2 (hupstream (some name)) hgitUpstream, hsubj, hgitSubj,
      Option.getD_some]
  constructor
  · intro hr
    obtain ⟨hhash, hsame, hsummary⟩ := hhead.mp hr.head
    have hshown := (hheader hsame).mp hr.upstreamHeader
    exact
      { attached := hdetached
        upstream := hcode
        name := by rw [hname, hsame]
        hash := hhash
        summary := hsummary
        upstreamName := fun hoption => by
          rw [hsame] at hoption ⊢
          rw [hupPrinted, (hshown hoption).1]
        upstreamSubj := fun hoption => by
          rw [hsame] at hoption
          rw [(hshown hoption).2, (hshown hoption).1] }
  · intro hs
    have hsame : (branchSteps lg).branch.2 = name :=
      (List.append_cancel_right (hname.symm.trans hs.name)).symm
    exact
      { branch := by simp [hbranch, hgitBranch]
        upstream := by
          rw [hupstream, hgitDefault]
          exact iff_of_false (Option.some_ne_none _) (Option.some_ne_none _)
        head := hhead.mpr ⟨hs.hash, hsame, hs.summary⟩
        upstreamHeader := (hheader hsame).mpr fun hoption => by
          rw [← hsame] at hoption hupPrinted
          have hsameUp : (branchSteps lg).upstreamBranch.2 = upstream :=
            List.append_cancel_right ((hs.upstreamName hoption).symm.trans hupPrinted)
          exact ⟨hsameUp, by rw [hs.upstreamSubj hoption, hsameUp]⟩ }

/-- **What a response does not have reads as absent, and the headers are those that git gives**, if
and only if nothing is absent: `HEAD` is on a branch, which has an upstream, and what is shown of
both is what git prints.  Of an unborn `HEAD` there is no response. -/
theorem absent_fields_iff (h : NormalRepository lg s) (hnames : GitNames lg s git)
    {data : GitRootReqT} (hdata : data.result = -1) :
    (s.Unborn → afterGitRoot (gitRootWorker lg data) 0 = [])
      ∧ ∀ {oid : Oid} {short subject : Text} {commit : Commit},
        HeadCommit s git oid short subject commit →
          (ReadsAbsent git o (responseInfo lg data)
            ↔ ShownAlike lg s git o oid short subject commit.summary) := by
  refine ⟨fun hunborn => ?_, fun hcommit => readsAbsent_iff_shownAlike h hnames hcommit data⟩
  have hresult : (gitRootWorker lg data).result = -1 := by
    rw [result_gitRootWorker lg hdata h.opens, h.gating_of_unborn hunborn, if_neg Bool.false_ne_true]
  rw [afterGitRoot, if_neg (not_not.mpr rfl), hresult]
  rfl

end

/-! ## Repositories with a branch and without one -/

/-- A clone with one commit: `HEAD` is on `master`, which tracks `origin/master`. -/
def cloneStore : RefStore where
  refs name :=
    if name = RefStore.headName then some (.symbolic "refs/heads/master".toList)
    else if name = "refs/heads/master".toList then some (.direct "c0ffee".toList)
    else if name = "refs/remotes/origin/master".toList then some (.direct "c0ffee".toList)
    else none
  commits := RefStore.oneCommit.commits

/-- The answers of libgit2 in the clone. -/
def cloneLibgit2 : Libgit2 Unit :=
  { cloneStore.libgit2 with
    branchLookup := fun name => .ok ⟨"refs/heads/".toList ++ name, .direct "c0ffee".toList⟩
    branchUpstream := fun _ => .ok ⟨"refs/remotes/origin/master".toList, .direct "c0ffee".toList⟩
    branchName := fun ref => .ok (stripPrefix "refs/remotes/".toList ref.name) }

/-- What git prints in the clone. -/
def cloneGit (args : List Text) : Text :=
  if args = symbolicRefArgs then "master\n".toList
  else if args = abbrevRefArgs (upstreamRev "master".toList) then "origin/master\n".toList
  else if args = logArgs "%h".toList "origin/master".toList then "c0ffee\n".toList
  else if args = logArgs "%s".toList "origin/master".toList then "Start\n".toList
  else if args = logArgs "%h %s".toList "HEAD".toList then "c0ffee Start\n".toList
  else []

/-- The options of a clone of `origin`. -/
def cloneOptions : HeaderOptions where
  showHashesInHeaders := true
  washSummary := id
  get name :=
    if name = ["branch".toList, "master".toList, "remote".toList] then some "origin".toList else none
  pullRebase := false
  listRemotes := ["origin".toList]

/-- The clone is a normal repository. -/
theorem normalRepository_clone : NormalRepository cloneLibgit2 cloneStore := by
  have hhead : cloneStore.headOid = some "c0ffee".toList := rfl
  have h : NormalRepository cloneStore.libgit2 cloneStore := by
    refine RefStore.normalRepository_libgit2 (.inr (.inl ⟨"refs/heads/master".toList, _, rfl, rfl⟩))
      fun hoid => ⟨⟨none, none, "Start".toList⟩, ?_⟩
    rw [← Option.some.inj (hhead.symm.trans hoid)]
    rfl
  exact ⟨⟨h.refs.lookup_some, h.refs.lookup_none, h.refs.head_ok, h.refs.head_unborn,
    h.refs.peel_ok, h.refs.peel_unborn, h.refs.revparse_ok⟩, h.head, h.commit, h.opens, h.workdir,
    h.config, h.config_entries, h.worktrees, h.status, h.tags⟩

theorem cloneGit_symbolicRef : cloneGit symbolicRefArgs = "master".toList ++ ['\n'] := by decide

theorem upstream_clone :
    (branchSteps cloneLibgit2).upstreamBranch = (0, "origin/master".toList) := by decide

theorem not_detached_clone : ¬ cloneStore.Detached := by
  rintro ⟨oid, hhead⟩
  have hbranch : cloneStore.refs RefStore.headName
      = some (.symbolic "refs/heads/master".toList) := rfl
  exact RefTarget.noConfusion (Option.some.inj (hbranch.symm.trans hhead))

/-- An abbreviated id is printed for one name only. -/
theorem cloneGit_hash {rev : Text} (h : cloneGit (logArgs "%h".toList rev) ≠ []) :
    cloneGit (logArgs "%h".toList rev) = "c0ffee".toList ++ ['\n'] := by
  rw [cloneGit] at h ⊢
  split_ifs at h ⊢ with h1 h2 h3 h4 h5
  · simp [logArgs, symbolicRefArgs] at h1
  · simp [logArgs, abbrevRefArgs] at h2
  · rfl
  · simp [logArgs] at h4
  · simp [logArgs] at h5
  · exact absurd rfl h

/-- Git names the branches of the clone as documented. -/
theorem gitNames_clone : GitNames cloneLibgit2 cloneStore cloneGit where
  detached h := absurd h not_detached_clone
  branch _ := ⟨"master".toList, by decide, cloneGit_symbolicRef⟩
  branch_word _ := by decide
  no_upstream _ h := absurd (by rw [upstream_clone]) h
  upstream {name} h _ := by
    rw [cloneGit_symbolicRef] at h
    rw [← List.append_cancel_right h]
    exact ⟨"origin/master".toList, by decide, by decide, by decide⟩
  upstream_word _ := by
    rw [upstream_clone]
    decide
  hash _ h := ⟨"c0ffee".toList, by decide, cloneGit_hash h⟩

/-- In the clone the fields that the response lacks are read from git. -/
theorem absent_fields_clone :
    ReadsAbsent cloneGit cloneOptions (responseInfo cloneLibgit2 { id := 1, result := -1 }) := by
  have hcommit : HeadCommit cloneStore cloneGit "c0ffee".toList "c0ffee".toList "Start".toList
      ⟨none, none, "Start".toList⟩ :=
    ⟨rfl, rfl, by decide, by decide, by decide, by decide, by decide⟩
  have hshown : ShownAlike cloneLibgit2 cloneStore cloneGit cloneOptions "c0ffee".toList
      "c0ffee".toList "Start".toList "Start".toList :=
    { attached := not_detached_clone
      upstream := by rw [upstream_clone]
      name := by decide
      hash := fun _ => rfl
      summary := rfl
      upstreamName := fun _ => by decide
      upstreamSubj := fun _ => by decide }
  exact ((absent_fields_iff normalRepository_clone gitNames_clone rfl).2 hcommit).mpr hshown

/-- The clone's `HEAD`, detached. -/
def detachedStore : RefStore where
  refs name := if name = RefStore.headName then some (.direct "c0ffee".toList) else none
  commits := RefStore.oneCommit.commits

/-- What git prints there. -/
def detachedGit (args : List Text) : Text :=
  if args = logArgs "%h %s".toList "HEAD".toList then "c0ffee Start\n".toList else []

/-- Of a detached `HEAD` the branch is an empty string, and the header has a blank for it. -/
theorem detached_branch_not_nil :
    let info := responseInfo detachedStore.libgit2 { id := 1, result := -1 }
    magitGetCurrentBranchV2 detachedGit info = some []
      ∧ magitGetCurrentBranchV2 detachedGit [] = none
      ∧ magitInsertHeadBranchHeader detachedGit info cloneOptions
        = some "Head:     c0ffee  Start\n".toList
      ∧ magitInsertHeadBranchHeader detachedGit [] cloneOptions
        = some "Head:     c0ffee Start\n".toList
      ∧ ¬ ReadsAbsent detachedGit cloneOptions info := by
  intro info
  have hinfo : magitGetCurrentBranchV2 detachedGit info = some [] := by decide
  have hgit : magitGetCurrentBranch detachedGit = none := by decide
  refine ⟨hinfo, hgit, by decide, by decide, fun h => ?_⟩
  simpa [hinfo] using h.branch.mpr hgit

end Magit.Client
