import Magit.Git.Libgit2

/-!
# Git/Steps — the steps of the status worker

Each step of `git_handler.c` asks libgit2 about the repository, appends what it finds to a string
and returns 0 or an error code.  A step is a function from the string so far to the code and the
string after it.
-/

namespace Magit.Git

variable {δ : Type}

/-- The code a step returns and the string it appended to. -/
abbrev StepResult := ℤ × Text

/-- `git_oid_tostr`: empty for NULL. -/
def gitOidTostr (oid : Option Oid) : Text := oid.getD []

/-- The decimal digits `%zu`, `kputuw` and `kputl` write. -/
def decimal (n : ℕ) : Text := Nat.toDigits 10 n

theorem isDigit_of_mem_decimal {n : ℕ} {c : Char} (h : c ∈ decimal n) : c.isDigit = true :=
  Nat.isDigit_of_mem_toDigits (by decide) (le_refl 10) h

theorem notMem_decimal {c : Char} (hc : c.isDigit = false) (n : ℕ) : c ∉ decimal n := fun h =>
  Bool.false_ne_true (hc.symm.trans (isDigit_of_mem_decimal h))

/-- `%d` -/
def decimalInt (i : ℤ) : Text :=
  if i < 0 then '-' :: decimal i.natAbs else decimal i.natAbs

/-- `prefix` cut off the front of a name, if it is there. -/
def stripPrefix (pre name : Text) : Text :=
  if pre.isPrefixOf name then name.drop pre.length else name

/-- `\0` -/
def nul : Char := '\x00'

/-- `\x0c` -/
def ff : Char := '\x0c'

/-! ## References and revisions -/

/-- `get_upstream_branch` -/
def getUpstreamBranch (lg : Libgit2 δ) (branchName out : Text) : StepResult :=
  match lg.branchLookup branchName with
  | .error e => (e, out)
  | .ok branch =>
    match lg.branchUpstream branch with
    | .error e => (e, out)
    | .ok upstream =>
      match lg.branchName upstream with
      | .error e => (e, out)
      | .ok shortName => (0, out ++ shortName ++ ['\n'])

/-- `get_rev_parse_short_head` -/
def getRevParseShortHead (lg : Libgit2 δ) (out : Text) : StepResult :=
  match lg.revparseSingle "HEAD".toList with
  | .error e => (e, out)
  | .ok obj =>
    match lg.objectShortId obj with
    | .error e => (e, out)
    | .ok sid => (0, out ++ sid ++ ['\n'])

/-- `get_symbolic_ref` -/
def getSymbolicRef (lg : Libgit2 δ) (refname out : Text) : StepResult :=
  match lg.referenceLookup refname with
  | .error e => (e, out)
  | .ok ref =>
    match ref.target with
    | .direct _ => (gitEnotfound, out)
    | .symbolic target => (0, out ++ target ++ ['\n'])

/-- `get_origin_head` -/
def getOriginHead (lg : Libgit2 δ) (out : Text) : StepResult :=
  getSymbolicRef lg "refs/remotes/origin/HEAD".toList out

/-- `get_ref_oid` -/
def getRefOid (lg : Libgit2 δ) (refname out : Text) : StepResult :=
  match lg.referenceNameToId refname with
  | .error e => (e, out)
  | .ok oid => (0, out ++ gitOidTostr (some oid) ++ ['\n'])

/-- `get_stash_oid` -/
def getStashOid (lg : Libgit2 δ) (out : Text) : StepResult :=
  getRefOid lg "refs/stash".toList out

/-- `get_tag_master_oid` -/
def getTagMasterOid (lg : Libgit2 δ) (out : Text) : StepResult :=
  getRefOid lg "refs/tags/master".toList out

/-- `get_rev_parse_verify` -/
def getRevParseVerify (lg : Libgit2 δ) (spec out : Text) : StepResult :=
  match lg.revparseSingle spec with
  | .error e => (e, out)
  | .ok obj => (0, out ++ gitOidTostr (some obj) ++ ['\n'])

/-- `get_branch_upstream_name` -/
def getBranchUpstreamName (lg : Libgit2 δ) (branchName out : Text) : StepResult :=
  match lg.branchLookup branchName with
  | .error e => (e, out)
  | .ok branch =>
    match lg.branchUpstream branch with
    | .error e => (e, out)
    | .ok upstream =>
      match lg.branchName upstream with
      | .error e => (e, out)
      | .ok name => (0, out ++ name)

/-- `git_head_subject` -/
def gitHeadSubject (lg : Libgit2 δ) (out target : Text) : StepResult :=
  match lg.referenceLookup target with
  | .error e => (e, out)
  | .ok head =>
    match lg.referencePeelCommit head with
    | .error e => (e, out)
    | .ok commit => (0, out ++ commit.summary)

/-- A `HEAD` that names a branch which does not exist still yields the branch's name. -/
def gitSymbolicRefShortHead (lg : Libgit2 δ) (out : Text) : StepResult :=
  match lg.referenceLookup "HEAD".toList with
  | .error e => (e, out)
  | .ok headRef =>
    match headRef.target with
    | .direct _ => (gitEnotfound, out)
    | .symbolic target =>
      match lg.referenceLookup target with
      | .error _ => (0, out ++ stripPrefix "refs/heads/".toList target)
      | .ok resolvedRef => (0, out ++ lg.referenceShorthand resolvedRef)

/-- The object id goes to a buffer of its own, which an error leaves unset. -/
def gitRevHead (lg : Libgit2 δ) : ℤ × Option Oid :=
  match lg.repositoryHead.head with
  | .error e => (e, none)
  | .ok head =>
    match head.oid with
    | none => (-1, none)
    | some oid => (0, some oid)

/-! ## Configuration -/

/-- `git_config_list_z` -/
def gitConfigListZ (lg : Libgit2 δ) (out : Text) : StepResult :=
  if lg.repositoryConfig ≠ 0 then (lg.repositoryConfig, out)
  else
    match lg.configIterator with
    | .error e => (e, out)
    | .ok iter =>
      let out := iter.items.foldl
        (fun out entry => out ++ entry.name ++ ['\n'] ++ entry.value.getD [] ++ [nul]) out
      (if iter.last = gitIterover then 0 else iter.last, out)

/-- Not finding the option is no error. -/
def getConfigStatusShowUntrackedFiles (lg : Libgit2 δ) (out : Text) : StepResult :=
  if lg.repositoryConfig < 0 then (lg.repositoryConfig, out)
  else
    match lg.configGetStringBuf "status.showUntrackedFiles".toList with
    | .ok (some value) => (0, out ++ value)
    | _ => (0, out)

/-! ## Differences and status -/

/-- `git_diff_find_similar` and `git_diff_to_buf`, the end of both diff steps. -/
def diffToText (lg : Libgit2 δ) (diff : Except ℤ δ) (out : Text) : StepResult :=
  match diff with
  | .error e => (e, out)
  | .ok diff =>
    match lg.diffFindSimilar diff with
    | .error e => (e, out)
    | .ok diff =>
      match lg.diffToBuf diff with
      | .error e => (e, out)
      | .ok buf => (0, out ++ buf)

/-- An unborn `HEAD` leaves the tree NULL, so that the index is compared with the empty tree. -/
def getStaged (lg : Libgit2 δ) (out : Text) : StepResult :=
  if lg.repositoryIndex < 0 then (lg.repositoryIndex, out)
  else if lg.indexRead < 0 then (lg.indexRead, out)
  else
    match lg.repositoryHead.head with
    | .error e =>
      if e = gitEunbornbranch ∨ e = gitEnotfound then
        diffToText lg (lg.diffTreeToIndex none) out
      else (e, out)
    | .ok headRef =>
      match lg.referencePeelTree headRef with
      | .error e => (e, out)
      | .ok headTree => diffToText lg (lg.diffTreeToIndex (some headTree)) out

/-- `get_diff_patch` -/
def getDiffPatch (lg : Libgit2 δ) (out : Text) : StepResult :=
  diffToText lg lg.diffIndexToWorkdir out

def gitStatusIndexNew : UInt32 := 1
def gitStatusIndexModified : UInt32 := 2
def gitStatusIndexDeleted : UInt32 := 4
def gitStatusIndexRenamed : UInt32 := 8
def gitStatusIndexTypechange : UInt32 := 16
def gitStatusWtNew : UInt32 := 128
def gitStatusWtModified : UInt32 := 256
def gitStatusWtDeleted : UInt32 := 512
def gitStatusWtTypechange : UInt32 := 1024
def gitStatusWtRenamed : UInt32 := 2048
def gitStatusConflicted : UInt32 := 32768

/-- Whether one of the flags in `mask` is set. -/
def hasFlag (s mask : UInt32) : Bool := s &&& mask != 0

/-- The two letters of a status entry. -/
def statusLetters (s : UInt32) : Char × Char :=
  let x :=
    if hasFlag s gitStatusIndexNew then 'A'
    else if hasFlag s gitStatusIndexModified then 'M'
    else if hasFlag s gitStatusIndexDeleted then 'D'
    else if hasFlag s gitStatusIndexRenamed then 'R'
    else if hasFlag s gitStatusIndexTypechange then 'T'
    else ' '
  let y :=
    if hasFlag s gitStatusWtNew then '?'
    else if hasFlag s gitStatusWtModified then 'M'
    else if hasFlag s gitStatusWtDeleted then 'D'
    else if hasFlag s gitStatusWtRenamed then 'R'
    else if hasFlag s gitStatusWtTypechange then 'T'
    else ' '
  -- an untracked path shows `?` on the index side too
  let x :=
    if hasFlag s gitStatusWtNew && !hasFlag s (gitStatusIndexNew ||| gitStatusIndexModified
        ||| gitStatusIndexDeleted ||| gitStatusIndexRenamed ||| gitStatusIndexTypechange)
    then '?' else x
  if hasFlag s gitStatusConflicted then ('U', 'U') else (x, y)

/-- The path of a status entry and its old path, the worktree side being preferred. -/
def statusPaths (e : StatusEntry) : Option Text × Option Text :=
  let indexToWorkdirPath := e.indexToWorkdir.bind Delta.newPath
  let path :=
    match indexToWorkdirPath with
    | some path => some path
    | none => e.headToIndex.bind Delta.newPath
  let oldPath :=
    match indexToWorkdirPath, e.indexToWorkdir.bind Delta.oldPath with
    | some path, some old => if old ≠ path then some old else none
    | _, _ => none
  let oldPath :=
    match oldPath, e.headToIndex.bind Delta.oldPath, e.headToIndex.bind Delta.newPath with
    | none, some old, some new => if old ≠ new then some old else none
    | _, _, _ => oldPath
  (path, oldPath)

/-- The record of a status entry. -/
def statusRecord (e : StatusEntry) : Text :=
  if e.status = 0 then []
  else
    match statusPaths e with
    | (none, _) => []
    | (some path, oldPath) =>
      let (x, y) := statusLetters e.status
      [x, y, ' '] ++ path ++ [nul] ++
        match oldPath with
        | some oldPath => oldPath ++ [nul]
        | none => []

/-- `get_status_porcelain_z` -/
def getStatusPorcelainZ (lg : Libgit2 δ) (out : Text) : StepResult :=
  match lg.statusListNew with
  | .error e => (e, out)
  | .ok entries => (0, entries.foldl (fun out e => out ++ statusRecord e) out)

/-! ## Worktrees -/

/-- The lines about the `HEAD` of a worktree; an unborn one has none. -/
def worktreeHead (head : Head) : Text :=
  match head.head with
  | .error _ => []
  | .ok headRef =>
    "HEAD ".toList ++ gitOidTostr headRef.oid ++ [nul] ++
      if head.detached = 1 then "detached".toList ++ [nul]
      else "branch ".toList ++ headRef.name ++ [nul]

/-- The entry of a linked worktree. -/
def worktreeEntry (wt : Worktree) : Text :=
  "worktree ".toList ++ wt.path ++ [nul]
    ++ (match wt.openFromWorktree with
      | .ok head => worktreeHead head
      | .error _ => [])
    ++ (if wt.isLocked > 0 then
        "locked".toList
          ++ (match wt.lockReason with
            | some (c :: reason) => ' ' :: c :: reason
            | _ => [])
          ++ [nul]
      else [])
    ++ (if wt.isPrunable > 0 then "prunable".toList ++ [nul] else [])
    ++ [nul]

/-- `list_worktrees_porcelain` -/
def listWorktreesPorcelain (lg : Libgit2 δ) (out : Text) : StepResult :=
  let mainPath := (if lg.isBare then lg.path else lg.workdir).getD []
  let out := out ++ "worktree ".toList ++ mainPath ++ [nul] ++ worktreeHead lg.repositoryHead
    ++ (if lg.isBare then "bare".toList ++ [nul] else []) ++ [nul]
  match lg.worktreeList with
  | .error e => (e, out)
  | .ok names =>
    (0, names.foldl (fun out name =>
      match lg.worktreeLookup name with
      | .error _ => out
      | .ok wt => out ++ worktreeEntry wt) out)

/-! ## Tags -/

/-- `tag_cb`: the name it stops at, if the tag leads to the target. -/
def tagCb (lg : Libgit2 δ) (target : Oid) (name : Text) (oid : Oid) : Option Text :=
  match lg.objectLookup oid with
  | .error _ => none
  | .ok obj =>
    match lg.objectPeelCommit obj with
    | .error _ => none
    | .ok commit => if commit = target then some (stripPrefix "refs/tags/".toList name) else none

/-- `get_tag_desc_if_match` -/
def getTagDescIfMatch (lg : Libgit2 δ) (out : Text) : StepResult :=
  match lg.revparseSingle "HEAD".toList with
  | .error e => (e, out)
  | .ok target =>
    match lg.tagForeach with
    | .error e => if e < 0 ∧ e ≠ gitEnotfound then (e, out) else (0, out)
    | .ok tags =>
      match tags.findSome? fun tag => tagCb lg target tag.1 tag.2 with
      | some name => (0, out ++ name)
      | none => (0, out)

/-- Whether a listed tag points to a commit, as an annotated tag looked up by its listed name. -/
def tagPointsTo (lg : Libgit2 δ) (oid : Oid) (tagFull : Text) : Bool :=
  match lg.referenceLookup tagFull with
  | .error _ => false
  | .ok tagRef =>
    match tagRef.oid with
    | none => false
    | some tagOid =>
      match lg.tagLookup tagOid with
      | .error _ => false
      | .ok tagTarget =>
        match lg.commitLookup tagTarget with
        | .error _ => false
        | .ok _ => tagTarget = oid

/-- The walk of `get_tag_desc`: the first tagged commit, its tag and the commits passed before it,
of which at most 1000 are tried. -/
def findTag (lg : Libgit2 δ) : List Oid → ℕ → Option (Text × ℕ × Oid)
  | [], _ => none
  | oid :: oids, commitsSinceTag =>
    if commitsSinceTag < 1000 then
      match lg.commitLookup oid with
      | .error _ => findTag lg oids commitsSinceTag
      | .ok _ =>
        match lg.tagList with
        | .error _ => findTag lg oids commitsSinceTag
        | .ok tagNames =>
          match tagNames.find? (tagPointsTo lg oid) with
          | some tagFull =>
            some (stripPrefix "refs/tags/".toList tagFull, commitsSinceTag, oid)
          | none => findTag lg oids (commitsSinceTag + 1)
    else none

/-- `get_tag_desc` -/
def getTagDesc (lg : Libgit2 δ) (out : Text) : StepResult :=
  match lg.repositoryHead.head with
  | .error _ => (0, out)
  | .ok headRef =>
    match lg.referencePeelCommit headRef with
    | .error e => (e, out)
    | .ok _ =>
      if lg.revwalkNew < 0 then (lg.revwalkNew, out)
      else if lg.revwalkPushHead < 0 then (lg.revwalkPushHead, out)
      else
        match findTag lg lg.revwalk.items 0 with
        | none => (0, out)
        | some (tagName, 0, _) => (0, out ++ tagName)
        | some (tagName, commitsSinceTag, oid) =>
          (0, out ++ tagName ++ ['-'] ++ decimal commitsSinceTag ++ "-g".toList
            ++ gitOidTostr (some oid))

/-! ## Logs and branches -/

/-- A log line. -/
def logRecord (oid : Oid) (commit : Commit) : Text :=
  let message := commit.message.getD []
  gitOidTostr (some oid) ++ [ff, ff, ff]
    ++ (match commit.author with
      | some author => author.name ++ [ff] ++ decimalInt author.time
      | none => [ff] ++ decimalInt 0)
    ++ [ff] ++ message.takeWhile (· ≠ '\n') ++ ['\n']

/-- The loop of `get_log`; a commit that is not found is passed over without counting. -/
def logLoop (lg : Libgit2 δ) (limit : ℕ) : List Oid → ℕ → Text → StepResult
  | [], _, out => (if lg.revwalkByTime.last = gitIterover then 0 else lg.revwalkByTime.last, out)
  | oid :: oids, count, out =>
    if limit ≤ count then (0, out)
    else
      match lg.commitLookup oid with
      | .error _ => logLoop lg limit oids count out
      | .ok commit => logLoop lg limit oids (count + 1) (out ++ logRecord oid commit)

/-- `get_log` -/
def getLog (lg : Libgit2 δ) (limit : ℕ) (out : Text) : StepResult :=
  if lg.revwalkNew < 0 then (lg.revwalkNew, out)
  else if lg.revwalkPushHead < 0 then (lg.revwalkPushHead, out)
  else if lg.revwalkSorting < 0 then (lg.revwalkSorting, out)
  else logLoop lg limit lg.revwalkByTime.items 0 out

/-- `shorten_upstream` -/
def shortenUpstream (name : Text) : Text :=
  if "refs/remotes/".toList.isPrefixOf name then name.drop "refs/remotes/".toList.length
  else if "refs/heads/".toList.isPrefixOf name then name.drop "refs/heads/".toList.length
  else name

/-- How a branch stands to its upstream. -/
inductive Track
  | none
  | counts (ahead behind : ℕ)
  | gone
  deriving DecidableEq, Repr

/-- The track field of a branch record. -/
def trackText : Track → Text
  | .counts ahead behind =>
    if ahead ≠ 0 ∧ behind ≠ 0 then
      "[ahead ".toList ++ decimal ahead ++ ", behind ".toList ++ decimal behind ++ [']']
    else if ahead ≠ 0 then "[ahead ".toList ++ decimal ahead ++ [']']
    else if behind ≠ 0 then "[behind ".toList ++ decimal behind ++ [']']
    else []
  | .gone => "[gone]".toList
  | .none => []

/-- The upstream a branch is configured with; having none is no error. -/
def branchUpstream? (lg : Libgit2 δ) (refname : Text) : Except ℤ (Option Text) :=
  match lg.branchUpstreamName refname with
  | .ok up => .ok (some up)
  | .error e => if e = gitEnotfound then .ok none else .error e

/-- The tracking field of a branch's record. -/
def branchTrack (lg : Libgit2 δ) (upName : Option Text) (oid : Option Oid) : Except ℤ Track :=
  match upName, oid with
  | some up, some oid =>
    match lg.referenceNameToId up with
    | .ok upOid =>
      match lg.graphAheadBehind oid upOid with
      | .error e => .error e
      | .ok (ahead, behind) => .ok (.counts ahead behind)
    | .error _ => .ok .gone
  | _, _ => .ok .none

/-- The subject field of a branch's record. -/
def branchSubject (lg : Libgit2 δ) (oid : Option Oid) : Text :=
  match oid with
  | none => []
  | some oid =>
    match lg.commitLookup oid with
    | .ok commit => commit.summary
    | .error _ => []

/-- `append_branch_record` -/
def appendBranchRecord (lg : Libgit2 δ) (ref : Reference) (out : Text) : StepResult :=
  match lg.branchName ref with
  | .error e => (e, out)
  | .ok shortName =>
    match branchUpstream? lg ref.name with
    | .error e => (e, out)
    | .ok upName =>
      let oid := (lg.referenceNameToId ref.name).toOption
      match branchTrack lg upName oid with
      | .error e => (e, out)
      | .ok track =>
        (0, out ++ (if lg.branchIsHead ref = 1 then ['*'] else [' ']) ++ [nul]
          ++ shortName ++ [nul] ++ ref.name ++ [nul]
          ++ (upName.map shortenUpstream).getD [] ++ [nul] ++ upName.getD [] ++ [nul]
          ++ trackText track ++ [nul, nul, nul, nul] ++ branchSubject lg oid ++ ['\n'])

/-- The loop of `get_branch_list`, which an error in a record ends. -/
def branchLoop (lg : Libgit2 δ) (last : ℤ) : List Reference → Text → StepResult
  | [], out => (if last = gitIterover then 0 else last, out)
  | ref :: refs, out =>
    match appendBranchRecord lg ref out with
    | (ret, out) => if ret < 0 then (ret, out) else branchLoop lg last refs out

/-- `get_branch_list` -/
def getBranchList (lg : Libgit2 δ) (out : Text) : StepResult :=
  match lg.branchIterator with
  | .error e => (e, out)
  | .ok iter => branchLoop lg iter.last iter.items out

/-- `git_version_create` -/
def gitVersionCreate (lg : Libgit2 δ) : Text :=
  "git version ".toList ++ decimal lg.version.1 ++ ['.'] ++ decimal lg.version.2.1 ++ ['.']
    ++ decimal lg.version.2.2

end Magit.Git
