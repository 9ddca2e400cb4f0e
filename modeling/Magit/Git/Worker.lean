import Magit.Git.Steps
import Magit.Server.Response

/-!
# Git/Worker — the worker of a status request

`git_root_worker` runs the steps of `Git/Steps`, most of them as parallel tasks that each write to
a string of their own, and combines their codes in one condition: only if that holds is the result
set to 0, and only then will `after_git_root` answer.  The codes of the other steps do not count.
-/

namespace Magit.Git

open Server

variable {δ : Type}

/-- The branch, its upstream and the upstream's subject, each step running only if the one before
it returned 0. -/
structure BranchSteps where
  branch : StepResult
  upstreamBranch : StepResult
  upstreamSubj : StepResult

/-- The steps about the current branch, of which each needs the one before. -/
def branchSteps (lg : Libgit2 δ) : BranchSteps :=
  let branch := gitSymbolicRefShortHead lg []
  let upstreamBranch := if branch.1 = 0 then getBranchUpstreamName lg branch.2 [] else (-1, [])
  let upstreamSubj :=
    if upstreamBranch.1 = 0 then gitHeadSubject lg [] ("refs/remotes/".toList ++ upstreamBranch.2)
    else (-1, [])
  ⟨branch, upstreamBranch, upstreamSubj⟩

/-- The condition on the steps under which the worker reports success. -/
def gating (lg : Libgit2 δ) : Bool :=
  lg.workdir.isSome && (gitRevHead lg).1 = 0 && (gitConfigListZ lg []).1 = 0
    && (gitHeadSubject lg [] "HEAD".toList).1 = 0 && (getTagDescIfMatch lg []).1 = 0
    && (listWorktreesPorcelain lg []).1 = 0 && (getConfigStatusShowUntrackedFiles lg []).1 = 0
    && (getStatusPorcelainZ lg []).1 = 0

/-- `git_root_worker` -/
def gitRootWorker (lg : Libgit2 δ) (data : GitRootReqT) : GitRootReqT :=
  if lg.openExt < 0 then data
  else
    let steps := branchSteps lg
    let subj := (gitHeadSubject lg [] "HEAD".toList).2
    let data := { data with
      listZ := some (gitConfigListZ lg []).2
      headLogLine := some []
      subj := some subj
      tagDesc := some (getTagDesc lg []).2
      optTagDescHead := some (getTagDescIfMatch lg []).2
      worktreePorcelain := some (listWorktreesPorcelain lg []).2
      configStatusShowUntrackedFiles := some (getConfigStatusShowUntrackedFiles lg []).2
      status := some (getStatusPorcelainZ lg []).2
      diff := some (getDiffPatch lg []).2
      staged := some (getStaged lg []).2
      stash := some (getStashOid lg []).2
      branches := some (getBranchList lg []).2
      revisionByIdx := some (getRevParseVerify lg "HEAD~30".toList []).2
      logs := some (getLog lg 30 []).2
      revShortHead := some (getRevParseShortHead lg []).2
      tagMaster := some (getTagMasterOid lg []).2
      tagOriginMaster := some (getRefOid lg "refs/tags/origin/master".toList []).2
      tagOriginHead := some (getRefOid lg "refs/tags/origin/HEAD".toList []).2
      originHead := some (getOriginHead lg []).2
      upstreamBranchMaster := some (getUpstreamBranch lg "master".toList []).2
      isBare := if lg.isBare then 1 else 0
      branch := some steps.branch.2
      upstreamBranch := some steps.upstreamBranch.2
      upstreamSubj := some steps.upstreamSubj.2 }
    if gating lg then
      let root := lg.workdir.getD []
      let oidStr := gitOidTostr (gitRevHead lg).2
      { data with
        root := some (root.take (root.length - 1))
        revHead := some oidStr
        headLogLine := some (oidStr ++ [' '] ++ subj)
        version := some (gitVersionCreate lg)
        result := 0 }
    else data

/-- **The worker succeeds exactly if its condition holds.** -/
theorem result_gitRootWorker (lg : Libgit2 δ) {data : GitRootReqT} (hdata : data.result = -1)
    (hopen : 0 ≤ lg.openExt) :
    (gitRootWorker lg data).result = if gating lg then 0 else -1 := by
  rw [gitRootWorker, if_neg (not_lt.mpr hopen)]
  cases hg : gating lg <;> simp [hdata]

@[simp] theorem id_gitRootWorker (lg : Libgit2 δ) (data : GitRootReqT) :
    (gitRootWorker lg data).id = data.id := by
  rw [gitRootWorker]
  split
  · rfl
  · cases hg : gating lg <;> simp

/-! ## The states of a repository -/

/-- A repository with a work tree in which nothing fails that the comments of the steps do not call
normal: `HEAD` may be detached, on a branch or unborn, and the steps that do not count may find
nothing or fail. -/
structure NormalRepository (lg : Libgit2 δ) (s : RefStore) : Prop where
  refs : Refs lg s
  head : s.Detached ∨ s.OnBranch ∨ s.Unborn
  commit : ∀ {oid}, s.headOid = some oid → ∃ commit, s.commits oid = some commit
  opens : 0 ≤ lg.openExt
  workdir : lg.workdir.isSome
  config : lg.repositoryConfig = 0
  config_entries : ∃ iter, lg.configIterator = .ok iter ∧ iter.last = gitIterover
  worktrees : ∃ names, lg.worktreeList = .ok names
  status : ∃ entries, lg.statusListNew = .ok entries
  tags : ∃ tags, lg.tagForeach = .ok tags

namespace NormalRepository

variable {lg : Libgit2 δ} {s : RefStore}

/-- In a normal repository the list of the configuration does not fail. -/
theorem gitConfigListZ_eq_zero (h : NormalRepository lg s) (out : Text) :
    (gitConfigListZ lg out).1 = 0 := by
  obtain ⟨iter, hiter, hlast⟩ := h.config_entries
  rw [gitConfigListZ, if_neg (not_not.mpr h.config), hiter]
  exact if_pos hlast

theorem listWorktreesPorcelain_eq_zero (h : NormalRepository lg s) (out : Text) :
    (listWorktreesPorcelain lg out).1 = 0 := by
  obtain ⟨names, hnames⟩ := h.worktrees
  rw [listWorktreesPorcelain, hnames]

theorem getStatusPorcelainZ_eq_zero (h : NormalRepository lg s) (out : Text) :
    (getStatusPorcelainZ lg out).1 = 0 := by
  obtain ⟨entries, hentries⟩ := h.status
  rw [getStatusPorcelainZ, hentries]

theorem getConfigStatusShowUntrackedFiles_eq_zero (h : NormalRepository lg s) (out : Text) :
    (getConfigStatusShowUntrackedFiles lg out).1 = 0 := by
  rw [getConfigStatusShowUntrackedFiles, if_neg (by rw [h.config]; exact lt_irrefl 0)]
  split <;> rfl

/-- With a commit at `HEAD` the description of the tag does not fail. -/
theorem getTagDescIfMatch_eq_zero (h : NormalRepository lg s) {oid : Oid}
    (hoid : s.headOid = some oid) (out : Text) : (getTagDescIfMatch lg out).1 = 0 := by
  obtain ⟨tags, htags⟩ := h.tags
  have hrev : lg.revparseSingle "HEAD".toList = .ok oid := h.refs.revparse_ok hoid
  rw [getTagDescIfMatch, hrev, htags]
  dsimp only
  split <;> rfl

/-- With a commit at `HEAD` its hash is found. -/
theorem gitRevHead_eq_zero (h : NormalRepository lg s) {oid : Oid} (hoid : s.headOid = some oid) :
    (gitRevHead lg).1 = 0 := by
  obtain ⟨ref, hhead, htarget⟩ := h.refs.head_ok hoid
  rw [gitRevHead, hhead]
  simp only [Reference.oid, htarget]

/-- `HEAD` is stored in every state. -/
theorem exists_lookup_head (h : NormalRepository lg s) :
    ∃ ref, lg.referenceLookup RefStore.headName = .ok ref := by
  rcases h.head with ⟨oid, hhead⟩ | ⟨name, oid, hhead, -⟩ | ⟨name, hhead, -⟩ <;>
    exact ⟨_, h.refs.lookup_some hhead⟩

/-- With a commit at `HEAD` its subject is found. -/
theorem gitHeadSubject_eq_zero (h : NormalRepository lg s) {oid : Oid}
    (hoid : s.headOid = some oid) (out : Text) :
    (gitHeadSubject lg out RefStore.headName).1 = 0 := by
  obtain ⟨ref, href⟩ := h.exists_lookup_head
  obtain ⟨commit, hcommit⟩ := h.commit hoid
  rw [gitHeadSubject, href]
  simp only [h.refs.peel_ok href hoid hcommit]

/-- **A `HEAD` that leads to a commit lets every counted step succeed.** -/
theorem gating_of_headOid (h : NormalRepository lg s) {oid : Oid} (hoid : s.headOid = some oid) :
    gating lg = true := by
  have hsubj : (gitHeadSubject lg [] "HEAD".toList).1 = 0 := h.gitHeadSubject_eq_zero hoid []
  simp only [gating, h.workdir, h.gitRevHead_eq_zero hoid, h.gitConfigListZ_eq_zero, hsubj,
    h.getTagDescIfMatch_eq_zero hoid, h.listWorktreesPorcelain_eq_zero,
    h.getConfigStatusShowUntrackedFiles_eq_zero, h.getStatusPorcelainZ_eq_zero, decide_true,
    Bool.and_self]

/-- **An unborn `HEAD` fails the condition**: `git_rev_head` returns `GIT_EUNBORNBRANCH`. -/
theorem gating_of_unborn (h : NormalRepository lg s) (hunborn : s.Unborn) : gating lg = false := by
  have hrev : (gitRevHead lg).1 = gitEunbornbranch := by
    rw [gitRevHead, h.refs.head_unborn hunborn]
  have hne : ¬ gitEunbornbranch = 0 := by decide
  simp only [gating, hrev, hne, decide_false, Bool.and_false, Bool.false_and]

/-- **The condition of the worker holds exactly if `HEAD` is not unborn.** -/
theorem gating_iff (h : NormalRepository lg s) : gating lg = true ↔ ¬ s.Unborn := by
  constructor
  · intro hg hunborn
    rw [h.gating_of_unborn hunborn] at hg
    exact Bool.false_ne_true hg
  · intro hborn
    obtain ⟨oid, hoid⟩ := RefStore.exists_headOid (s := s) (by
      rcases h.head with hd | hb | hu
      · exact .inl hd
      · exact .inr hb
      · exact absurd hu hborn)
    exact h.gating_of_headOid hoid

end NormalRepository

/-! ## A repository with nothing but references -/

namespace RefStore

/-- The commit at the end of a reference, through at most one name. -/
def peel (s : RefStore) (ref : Reference) : Option Commit :=
  match ref.target with
  | .direct oid => s.commits oid
  | .symbolic name =>
    match s.refs name with
    | some (.direct oid) => s.commits oid
    | _ => none

/-- What libgit2 says about a work tree whose repository has the references of `s`, no tags, no
remotes, no options and nothing to report. -/
def libgit2 (s : RefStore) : Libgit2 Unit where
  version := (1, 9, 0)
  openExt := 0
  workdir := some "/work/".toList
  path := some "/work/.git/".toList
  isBare := false
  repositoryHead :=
    { head :=
        match s.headOid with
        | some oid => .ok ⟨headName, .direct oid⟩
        | none => .error gitEunbornbranch
      detached := 0 }
  referenceLookup name :=
    match s.refs name with
    | some target => .ok ⟨name, target⟩
    | none => .error gitEnotfound
  referenceNameToId name :=
    match s.refs name with
    | some (.direct oid) => .ok oid
    | _ => .error gitEnotfound
  referencePeelCommit ref :=
    match s.peel ref with
    | some commit => .ok commit
    | none => .error gitEnotfound
  referencePeelTree _ := .error gitEnotfound
  referenceShorthand ref := stripPrefix "refs/heads/".toList ref.name
  revparseSingle spec :=
    if spec = headName then
      match s.headOid with
      | some oid => .ok oid
      | none => .error gitEnotfound
    else .error gitEnotfound
  objectShortId oid := .ok (oid.take 7)
  objectLookup oid := .ok oid
  objectPeelCommit oid := .ok oid
  commitLookup oid :=
    match s.commits oid with
    | some commit => .ok commit
    | none => .error gitEnotfound
  branchLookup _ := .error gitEnotfound
  branchUpstream _ := .error gitEnotfound
  branchName ref := .ok (stripPrefix "refs/heads/".toList ref.name)
  branchIsHead _ := 0
  branchUpstreamName _ := .error gitEnotfound
  branchIterator := .ok ⟨[], gitIterover⟩
  graphAheadBehind _ _ := .ok (0, 0)
  revwalkNew := 0
  revwalkPushHead := 0
  revwalkSorting := 0
  revwalk := ⟨s.headOid.toList, gitIterover⟩
  revwalkByTime := ⟨s.headOid.toList, gitIterover⟩
  tagForeach := .ok []
  tagList := .ok []
  tagLookup _ := .error gitEnotfound
  repositoryConfig := 0
  configIterator := .ok ⟨[], gitIterover⟩
  configGetStringBuf _ := .error gitEnotfound
  worktreeList := .ok []
  worktreeLookup _ := .error gitEnotfound
  statusListNew := .ok []
  repositoryIndex := 0
  indexRead := 0
  diffTreeToIndex _ := .ok ()
  diffIndexToWorkdir := .ok ()
  diffFindSimilar _ := .ok ()
  diffToBuf _ := .ok []

/-- `HEAD` peels to its commit. -/
theorem peel_of_headOid {s : RefStore} {target : RefTarget} {oid : Oid}
    (htarget : s.refs headName = some target) (hoid : s.headOid = some oid) :
    s.peel ⟨headName, target⟩ = s.commits oid := by
  rw [headOid, htarget] at hoid
  cases target with
  | direct oid' => rw [Option.some.inj hoid]; rfl
  | symbolic name =>
    dsimp only at hoid
    split at hoid
    · rename_i oid' hname
      rw [← Option.some.inj hoid, peel]
      simp only [hname]
    · simp at hoid

/-- An unborn `HEAD` does not peel. -/
theorem Unborn.peel_eq_none {s : RefStore} (h : s.Unborn) {target : RefTarget}
    (htarget : s.refs headName = some target) : s.peel ⟨headName, target⟩ = none := by
  obtain ⟨name, hhead, hname⟩ := h
  rw [hhead, Option.some.injEq] at htarget
  subst htarget
  rw [peel]
  simp only [hname]

/-- A store answers as libgit2 does. -/
theorem refs_libgit2 (s : RefStore) : Refs s.libgit2 s where
  lookup_some h := by simp only [libgit2, h]
  lookup_none h := ⟨gitEnotfound, by decide, by simp only [libgit2, h]⟩
  head_ok {oid} h := ⟨⟨headName, .direct oid⟩, by simp only [libgit2, h], rfl⟩
  head_unborn h := by simp only [libgit2, h.headOid_eq_none]
  peel_ok {ref oid commit} href hoid hcommit := by
    simp only [libgit2] at href ⊢
    split at href
    · rename_i target htarget
      rw [← Except.ok.inj href, peel_of_headOid htarget hoid, hcommit]
    · simp at href
  peel_unborn {ref} href h := by
    simp only [libgit2] at href ⊢
    split at href
    · rename_i target htarget
      rw [← Except.ok.inj href, h.peel_eq_none htarget]
      exact ⟨gitEnotfound, by decide, rfl⟩
    · simp at href
  revparse_ok h := by simp only [libgit2, h, if_pos]

/-- **Nothing in it fails but what `HEAD` itself makes fail.** -/
theorem normalRepository_libgit2 {s : RefStore} (hhead : s.Detached ∨ s.OnBranch ∨ s.Unborn)
    (hcommit : ∀ {oid}, s.headOid = some oid → ∃ commit, s.commits oid = some commit) :
    NormalRepository s.libgit2 s where
  refs := s.refs_libgit2
  head := hhead
  commit := hcommit
  opens := le_refl 0
  workdir := rfl
  config := rfl
  config_entries := ⟨_, rfl, rfl⟩
  worktrees := ⟨_, rfl⟩
  status := ⟨_, rfl⟩
  tags := ⟨_, rfl⟩

/-- A new repository: `HEAD` names a branch without a commit. -/
def init : RefStore where
  refs name := if name = headName then some (.symbolic "refs/heads/master".toList) else none
  commits _ := none

/-- A repository with one commit on `master`. -/
def oneCommit : RefStore where
  refs name :=
    if name = headName then some (.symbolic "refs/heads/master".toList)
    else if name = "refs/heads/master".toList then some (.direct "c0ffee".toList) else none
  commits oid := if oid = "c0ffee".toList then some ⟨none, none, "Start".toList⟩ else none

theorem unborn_init : init.Unborn := ⟨"refs/heads/master".toList, rfl, rfl⟩

theorem normalRepository_init : NormalRepository init.libgit2 init :=
  normalRepository_libgit2 (.inr (.inr unborn_init)) fun h =>
    absurd (h.symm.trans unborn_init.headOid_eq_none) (by simp)

theorem headOid_oneCommit : oneCommit.headOid = some "c0ffee".toList := rfl

theorem not_unborn_oneCommit : ¬ oneCommit.Unborn := fun h =>
  absurd (headOid_oneCommit.symm.trans h.headOid_eq_none) (by simp)

/-- A repository with one commit is normal. -/
theorem normalRepository_oneCommit : NormalRepository oneCommit.libgit2 oneCommit := by
  refine normalRepository_libgit2 (.inr (.inl ⟨"refs/heads/master".toList, _, rfl, rfl⟩)) ?_
  intro oid h
  rw [headOid_oneCommit] at h
  exact ⟨_, by rw [← Option.some.inj h]; rfl⟩

end RefStore

end Magit.Git
