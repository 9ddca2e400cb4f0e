import Magit.Emacs.SplitString
import Magit.Git.Worker

/-!
# Client/Worktrees — the list of worktrees

`list_worktrees_porcelain` writes a record of lines for each worktree, and `magit-list-worktrees`
makes an element of each record again.  It asks whether a line is a prefix of `locked` where it
should be the other way round, and so misses a lock that has a reason (`worktrees_listed_iff`).
-/

namespace Magit.Client

open Emacs Git

/-! ## `magit-list-worktrees` -/

/-- `nil`, `t` or a string. -/
inductive LispFlag
  | nil
  | t
  | str (s : Text)
  deriving DecidableEq

/-- `(PATH COMMIT BRANCH BARE DETACHED LOCKED PRUNABLE)`. -/
structure WorktreeElement where
  path : Text
  commit : Option Text := none
  branch : Option Text := none
  bare : LispFlag := .nil
  detached : Bool := false
  locked : LispFlag := .nil
  prunable : LispFlag := .nil
  deriving DecidableEq

/-- What is asked about directories; the answers about a bare worktree are given in its directory. -/
structure Directories where
  remote : Text
  toplevel : Text → Option Text
  coreBare : Text → Bool
  coreWorktree : Text → Option Text
  expandFileName : Text → Text → Text
  fileExists : Text → Bool
  revParseHead : Text → Option Text
  currentBranch : Text → Option Text

variable (dirs : Directories)

/-- The path of a worktree that Git reports under `path`. -/
def Directories.worktreePath (path : Text) : Text :=
  (dirs.toplevel (dirs.remote ++ path)).getD (dirs.remote ++ path)

/-- `(setf (nth n worktree) value)`, which signals before the first worktree. -/
def setWorktree (f : WorktreeElement → WorktreeElement) :
    List WorktreeElement → Option (List WorktreeElement)
  | [] => none
  | worktree :: worktrees => some (f worktree :: worktrees)

/-- What a line `bare` makes of the worktree. -/
def bareWorktree (worktree : WorktreeElement) : WorktreeElement :=
  let dir := worktree.path
  let wt := if dirs.coreBare dir then none else dirs.coreWorktree dir
  match wt with
  | none => { worktree with bare := .t }
  | some wt =>
    if dirs.fileExists (dirs.expandFileName dir wt) then
      { worktree with
        path := dirs.expandFileName dir wt
        branch := dirs.revParseHead dir
        bare := match dirs.currentBranch dir with
          | none => .nil
          | some branch => .str branch }
    else { worktree with bare := .t }

/-- One turn of the `dolist`; the worktree read last is the first of the list. -/
def worktreeLine (worktrees : List WorktreeElement) (line : Text) : Option (List WorktreeElement) :=
  if "worktree".toList.isPrefixOf line then
    (substring line 9).map fun path => ⟨dirs.worktreePath path, none, none, .nil, false, .nil, .nil⟩
      :: worktrees
  else if "HEAD".toList.isPrefixOf line then
    (substring line 5).bind fun commit => setWorktree ({ · with commit := some commit }) worktrees
  else if "branch".toList.isPrefixOf line then
    (substring line 18).bind fun branch => setWorktree ({ · with branch := some branch }) worktrees
  else if line = "bare".toList then setWorktree (bareWorktree dirs) worktrees
  else if line = "detached".toList then setWorktree ({ · with detached := true }) worktrees
  else if line.isPrefixOf "locked".toList then
    (if 6 < line.length then (substring line 7).map .str else some .t).bind fun locked =>
      setWorktree ({ · with locked := locked }) worktrees
  else if line.isPrefixOf "prunable".toList then
    (if 8 < line.length then (substring line 9).map .str else some .t).bind fun prunable =>
      setWorktree ({ · with prunable := prunable }) worktrees
  else some worktrees

/-- `magit-list-worktrees` on the lines of `magit-worktree-porcelain`. -/
def magitListWorktrees (lines : List Text) : Option (List WorktreeElement) :=
  (lines.foldlM (worktreeLine dirs) []).map List.reverse

/-- `magit-worktree-porcelain` on the field of a response. -/
def magitWorktreePorcelain (worktreePorcelain : Text) : List Text :=
  splitString nul worktreePorcelain

/-! ## What libgit2 reports -/

/-- What git says of a worktree's head. -/
inductive HeadReport
  | unborn
  | detached (oid : Oid)
  | branch (name : Text) (oid : Oid)

/-- A worktree; `locked` is the reason of a lock. -/
structure WorktreeReport where
  path : Text
  head : HeadReport
  locked : Option Text
  prunable : Bool

/-- The answers about a `HEAD`. -/
def HeadReport.Of : HeadReport → Head → Prop
  | unborn, head => ∃ e, head.head = .error e
  | detached oid, head => ∃ name, head.head = .ok ⟨name, .direct oid⟩ ∧ head.detached = 1
  | branch name oid, head =>
    head.head = .ok ⟨"refs/heads/".toList ++ name, .direct oid⟩ ∧ head.detached ≠ 1

/-- The answers about a linked worktree; one that cannot be opened has no `HEAD`. -/
structure WorktreeReport.Of (r : WorktreeReport) (wt : Worktree) : Prop where
  path : wt.path = r.path
  head : (∃ head, wt.openFromWorktree = .ok head ∧ r.head.Of head)
    ∨ (∃ e, wt.openFromWorktree = .error e) ∧ r.head = .unborn
  locked : r.locked = if 0 < wt.isLocked then some (wt.lockReason.getD []) else none
  prunable : r.prunable = decide (0 < wt.isPrunable)

/-- The answers about a repository that is not bare: its main worktree, which has no lock, and the
linked ones that are found. -/
structure Reports {δ : Type} (lg : Libgit2 δ) (main : WorktreeReport)
    (linked : List WorktreeReport) : Prop where
  not_bare : lg.isBare = false
  workdir : lg.workdir = some main.path
  head : main.head.Of lg.repositoryHead
  unlocked : main.locked = none ∧ main.prunable = false
  names : ∃ names, lg.worktreeList = .ok names
    ∧ List.Forall₂ WorktreeReport.Of linked
      (names.filterMap fun name => (lg.worktreeLookup name).toOption)

/-! ## The lines of a record -/

/-- The lines about the head. -/
def headLines : HeadReport → List Text
  | .unborn => []
  | .detached oid => ["HEAD ".toList ++ oid, "detached".toList]
  | .branch name oid => ["HEAD ".toList ++ oid, "branch ".toList ++ ("refs/heads/".toList ++ name)]

/-- The lines about a lock, with its reason. -/
def lockLines : Option Text → List Text
  | none => []
  | some [] => ["locked".toList]
  | some (c :: reason) => ["locked".toList ++ ' ' :: c :: reason]

/-- The lines about a worktree that can be pruned. -/
def prunableLines (prunable : Bool) : List Text := if prunable then ["prunable".toList] else []

/-- All lines of a worktree's record. -/
def recordLines (r : WorktreeReport) : List Text :=
  ("worktree ".toList ++ r.path)
    :: (headLines r.head ++ (lockLines r.locked ++ prunableLines r.prunable))

/-- The lines of the `HEAD` of a working tree, each ended by NUL. -/
theorem worktreeHead_eq {hr : HeadReport} {head : Head} (h : hr.Of head) :
    worktreeHead head = terminated nul (headLines hr) := by
  cases hr with
  | unborn =>
    obtain ⟨e, he⟩ := h
    rw [worktreeHead, he]
    rfl
  | detached oid =>
    obtain ⟨name, hok, hdetached⟩ := h
    rw [worktreeHead, hok]
    simp only [hdetached, if_true, headLines, terminated_cons, terminated_nil, Reference.oid,
      gitOidTostr, Option.getD_some, List.append_assoc, List.cons_append, List.nil_append]
  | branch name oid =>
    obtain ⟨hok, hdetached⟩ := h
    rw [worktreeHead, hok]
    simp only [hdetached, if_false, headLines, terminated_cons, terminated_nil, Reference.oid,
      gitOidTostr, Option.getD_some, List.append_assoc, List.cons_append, List.nil_append]

/-- The part of an entry about a lock. -/
theorem lock_eq {r : WorktreeReport} {wt : Worktree} (h : r.Of wt) :
    (if wt.isLocked > 0 then
        "locked".toList
          ++ (match wt.lockReason with
            | some (c :: reason) => ' ' :: c :: reason
            | _ => [])
          ++ [nul]
      else []) = terminated nul (lockLines r.locked) := by
  rw [h.locked]
  by_cases hlocked : 0 < wt.isLocked
  · rw [if_pos hlocked, if_pos hlocked]
    rcases wt.lockReason with _ | _ | ⟨c, reason⟩
    · rfl
    · rfl
    · rw [Option.getD_some, lockLines, terminated_cons, terminated_nil]
  · rw [if_neg hlocked, if_neg hlocked]
    rfl

/-- The part of an entry about pruning. -/
theorem prunable_eq {r : WorktreeReport} {wt : Worktree} (h : r.Of wt) :
    (if wt.isPrunable > 0 then "prunable".toList ++ [nul] else [])
      = terminated nul (prunableLines r.prunable) := by
  rw [h.prunable, prunableLines]
  by_cases hp : 0 < wt.isPrunable
  · rw [if_pos hp, if_pos (decide_eq_true hp), terminated_cons, terminated_nil]
  · rw [if_neg hp, if_neg (by simpa using hp), terminated_nil]

/-- The part of an entry about `HEAD`. -/
theorem head_eq {r : WorktreeReport} {wt : Worktree} (h : r.Of wt) :
    (match wt.openFromWorktree with
      | .ok head => worktreeHead head
      | .error _ => []) = terminated nul (headLines r.head) := by
  obtain ⟨head, hopen, hof⟩ | ⟨⟨e, hopen⟩, hunborn⟩ := h.head
  · rw [hopen]
    exact worktreeHead_eq hof
  · rw [hopen, hunborn]
    rfl

/-- The record of a working tree, ended by an empty line. -/
theorem worktreeEntry_eq {r : WorktreeReport} {wt : Worktree} (h : r.Of wt) :
    worktreeEntry wt = terminated nul (recordLines r ++ [[]]) := by
  have hparts : worktreeEntry wt = "worktree ".toList ++ wt.path ++ [nul]
      ++ terminated nul (headLines r.head) ++ terminated nul (lockLines r.locked)
      ++ terminated nul (prunableLines r.prunable) ++ [nul] := by
    rw [← head_eq h, ← lock_eq h, ← prunable_eq h]
    rfl
  simp only [hparts, recordLines, h.path, terminated_append, terminated_cons, terminated_nil,
    List.cons_append, List.append_assoc, List.nil_append]

/-- The records of the linked working trees that can be looked up. -/
theorem foldl_worktreeEntry {δ : Type} {lg : Libgit2 δ} {names : List Text}
    {linked : List WorktreeReport}
    (h : List.Forall₂ WorktreeReport.Of linked
      (names.filterMap fun name => (lg.worktreeLookup name).toOption)) (out : Text) :
    names.foldl (fun out name =>
      match lg.worktreeLookup name with
      | .error _ => out
      | .ok wt => out ++ worktreeEntry wt) out
        = out ++ terminated nul (linked.flatMap fun r => recordLines r ++ [[]]) := by
  induction names generalizing linked out with
  | nil =>
    cases h
    simp
  | cons name names ih =>
    rcases hname : lg.worktreeLookup name with e | wt
    · rw [List.filterMap_cons_none (by rw [hname]; rfl)] at h
      simpa only [List.foldl_cons, hname] using ih h out
    · rw [List.filterMap_cons_some (by rw [hname]; rfl)] at h
      cases h with
      | cons hr hrest =>
        simp only [List.foldl_cons, hname]
        rw [ih hrest, worktreeEntry_eq hr, List.flatMap_cons, List.append_assoc,
          ← terminated_append]

/-- The response is the records of the main working tree and of the linked ones. -/
theorem listWorktreesPorcelain_eq {δ : Type} {lg : Libgit2 δ} {main : WorktreeReport}
    {linked : List WorktreeReport} (h : Reports lg main linked) :
    (listWorktreesPorcelain lg []).2
      = terminated nul ((main :: linked).flatMap fun r => recordLines r ++ [[]]) := by
  obtain ⟨names, hnames, hlinked⟩ := h.names
  have hfold (out : Text) : names.foldl (fun out name =>
      match lg.worktreeLookup name with
      | .error _ => out
      | .ok wt => out ++ worktreeEntry wt) out
        = out ++ terminated nul (linked.flatMap fun r => recordLines r ++ [[]]) :=
    foldl_worktreeEntry hlinked out
  have hmain : [] ++ "worktree ".toList ++ lg.workdir.getD [] ++ [nul]
      ++ worktreeHead lg.repositoryHead ++ [] ++ [nul]
        = terminated nul (recordLines main ++ [[]]) := by
    rw [h.workdir, worktreeHead_eq h.head, recordLines, h.unlocked.1, h.unlocked.2]
    simp only [lockLines, prunableLines, terminated_append, terminated_cons, terminated_nil,
      Bool.false_eq_true, if_false, List.append_nil, Option.getD_some, List.nil_append,
      List.append_assoc, List.cons_append]
  rw [listWorktreesPorcelain, hnames, h.not_bare, List.flatMap_cons, terminated_append, ← hmain]
  exact hfold _

/-! ## The elements of the records -/

section

variable (dirs : Directories)

/-- The `HEAD` of an element. -/
def withHead : HeadReport → WorktreeElement → WorktreeElement
  | .unborn, worktree => worktree
  | .detached oid, worktree => { worktree with commit := some oid, detached := true }
  | .branch name oid, worktree => { worktree with commit := some oid, branch := some name }

/-- How a lock shows in an element. -/
def lockFlag : Option Text → LispFlag
  | none => .nil
  | some [] => .t
  | some (c :: reason) => .str (c :: reason)

/-- How it shows in the result of `magit-list-worktrees`. -/
def listedLockFlag : Option Text → LispFlag
  | none => .nil
  | some [] => .t
  | some (_ :: _) => .nil

/-- The element of a worktree whose lock shows as `locked`. -/
def element (locked : LispFlag) (r : WorktreeReport) : WorktreeElement :=
  withHead r.head
    { path := dirs.worktreePath r.path
      locked := locked
      prunable := if r.prunable then .t else .nil }

theorem worktreeLine_path (worktrees : List WorktreeElement) (path : Text) :
    worktreeLine dirs worktrees ("worktree ".toList ++ path)
      = some ({ path := dirs.worktreePath path } :: worktrees) :=
  rfl

/-- The lines of a `HEAD` are read back. -/
theorem foldlM_headLines (head : HeadReport) (worktree : WorktreeElement)
    (worktrees : List WorktreeElement) :
    (headLines head).foldlM (worktreeLine dirs) (worktree :: worktrees)
      = some (withHead head worktree :: worktrees) := by
  cases head <;> rfl

/-- The line of a lock is read back as far as it is. -/
theorem foldlM_lockLines (locked : Option Text) (worktree : WorktreeElement)
    (h : worktree.locked = .nil) (worktrees : List WorktreeElement) :
    (lockLines locked).foldlM (worktreeLine dirs) (worktree :: worktrees)
      = some ({ worktree with locked := listedLockFlag locked } :: worktrees) := by
  obtain _ | _ | ⟨c, reason⟩ := locked
  · rw [listedLockFlag, ← h]
    rfl
  · rfl
  · rw [listedLockFlag, ← h]
    rfl

/-- The line for a prunable working tree is read back. -/
theorem foldlM_prunableLines (prunable : Bool) (worktree : WorktreeElement)
    (h : worktree.prunable = .nil) (worktrees : List WorktreeElement) :
    (prunableLines prunable).foldlM (worktreeLine dirs) (worktree :: worktrees)
      = some ({ worktree with prunable := if prunable then .t else .nil } :: worktrees) := by
  cases prunable
  · simp only [Bool.false_eq_true, if_false, ← h]
    rfl
  · rfl

/-- **A record makes one element.** -/
theorem foldlM_recordLines (r : WorktreeReport) (worktrees : List WorktreeElement) :
    (recordLines r).foldlM (worktreeLine dirs) worktrees
      = some (element dirs (listedLockFlag r.locked) r :: worktrees) := by
  rw [recordLines, List.foldlM_cons, worktreeLine_path, Option.bind_eq_bind, Option.bind_some,
    List.foldlM_append, foldlM_headLines, Option.bind_eq_bind, Option.bind_some,
    List.foldlM_append, foldlM_lockLines, Option.bind_eq_bind, Option.bind_some,
    foldlM_prunableLines]
  · rcases r with ⟨path, _ | _ | _, locked, prunable⟩ <;> rfl
  · rcases r with ⟨path, _ | _ | _, locked, prunable⟩ <;> rfl
  · rcases r with ⟨path, _ | _ | _, locked, prunable⟩ <;> rfl

/-- …and several records several. -/
theorem magitListWorktrees_records (reports : List WorktreeReport) :
    magitListWorktrees dirs (reports.flatMap recordLines)
      = some (reports.map fun r => element dirs (listedLockFlag r.locked) r) := by
  have hfold (worktrees : List WorktreeElement) :
      (reports.flatMap recordLines).foldlM (worktreeLine dirs) worktrees
        = some ((reports.map fun r => element dirs (listedLockFlag r.locked) r).reverse
          ++ worktrees) := by
    induction reports generalizing worktrees with
    | nil => rfl
    | cons r reports ih =>
      rw [List.flatMap_cons, List.foldlM_append, foldlM_recordLines, Option.bind_eq_bind,
        Option.bind_some, ih, List.map_cons, List.reverse_cons, List.append_assoc]
      rfl
  rw [magitListWorktrees, hfold, List.append_nil, Option.map_some, List.reverse_reverse]

/-- The strings in a report. -/
def WorktreeReport.texts (r : WorktreeReport) : List Text :=
  r.path :: r.locked.toList ++ match r.head with
    | .unborn => []
    | .detached oid => [oid]
    | .branch name oid => [name, oid]

/-- A record has no NUL in it, and no empty line. -/
theorem recordLines_nul {r : WorktreeReport} (h : ∀ text ∈ r.texts, nul ∉ text) :
    ∀ line ∈ recordLines r, nul ∉ line ∧ line ≠ [] := by
  have hline (key : Text) (hkey : nul ∉ key ∧ key ≠ []) {text : Text} (htext : nul ∉ text) :
      nul ∉ key ++ text ∧ key ++ text ≠ [] := by
    simp [hkey.1, hkey.2, htext]
  have hpath := hline "worktree ".toList (by decide) (h r.path (by simp [WorktreeReport.texts]))
  have hhead : ∀ line ∈ headLines r.head, nul ∉ line ∧ line ≠ [] := by
    rcases r with ⟨path, _ | oid | ⟨name, oid⟩, locked, prunable⟩
    · simp [headLines]
    · have hoid : nul ∉ oid := h oid (by simp [WorktreeReport.texts])
      simp only [headLines, List.forall_mem_cons, List.not_mem_nil, false_imp_iff, implies_true,
        and_true]
      exact ⟨hline "HEAD ".toList (by decide) hoid, by decide, by decide⟩
    · have hoid : nul ∉ oid := h oid (by simp [WorktreeReport.texts])
      have hname : nul ∉ name := h name (by simp [WorktreeReport.texts])
      simp only [headLines, List.forall_mem_cons, List.not_mem_nil, false_imp_iff, implies_true,
        and_true]
      exact ⟨hline "HEAD ".toList (by decide) hoid, hline "branch ".toList (by decide)
        (hline "refs/heads/".toList (by decide) hname).1⟩
  have hlock : ∀ line ∈ lockLines r.locked, nul ∉ line ∧ line ≠ [] := by
    rcases r with ⟨path, head, _ | _ | ⟨c, reason⟩, prunable⟩
    · simp [lockLines]
    · simp only [lockLines]
      decide
    · have hreason : nul ∉ c :: reason := h _ (by simp [WorktreeReport.texts])
      simp only [lockLines, List.forall_mem_cons, List.not_mem_nil, false_imp_iff, implies_true,
        and_true]
      refine hline "locked".toList (by decide) ?_
      have hspace : nul ≠ ' ' := by decide
      rw [List.mem_cons, not_or]
      exact ⟨hspace, hreason⟩
  have hprunable : ∀ line ∈ prunableLines r.prunable, nul ∉ line ∧ line ≠ [] := by
    cases r.prunable <;> decide
  rw [recordLines]
  simp only [List.forall_mem_cons, List.forall_mem_append]
  exact ⟨hpath, hhead, hlock, hprunable⟩

/-- The lines the client gets. -/
theorem magitWorktreePorcelain_records {reports : List WorktreeReport}
    (hnul : ∀ r ∈ reports, ∀ text ∈ r.texts, nul ∉ text) :
    magitWorktreePorcelain (terminated nul (reports.flatMap fun r => recordLines r ++ [[]]))
      = reports.flatMap recordLines := by
  have hitems : ∀ item ∈ reports.flatMap fun r => recordLines r ++ [[]], nul ∉ item := by
    intro item hitem
    obtain ⟨r, hr, hmem⟩ := List.mem_flatMap.mp hitem
    obtain hmem | hmem := List.mem_append.mp hmem
    · exact (recordLines_nul (hnul r hr) item hmem).1
    · rw [List.mem_singleton.mp hmem]
      exact List.not_mem_nil
  rw [magitWorktreePorcelain, splitString_terminated hitems, List.filter_flatMap]
  refine List.flatMap_congr fun r hr => ?_
  rw [List.filter_append, List.filter_eq_self.mpr fun line hline =>
    decide_eq_true (recordLines_nul (hnul r hr) line hline).2]
  simp

/-- **Every worktree is listed as it is** exactly if no lock has a reason. -/
theorem worktrees_listed_iff {δ : Type} {lg : Libgit2 δ} {main : WorktreeReport}
    {linked : List WorktreeReport} (h : Reports lg main linked)
    (hnul : ∀ r ∈ main :: linked, ∀ text ∈ r.texts, nul ∉ text) :
    magitListWorktrees dirs (magitWorktreePorcelain (listWorktreesPorcelain lg []).2)
        = some ((main :: linked).map fun r => element dirs (lockFlag r.locked) r)
      ↔ ∀ r ∈ main :: linked, ∀ reason, r.locked = some reason → reason = [] := by
  rw [listWorktreesPorcelain_eq h, magitWorktreePorcelain_records hnul, magitListWorktrees_records,
    Option.some_inj, List.map_inj_left]
  refine forall₂_congr fun r _ => ?_
  have hlocked (flag : LispFlag) : (element dirs flag r).locked = flag := by
    rcases r with ⟨path, _ | _ | _, locked, prunable⟩ <;> rfl
  constructor
  · intro heq reason hreason
    have hflags := congrArg WorktreeElement.locked heq
    rw [hlocked, hlocked, hreason] at hflags
    cases reason with
    | nil => rfl
    | cons c reason => simp [listedLockFlag, lockFlag] at hflags
  · intro hreason
    rcases hr : r.locked with _ | _ | ⟨c, reason⟩
    · rfl
    · rfl
    · exact absurd (hreason _ hr) (by simp)

end

/-- Directories that are the top of their own worktree. -/
def plainDirectories : Directories where
  remote := []
  toplevel path := some (if path.getLast? = some '/' then path else path ++ ['/'])
  coreBare _ := false
  coreWorktree _ := none
  expandFileName dir name := dir ++ name
  fileExists _ := false
  revParseHead _ := none
  currentBranch _ := none

/-- The main worktree on `master`. -/
def mainReport : WorktreeReport :=
  ⟨"/work/".toList, .branch "master".toList "c0ffee".toList, none, false⟩

/-- A worktree with a detached `HEAD` and a lock, whose directory is gone. -/
def linkedReport (reason : Text) : WorktreeReport :=
  ⟨"/usb".toList, .detached "c0ffee".toList, some reason, true⟩

/-- What libgit2 says of these. -/
def withLinked (reason : Text) : Libgit2 Unit :=
  { RefStore.oneCommit.libgit2 with
    repositoryHead :=
      ⟨.ok ⟨"refs/heads/".toList ++ "master".toList, .direct "c0ffee".toList⟩, 0⟩
    worktreeList := .ok ["usb".toList]
    worktreeLookup := fun _ => .ok
      { path := "/usb".toList
        openFromWorktree := .ok ⟨.ok ⟨"HEAD".toList, .direct "c0ffee".toList⟩, 1⟩
        isLocked := 1
        lockReason := some reason
        isPrunable := 1 } }

theorem reports_withLinked (reason : Text) :
    Reports (withLinked reason) mainReport [linkedReport reason] where
  not_bare := rfl
  workdir := rfl
  head := ⟨rfl, show (0 : ℤ) ≠ 1 by decide⟩
  unlocked := ⟨rfl, rfl⟩
  names := ⟨_, rfl, .cons ⟨rfl, .inl ⟨_, rfl, _, rfl, rfl⟩, rfl, rfl⟩ .nil⟩

/-- The two working trees of the example are listed. -/
theorem worktrees_listed_withLinked :
    magitListWorktrees plainDirectories
        (magitWorktreePorcelain (listWorktreesPorcelain (withLinked []) []).2)
      = some [{ path := "/work/".toList, commit := some "c0ffee".toList,
                branch := some "master".toList },
              { path := "/usb/".toList, commit := some "c0ffee".toList, detached := true,
                locked := .t, prunable := .t }] :=
  (worktrees_listed_iff plainDirectories (reports_withLinked []) (by decide)).mpr (by decide)

/-- **The reason is lost, and with it the lock.** -/
theorem lock_reason_lost :
    let result := magitListWorktrees plainDirectories
      (magitWorktreePorcelain (listWorktreesPorcelain (withLinked "on a stick".toList) []).2)
    result = some [{ path := "/work/".toList, commit := some "c0ffee".toList,
                     branch := some "master".toList },
                   { path := "/usb/".toList, commit := some "c0ffee".toList, detached := true,
                     locked := .nil, prunable := .t }]
      ∧ result ≠ some ([mainReport, linkedReport "on a stick".toList].map fun r =>
          element plainDirectories (lockFlag r.locked) r) := by
  constructor <;> decide

end Magit.Client
