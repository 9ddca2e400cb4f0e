import Magit.Msgpack.Object

/-!
# Git/Libgit2 — what the worker asks of libgit2

libgit2 is not part of the repository.  A `Libgit2` is the answers it gives about one opened
repository: one field for each call the worker's steps make, an error code being the negative
number the call returns.  `Refs` says what the documentation of the reference calls promises about
a reference store, and is what results about a repository's state rest on.
-/

namespace Magit.Git

/-- `GIT_ENOTFOUND` -/
def gitEnotfound : ℤ := -3
/-- `GIT_EUNBORNBRANCH` -/
def gitEunbornbranch : ℤ := -9
/-- `GIT_ITEROVER` -/
def gitIterover : ℤ := -31

/-- An object id, in hexadecimal. -/
abbrev Oid := Text

/-- `git_reference_type` with `git_reference_target` or `git_reference_symbolic_target`. -/
inductive RefTarget
  | direct (oid : Oid)
  | symbolic (target : Text)
  deriving DecidableEq, Repr

/-- `git_reference` -/
structure Reference where
  name : Text
  target : RefTarget
  deriving DecidableEq, Repr

/-- `git_reference_target`: NULL for a symbolic reference. -/
def Reference.oid (ref : Reference) : Option Oid :=
  match ref.target with
  | .direct oid => some oid
  | .symbolic _ => none

/-- `git_signature` -/
structure Signature where
  name : Text
  time : ℤ
  deriving DecidableEq, Repr

/-- `git_commit` -/
structure Commit where
  author : Option Signature
  message : Option Text
  summary : Text
  deriving DecidableEq, Repr

/-- `git_config_entry` -/
structure ConfigEntry where
  name : Text
  value : Option Text
  deriving DecidableEq, Repr

/-- The two paths of a `git_diff_delta`. -/
structure Delta where
  oldPath : Option Text
  newPath : Option Text
  deriving DecidableEq, Repr

/-- `git_status_entry` -/
structure StatusEntry where
  status : UInt32
  headToIndex : Option Delta
  indexToWorkdir : Option Delta
  deriving DecidableEq, Repr

/-- The `HEAD` of a repository: `git_repository_head` and `git_repository_head_detached`. -/
structure Head where
  head : Except ℤ Reference
  detached : ℤ

/-- `git_worktree`, with what is asked of it. -/
structure Worktree where
  path : Text
  openFromWorktree : Except ℤ Head
  isLocked : ℤ
  lockReason : Option Text
  isPrunable : ℤ

/-- What an iterator yields, and the code that ends it. -/
structure Walk (α : Type) where
  items : List α
  last : ℤ

/-- The answers of libgit2 about one repository; `δ` is its diffs. -/
structure Libgit2 (δ : Type) where
  version : ℕ × ℕ × ℕ
  openExt : ℤ
  workdir : Option Text
  path : Option Text
  isBare : Bool
  repositoryHead : Head
  referenceLookup : Text → Except ℤ Reference
  referenceNameToId : Text → Except ℤ Oid
  referencePeelCommit : Reference → Except ℤ Commit
  referencePeelTree : Reference → Except ℤ Oid
  referenceShorthand : Reference → Text
  revparseSingle : Text → Except ℤ Oid
  objectShortId : Oid → Except ℤ Text
  objectLookup : Oid → Except ℤ Oid
  objectPeelCommit : Oid → Except ℤ Oid
  commitLookup : Oid → Except ℤ Commit
  branchLookup : Text → Except ℤ Reference
  branchUpstream : Reference → Except ℤ Reference
  branchName : Reference → Except ℤ Text
  branchIsHead : Reference → ℤ
  branchUpstreamName : Text → Except ℤ Text
  branchIterator : Except ℤ (Walk Reference)
  graphAheadBehind : Oid → Oid → Except ℤ (ℕ × ℕ)
  revwalkNew : ℤ
  revwalkPushHead : ℤ
  revwalkSorting : ℤ
  revwalk : Walk Oid
  revwalkByTime : Walk Oid
  tagForeach : Except ℤ (List (Text × Oid))
  tagList : Except ℤ (List Text)
  tagLookup : Oid → Except ℤ Oid
  repositoryConfig : ℤ
  configIterator : Except ℤ (Walk ConfigEntry)
  configGetStringBuf : Text → Except ℤ (Option Text)
  worktreeList : Except ℤ (List Text)
  worktreeLookup : Text → Except ℤ Worktree
  statusListNew : Except ℤ (List StatusEntry)
  repositoryIndex : ℤ
  indexRead : ℤ
  diffTreeToIndex : Option Oid → Except ℤ δ
  diffIndexToWorkdir : Except ℤ δ
  diffFindSimilar : δ → Except ℤ δ
  diffToBuf : δ → Except ℤ Text

/-! ## Reference stores -/

/-- The references of a repository and the commits of its object database. -/
structure RefStore where
  refs : Text → Option RefTarget
  commits : Oid → Option Commit

namespace RefStore

/-- The name `HEAD` is stored under. -/
def headName : Text := "HEAD".toList

/-- `HEAD` holds an object id itself. -/
def Detached (s : RefStore) : Prop := ∃ oid, s.refs headName = some (.direct oid)

/-- `HEAD` names a branch that holds an object id. -/
def OnBranch (s : RefStore) : Prop :=
  ∃ name oid, s.refs headName = some (.symbolic name) ∧ s.refs name = some (.direct oid)

/-- `HEAD` names a branch that does not exist yet. -/
def Unborn (s : RefStore) : Prop :=
  ∃ name, s.refs headName = some (.symbolic name) ∧ s.refs name = none

/-- The object id at the end of `HEAD`, through at most one name. -/
def headOid (s : RefStore) : Option Oid :=
  match s.refs headName with
  | some (.direct oid) => some oid
  | some (.symbolic name) =>
    match s.refs name with
    | some (.direct oid) => some oid
    | _ => none
  | none => none

theorem Unborn.headOid_eq_none {s : RefStore} (h : s.Unborn) : s.headOid = none := by
  obtain ⟨name, hhead, hname⟩ := h
  rw [headOid, hhead]
  simp only [hname]

/-- Every other `HEAD` has one. -/
theorem exists_headOid {s : RefStore} (h : s.Detached ∨ s.OnBranch) :
    ∃ oid, s.headOid = some oid := by
  obtain ⟨oid, hhead⟩ | ⟨name, oid, hhead, hname⟩ := h
  · exact ⟨oid, by rw [headOid, hhead]⟩
  · refine ⟨oid, ?_⟩
    rw [headOid, hhead]
    simp only [hname]

end RefStore

/-- What the documentation of the reference calls promises about a store. -/
structure Refs {δ : Type} (lg : Libgit2 δ) (s : RefStore) : Prop where
  /-- `git_reference_lookup` finds a name that is stored. -/
  lookup_some : ∀ {name target}, s.refs name = some target →
    lg.referenceLookup name = .ok ⟨name, target⟩
  /-- …and returns an error code for one that is not: `GIT_ENOTFOUND`, or `GIT_EINVALIDSPEC` if the
  name is none that a reference could have. -/
  lookup_none : ∀ {name}, s.refs name = none → ∃ e, e ≠ 0 ∧ lg.referenceLookup name = .error e
  /-- `git_repository_head` resolves `HEAD` to a direct reference. -/
  head_ok : ∀ {oid}, s.headOid = some oid →
    ∃ ref, lg.repositoryHead.head = .ok ref ∧ ref.target = .direct oid
  /-- …and returns `GIT_EUNBORNBRANCH` if `HEAD` names a branch that does not exist. -/
  head_unborn : s.Unborn → lg.repositoryHead.head = .error gitEunbornbranch
  /-- `git_reference_peel` follows `HEAD` to its commit. -/
  peel_ok : ∀ {ref oid commit}, lg.referenceLookup RefStore.headName = .ok ref →
    s.headOid = some oid → s.commits oid = some commit → lg.referencePeelCommit ref = .ok commit
  /-- …and returns an error code if it leads nowhere. -/
  peel_unborn : ∀ {ref}, lg.referenceLookup RefStore.headName = .ok ref → s.Unborn →
    ∃ e, e ≠ 0 ∧ lg.referencePeelCommit ref = .error e
  /-- `git_revparse_single` of `HEAD` gives the object `HEAD` leads to. -/
  revparse_ok : ∀ {oid}, s.headOid = some oid → lg.revparseSingle RefStore.headName = .ok oid

/-- What the documentation promises about the tags of a store and the commits behind `HEAD`. -/
structure Tags {δ : Type} (lg : Libgit2 δ) (s : RefStore) : Prop where
  /-- `git_tag_list` gives the names of the references below `refs/tags/`, without that part. -/
  list : ∃ names, lg.tagList = .ok names
    ∧ ∀ name, name ∈ names ↔ (s.refs ("refs/tags/".toList ++ name)).isSome
  /-- A reference's name is one line without a slash at its end. -/
  name : ∀ {name target}, s.refs name = some target →
    name ≠ [] ∧ '\n' ∉ name ∧ name.getLast? ≠ some '/'
  /-- `git_commit_lookup` finds the commits that a walk comes to. -/
  commit : ∀ oid ∈ lg.revwalk.items, ∃ commit, lg.commitLookup oid = .ok commit

end Magit.Git
