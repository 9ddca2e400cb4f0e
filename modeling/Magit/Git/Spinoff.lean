import Mathlib.Logic.Relation
import Mathlib.Tactic.Common

/-!
# Git/Spinoff — a new branch takes the unpushed commits

`magit--branch-spinoff` creates a branch at the tip of the current one and then moves the latter
back, to where it left its upstream or to the parent of a commit that is given.  It resets hard only
if there are no changes to lose.  Git can fail with the branch created, and nothing else has changed
then (`branchSpinoff_spec`).  No commit gets out of reach in any run (`reachable_run`), and in a
linear history the branch keeps what it shares with its upstream (`shared_branchSpinoff`).
-/

namespace Magit.Spinoff

/-- The name of a branch. -/
abbrev Name := List Char

/-- The commits, and what git tells about them. -/
structure Graph (Commit Tree : Type) where
  parents : Commit → List Commit
  tree : Commit → Tree
  emptyTree : Tree
  /-- `merge-base --is-ancestor` -/
  isAncestor : Commit → Commit → Bool
  /-- `merge-base` -/
  mergeBase : Commit → Commit → Option Commit

/-- A branch, local or remote-tracking. -/
inductive Ref
  | branch (name : Name)
  /-- A remote-tracking branch. -/
  | remote (name : Name)
deriving DecidableEq

/-- The short name. -/
def Ref.name : Ref → Name
  | branch name => name
  | remote name => name

/-- `%(refname)` -/
def Ref.fullName : Ref → Name
  | branch name => "refs/heads/".toList ++ name
  | remote name => "refs/remotes/".toList ++ name

/-- What `HEAD` is. -/
inductive Head (Commit : Type)
  | on (branch : Name)
  | detached (commit : Commit)

/-- The branches but symbolic ones, the first of a ref counting, which branch is which one's
upstream, and the tracked files. -/
structure Repo (Commit Tree : Type) where
  table : List (Ref × Commit)
  head : Head Commit
  /-- The upstream that is configured, which need not exist. -/
  upstream : Name → Option Ref
  staged : Tree
  worktree : Tree

/-- How `git checkout -b` or `git branch` turns out. -/
inductive Creation
  /-- It fails, and has no effect. -/
  | nothing
  /-- It fails when the branch has been created but is not checked out. -/
  | branchOnly
  /-- Everything has been done, but it does not exit with 0: a hook did not. -/
  | hookFails
  | done
  deriving DecidableEq

/-- What git calls the refs, how the commands turn out, and the upstreams that the new branch
gets. -/
structure Case where
  /-- `%(refname:short)`, which depends on the tags too. -/
  short : Ref → Name
  creation : Creation
  /-- What `branch.autoSetupMerge` asks for. -/
  autoSetup : Option Ref
  /-- `magit-get-indirect-upstream-branch`, if that could be set. -/
  indirect : Option Ref
  /-- `git update-ref` or `git reset` exits with 0; otherwise it has no effect. -/
  reset : Bool

/-- A revision as it is given. -/
structure Rev (Commit : Type) where
  name : Name
  commit : Commit

/-- Why nothing is done. -/
inductive SpinoffError
  /-- A `user-error`, with its text. -/
  | user (text : Name)
  /-- Git failed. -/
  | git
  deriving DecidableEq

/-- The `user-error` that names the branch that was to be made. -/
def cannotSpinOff (branch reason : Name) : SpinoffError :=
  .user ("Cannot spin off ".toList ++ branch ++ ".  ".toList ++ reason)

section

variable {Commit Tree : Type}

namespace Repo

variable (repo : Repo Commit Tree)

/-- The commit of a ref. -/
def refs (r : Ref) : Option Commit := repo.table.lookup r

/-- A ref is set to a commit. -/
def setRef (r : Ref) (c : Commit) : Repo Commit Tree :=
  { repo with table := (r, c) :: repo.table }

/-- The branch gets an upstream, or keeps its own. -/
def setUpstream (branch : Name) (upstream : Option Ref) : Repo Commit Tree :=
  { repo with
    upstream := fun name => if name = branch then upstream.or (repo.upstream name)
      else repo.upstream name }

/-- The commit that is checked out. -/
def headCommit : Option Commit :=
  match repo.head with
  | .on branch => repo.refs (.branch branch)
  | .detached c => some c

/-- `magit-get-upstream-branch` -/
def magitGetUpstreamBranch (branch : Name) : Option Ref :=
  (repo.upstream branch).filter fun r => (repo.refs r).isSome

/-- `magit-branch-p` -/
def magitBranchP (k : Case) (name : Name) : Bool :=
  repo.table.any fun e => name == e.1.fullName || name == k.short e.1

/-- `git checkout -b branch` or `git branch branch`, starting at HEAD: whether it exits with 0, and
what it leaves. -/
def create (k : Case) (branch : Name) (checkout : Bool) : Bool × Repo Commit Tree :=
  match repo.headCommit, repo.refs (.branch branch) with
  | some tip, none =>
    let created := (repo.setRef (.branch branch) tip).setUpstream branch k.autoSetup
    let switched := if checkout then { created with head := .on branch } else created
    match k.creation with
    | .nothing => (false, repo)
    | .branchOnly => (false, created)
    | .hookFails => (false, switched)
    | .done => (true, switched)
  | _, _ => (false, repo)

/-- Git creates the branch, which it does not if that exists. -/
def Creates (k : Case) (branch : Name) : Prop :=
  repo.refs (.branch branch) = none ∧ k.creation = .done

end Repo

variable [DecidableEq Commit] [DecidableEq Tree] (g : Graph Commit Tree) (k : Case)
  (repo : Repo Commit Tree)

/-- `magit-anything-modified-p` -/
def magitAnythingModifiedP : Bool :=
  repo.staged ≠ repo.headCommit.elim g.emptyTree g.tree || repo.worktree ≠ repo.staged

/-- `magit-rev-ancestor-p`, of a commit and a ref. -/
def magitRevAncestorP (c : Commit) (r : Ref) : Bool := (repo.refs r).any (g.isAncestor c ·)

/-- The commit that is given has been refused. -/
def fromError (branch current : Name) (tracked : Option Ref) (source : Option (Rev Commit)) :
    Option SpinoffError :=
  source.bind fun rev =>
    if magitRevAncestorP g repo rev.commit (.branch current) then
      (tracked.filter fun r => magitRevAncestorP g repo rev.commit r).map fun r =>
        cannotSpinOff branch (rev.name ++ " is ancestor of upstream ".toList ++ r.name)
    else some (cannotSpinOff branch (rev.name ++ " is not reachable from ".toList ++ current))

/-- Where the current branch is moved to, which must have an upstream for that; the parent of a root
commit is no commit. -/
def resetTo (current : Name) (tracked : Option Ref) (source : Option (Rev Commit)) :
    Option Commit :=
  tracked.bind fun r =>
    match source with
    | some rev => (g.parents rev.commit).head?
    | none => (repo.refs (.branch current)).bind fun tip => (repo.refs r).bind (g.mergeBase tip)

/-- `update-ref`, or `reset --hard` if the branch is still checked out. -/
def moveBack (current : Name) (base : Option Commit) (checkout : Bool) : Repo Commit Tree :=
  match base with
  | some base =>
    if repo.refs (.branch current) = some base ∨ k.reset = false then repo
    else if checkout then repo.setRef (.branch current) base
    else { repo.setRef (.branch current) base with staged := g.tree base, worktree := g.tree base }
  | none => repo

/-- `magit--branch-spinoff` -/
def branchSpinoff (branch : Name) (source : Option (Rev Commit)) (checkout : Bool) :
    Option SpinoffError × Repo Commit Tree :=
  if repo.magitBranchP k branch then
    (some (cannotSpinOff branch "It already exists".toList), repo)
  else
    let checkout := checkout || magitAnythingModifiedP g repo
    match repo.head with
    | .on current =>
      let tracked := repo.magitGetUpstreamBranch current
      match fromError g repo branch current tracked source with
      | some error => (some error, repo)
      | none =>
        match repo.create k branch checkout with
        | (false, created) => (some .git, created)
        | (true, created) =>
          let created := created.setUpstream branch k.indirect
          (none, moveBack g k created current (resetTo g created current tracked source) checkout)
    | .detached _ => (none, (repo.create k branch checkout).2)

/-- `magit-branch-spinoff` -/
def magitBranchSpinoff (branch : Name) (source : Option (Rev Commit)) :
    Option SpinoffError × Repo Commit Tree := branchSpinoff g k repo branch source true

/-- `magit-branch-spinout` -/
def magitBranchSpinout (branch : Name) (source : Option (Rev Commit)) :
    Option SpinoffError × Repo Commit Tree := branchSpinoff g k repo branch source false

end

/-! ## Refs -/

section

variable {Commit Tree : Type} {g : Graph Commit Tree} {k : Case} {repo : Repo Commit Tree}
  {branch current : Name} {source : Option (Rev Commit)} {checkout : Bool} {tip : Commit}

@[simp] theorem refs_setRef_self (r : Ref) (c : Commit) : (repo.setRef r c).refs r = some c :=
  List.lookup_cons_self

@[simp] theorem refs_setRef_of_ne {r r' : Ref} (h : r' ≠ r) (c : Commit) :
    (repo.setRef r c).refs r' = repo.refs r' := by
  rw [Repo.refs, Repo.setRef, List.lookup_cons, beq_eq_false_iff_ne.mpr h]
  rfl

/-- What is there once the branch has been created, and checked out if that was done. -/
structure Created (repo : Repo Commit Tree) (branch : Name) (tip : Commit) (switched : Bool)
    (created : Repo Commit Tree) : Prop where
  refs_self : created.refs (.branch branch) = some tip
  refs_other : ∀ r, r ≠ .branch branch → created.refs r = repo.refs r
  head : created.head = if switched then .on branch else repo.head
  staged : created.staged = repo.staged
  worktree : created.worktree = repo.worktree

variable (k repo branch checkout) in
/-- Git has done nothing, or it has created the branch. -/
theorem create_cases :
    ((repo.headCommit = none ∨ repo.refs (.branch branch) ≠ none ∨ k.creation = .nothing) ∧
      repo.create k branch checkout = (false, repo)) ∨
    ∃ tip, repo.headCommit = some tip ∧ repo.refs (.branch branch) = none ∧
      (repo.create k branch checkout).1 = decide (k.creation = .done) ∧
      Created repo branch tip (checkout && k.creation != .branchOnly)
        (repo.create k branch checkout).2 := by
  rcases htip : repo.headCommit with _ | tip
  · refine .inl ⟨.inl rfl, ?_⟩
    rw [Repo.create, htip]
  rcases hbranch : repo.refs (.branch branch) with _ | old
  · have hcreated : ∀ upstream,
        Created repo branch tip false ((repo.setRef (.branch branch) tip).setUpstream branch upstream) :=
      fun upstream => ⟨refs_setRef_self _ _, fun r hr => refs_setRef_of_ne hr _, rfl, rfl, rfl⟩
    have hswitched : ∀ upstream, Created repo branch tip checkout
        (if checkout then
          { (repo.setRef (.branch branch) tip).setUpstream branch upstream with head := .on branch }
        else (repo.setRef (.branch branch) tip).setUpstream branch upstream) := by
      intro upstream
      cases checkout with
      | false => exact hcreated upstream
      | true => exact ⟨(hcreated upstream).refs_self, (hcreated upstream).refs_other, rfl, rfl, rfl⟩
    rw [Repo.create, htip, hbranch]
    cases hcreation : k.creation with
    | nothing => exact .inl ⟨.inr (.inr rfl), rfl⟩
    | branchOnly =>
      refine .inr ⟨tip, rfl, rfl, rfl, ?_⟩
      rw [bne_self_eq_false, Bool.and_false]
      exact hcreated _
    | hookFails =>
      refine .inr ⟨tip, rfl, rfl, rfl, ?_⟩
      rw [(by decide : (Creation.hookFails != .branchOnly) = true), Bool.and_true]
      exact hswitched _
    | done =>
      refine .inr ⟨tip, rfl, rfl, rfl, ?_⟩
      rw [(by decide : (Creation.done != .branchOnly) = true), Bool.and_true]
      exact hswitched _
  · refine .inl ⟨.inr (.inl (Option.some_ne_none old)), ?_⟩
    rw [Repo.create, htip, hbranch]

/-- **The new branch**: when Git creates it, it is at the old tip and the current branch has not
moved. -/
theorem create_of_creates (htip : repo.headCommit = some tip) (h : repo.Creates k branch) :
    (repo.create k branch checkout).1 = true ∧
      Created repo branch tip checkout (repo.create k branch checkout).2 := by
  rcases create_cases k repo branch checkout with ⟨hnothing, -⟩ | ⟨tip', htip', -, hdone, hafter⟩
  · rcases hnothing with hnone | hexists | hnothing
    · cases htip.symm.trans hnone
    · exact absurd h.1 hexists
    · cases h.2.symm.trans hnothing
  · obtain rfl := Option.some.inj (htip.symm.trans htip')
    rw [h.2, (by decide : (Creation.done != .branchOnly) = true), Bool.and_true] at hafter
    rw [hdone]
    exact ⟨decide_eq_true h.2, hafter⟩

/-- The command succeeds only if Git creates the branch. -/
theorem creates_of_create (h : (repo.create k branch checkout).1 = true) :
    repo.Creates k branch := by
  rcases create_cases k repo branch checkout with ⟨-, heq⟩ | ⟨tip, -, hnone, hdone, -⟩
  · rw [heq] at h
    cases h
  · exact ⟨hnone, of_decide_eq_true (hdone.symm.trans h)⟩

theorem Created.setUpstream {created : Repo Commit Tree}
    (h : Created repo branch tip checkout created) (upstream : Option Ref) :
    Created repo branch tip checkout (created.setUpstream branch upstream) :=
  ⟨h.refs_self, h.refs_other, h.head, h.staged, h.worktree⟩

/-- What is refused because of `FROM` is refused with its reason. -/
theorem fromError_eq_some {tracked : Option Ref} {error : SpinoffError}
    (h : fromError g repo branch current tracked source = some error) :
    ∃ reason, error = cannotSpinOff branch reason := by
  obtain ⟨rev, -, herror⟩ := Option.bind_eq_some_iff.mp h
  split at herror
  · obtain ⟨r, -, rfl⟩ := Option.map_eq_some_iff.mp herror
    exact ⟨_, rfl⟩
  · exact ⟨_, (Option.some.inj herror).symm⟩

theorem modified_eq_false [DecidableEq Tree] : magitAnythingModifiedP g repo = false ↔
    repo.staged = repo.headCommit.elim g.emptyTree g.tree ∧ repo.worktree = repo.staged := by
  simp [magitAnythingModifiedP]

variable (g k repo branch source checkout) in
/-- **What a call comes to** — it is refused, with an error that names the branch, or git is told to
create the branch; and the current branch is moved if there is one and git does not fail. -/
theorem branchSpinoff_cases [DecidableEq Commit] [DecidableEq Tree] :
    ((repo.magitBranchP k branch = true ∨ ∃ current, repo.head = .on current ∧
        fromError g repo branch current (repo.magitGetUpstreamBranch current) source ≠ none) ∧
      ∃ reason, branchSpinoff g k repo branch source checkout
        = (some (cannotSpinOff branch reason), repo)) ∨
    (repo.magitBranchP k branch = false ∧ (∃ c, repo.head = .detached c) ∧
      branchSpinoff g k repo branch source checkout
        = (none, (repo.create k branch (checkout || magitAnythingModifiedP g repo)).2)) ∨
    ∃ current, repo.magitBranchP k branch = false ∧ repo.head = .on current ∧
      fromError g repo branch current (repo.magitGetUpstreamBranch current) source = none ∧
      ((repo.create k branch (checkout || magitAnythingModifiedP g repo)).1 = false ∧
          branchSpinoff g k repo branch source checkout
            = (some .git, (repo.create k branch (checkout || magitAnythingModifiedP g repo)).2) ∨
        ∃ created,
          repo.create k branch (checkout || magitAnythingModifiedP g repo) = (true, created) ∧
          branchSpinoff g k repo branch source checkout
            = (none, moveBack g k (created.setUpstream branch k.indirect) current
                (resetTo g (created.setUpstream branch k.indirect) current
                  (repo.magitGetUpstreamBranch current) source)
                (checkout || magitAnythingModifiedP g repo))) := by
  unfold branchSpinoff
  cases hexists : repo.magitBranchP k branch with
  | true => exact .inl ⟨.inl rfl, _, if_pos rfl⟩
  | false =>
  rw [if_neg Bool.false_ne_true]
  cases hhead : repo.head with
  | detached c => exact .inr (.inl ⟨rfl, ⟨c, rfl⟩, rfl⟩)
  | on current =>
    cases herror : fromError g repo branch current (repo.magitGetUpstreamBranch current) source with
    | some error =>
      obtain ⟨reason, rfl⟩ := fromError_eq_some herror
      refine .inl ⟨.inr ⟨current, rfl, ?_⟩, reason, by dsimp only; rw [herror]⟩
      rw [herror]
      exact Option.some_ne_none _
    | none =>
      refine .inr (.inr ⟨current, rfl, rfl, herror, ?_⟩)
      rcases hcreate : repo.create k branch (checkout || magitAnythingModifiedP g repo) with
        ⟨_ | _, created⟩
      · exact .inl ⟨rfl, by dsimp only; rw [herror, hcreate]⟩
      · exact .inr ⟨created, rfl, by dsimp only; rw [herror, hcreate]⟩

/-- Where the current branch is moved to does not depend on the branch that was created. -/
theorem resetTo_congr {repo' : Repo Commit Tree} {tracked : Option Ref}
    (hcurrent : repo'.refs (.branch current) = repo.refs (.branch current))
    (htracked : ∀ r ∈ tracked, repo'.refs r = repo.refs r) :
    resetTo g repo' current tracked source = resetTo g repo current tracked source := by
  cases tracked with
  | none => rfl
  | some r =>
    rw [resetTo, resetTo, Option.bind_some, Option.bind_some, hcurrent, htracked r rfl]

variable [DecidableEq Commit]

/-- Moving the old branch back leaves every other reference alone. -/
theorem refs_moveBack_of_ne {base : Option Commit} {r : Ref} (hr : r ≠ .branch current) :
    (moveBack g k repo current base checkout).refs r = repo.refs r := by
  unfold moveBack
  cases base with
  | none => rfl
  | some base =>
    dsimp only
    split
    · rfl
    · cases checkout with
      | false => exact refs_setRef_of_ne hr _
      | true => exact refs_setRef_of_ne hr _

/-- The old branch is moved back to the base, if Git does so. -/
theorem refs_moveBack (base : Option Commit) (hcurrent : repo.refs (.branch current) = some tip) :
    (moveBack g k repo current base checkout).refs (.branch current)
      = some (if k.reset then base.getD tip else tip) := by
  unfold moveBack
  cases base with
  | none => simpa using hcurrent
  | some base =>
    dsimp only
    by_cases hstay : repo.refs (.branch current) = some base ∨ k.reset = false
    · rw [if_pos hstay, hcurrent]
      rcases hstay with hsame | hfails
      · rw [hcurrent] at hsame
        obtain rfl := Option.some.inj hsame
        rw [Option.getD_some, ite_self]
      · rw [hfails]
        rfl
    · have hreset : k.reset = true := by simpa using (not_or.mp hstay).2
      have htarget : (if k.reset then (some base).getD tip else tip) = base := by
        rw [hreset]
        rfl
      rw [if_neg hstay, htarget]
      cases checkout with
      | false => exact refs_setRef_self _ _
      | true => exact refs_setRef_self _ _

/-- Moving the old branch back does not switch branches. -/
theorem head_moveBack (base : Option Commit) :
    (moveBack g k repo current base checkout).head = repo.head := by
  unfold moveBack
  cases base with
  | none => rfl
  | some base =>
    dsimp only
    split
    · rfl
    · cases checkout <;> rfl

variable [DecidableEq Tree]

variable (k) in
/-- The tracked files are left alone, or are those of the commit that is checked out then. -/
theorem changes_moveBack (base : Option Commit)
    (hhead : checkout = false → repo.head = .on current) :
    ((moveBack g k repo current base checkout).staged = repo.staged ∧
      (moveBack g k repo current base checkout).worktree = repo.worktree) ∨
    checkout = false ∧
      magitAnythingModifiedP g (moveBack g k repo current base checkout) = false := by
  unfold moveBack
  cases base with
  | none => exact .inl ⟨rfl, rfl⟩
  | some base =>
    dsimp only
    split
    · exact .inl ⟨rfl, rfl⟩
    · cases checkout with
      | true => exact .inl ⟨rfl, rfl⟩
      | false =>
        refine .inr ⟨rfl, ?_⟩
        rw [if_neg Bool.false_ne_true, modified_eq_false, Repo.headCommit]
        have hself : (repo.setRef (.branch current) base).refs (.branch current) = some base :=
          refs_setRef_self _ _
        dsimp only [Repo.setRef]
        rw [hhead rfl]
        exact ⟨(congrArg (Option.elim · g.emptyTree g.tree) hself).symm, rfl⟩

/-! ## Where everything is afterwards -/

variable (g k repo branch source checkout) in
/-- The branch has been created at the tip, the current one has been moved, and no change to a
tracked file is gone. -/
structure SpunOff (tip : Commit) (repo' : Repo Commit Tree) : Prop where
  refs_self : repo'.refs (.branch branch) = some tip
  refs_current : ∀ current, repo.head = .on current → repo'.refs (.branch current) =
    some (if k.reset then
      (resetTo g repo current (repo.magitGetUpstreamBranch current) source).getD tip else tip)
  refs_other : ∀ r, r ≠ .branch branch →
    (∀ current, repo.head = .on current → r ≠ .branch current) → repo'.refs r = repo.refs r
  head : repo'.head
    = if checkout || magitAnythingModifiedP g repo then .on branch else repo.head
  changes : repo'.staged = repo.staged ∧ repo'.worktree = repo.worktree ∨
    magitAnythingModifiedP g repo = false ∧ magitAnythingModifiedP g repo' = false

/-- What is left to do once the branch exists leads to `SpunOff`. -/
theorem Created.spunOff {created : Repo Commit Tree}
    (hnone : repo.refs (.branch branch) = none) (hhead : repo.head = .on current)
    (htip : repo.headCommit = some tip)
    (h : Created repo branch tip (checkout || magitAnythingModifiedP g repo) created) :
    SpunOff g k repo branch source checkout tip
      (moveBack g k created current
        (resetTo g created current (repo.magitGetUpstreamBranch current) source)
        (checkout || magitAnythingModifiedP g repo)) := by
  have htip' : repo.refs (.branch current) = some tip := by
    rw [Repo.headCommit, hhead] at htip
    exact htip
  have hne : current ≠ branch := by
    rintro rfl
    rw [hnone] at htip'
    cases htip'
  have hcurrent := h.refs_other (.branch current) fun heq => hne (Ref.branch.inj heq)
  have hreset : resetTo g created current (repo.magitGetUpstreamBranch current) source
      = resetTo g repo current (repo.magitGetUpstreamBranch current) source := by
    refine resetTo_congr hcurrent fun r hr => h.refs_other r ?_
    rintro rfl
    have hsome := (Option.filter_eq_some_iff.mp hr).2
    rw [hnone] at hsome
    exact Bool.false_ne_true hsome
  rw [hreset]
  constructor
  · rw [refs_moveBack_of_ne fun heq => hne (Ref.branch.inj heq).symm]
    exact h.refs_self
  · intro current' hcurrent'
    obtain rfl := Head.on.inj (hhead.symm.trans hcurrent')
    exact refs_moveBack _ (hcurrent.trans htip')
  · intro r hr hr'
    rw [refs_moveBack_of_ne (hr' current hhead)]
    exact h.refs_other r hr
  · rw [head_moveBack]
    exact h.head
  · have hstays : (checkout || magitAnythingModifiedP g repo) = false →
        created.head = .on current := fun hstay => by
      rw [h.head, hstay, ← hhead]
      rfl
    have hmoved := changes_moveBack (g := g) k
      (resetTo g repo current (repo.magitGetUpstreamBranch current) source) hstays
    rcases hmoved with hsame | ⟨hstay, hclean⟩
    · rw [h.staged, h.worktree] at hsame
      exact .inl hsame
    · exact .inr ⟨(Bool.or_eq_false_iff.mp hstay).2, hclean⟩

/-- A call goes through if no branch is called so and, on a branch, the commit that is given is one
that was not pushed and git creates the branch. -/
theorem branchSpinoff_eq_none_iff (htip : repo.headCommit = some tip) :
    (branchSpinoff g k repo branch source checkout).1 = none ↔
      repo.magitBranchP k branch = false ∧ ∀ current, repo.head = .on current →
        fromError g repo branch current (repo.magitGetUpstreamBranch current) source = none ∧
          repo.Creates k branch := by
  rcases branchSpinoff_cases g k repo branch source checkout with
    ⟨hrefused, reason, heq⟩ | ⟨hnone, ⟨c, hhead⟩, heq⟩ |
      ⟨current, hnone, hhead, herror, ⟨hfails, heq⟩ | ⟨created, hcreate, heq⟩⟩
  · rw [heq]
    refine iff_of_false (Option.some_ne_none _) ?_
    rintro ⟨hnone, hall⟩
    rcases hrefused with hexists | ⟨current, hhead, herror⟩
    · cases hnone.symm.trans hexists
    · exact herror (hall current hhead).1
  · rw [heq]
    refine iff_of_true rfl ⟨hnone, fun current hcurrent => ?_⟩
    cases hhead.symm.trans hcurrent
  · rw [heq]
    refine iff_of_false (Option.some_ne_none _) ?_
    rintro ⟨-, hall⟩
    cases hfails.symm.trans (create_of_creates htip (hall current hhead).2).1
  · rw [heq]
    refine iff_of_true rfl ⟨hnone, fun current' hcurrent' => ?_⟩
    obtain rfl := Head.on.inj (hhead.symm.trans hcurrent')
    exact ⟨herror, creates_of_create (congrArg Prod.fst hcreate)⟩

/-- A command that succeeds leads to `SpunOff`. -/
theorem spunOff_branchSpinoff (htip : repo.headCommit = some tip) (hcreates : repo.Creates k branch)
    (hok : (branchSpinoff g k repo branch source checkout).1 = none) :
    SpunOff g k repo branch source checkout tip
      (branchSpinoff g k repo branch source checkout).2 := by
  have hafter : Created repo branch tip (checkout || magitAnythingModifiedP g repo) _ :=
    (create_of_creates htip hcreates).2
  rcases branchSpinoff_cases g k repo branch source checkout with
    ⟨-, reason, heq⟩ | ⟨-, ⟨c, hhead⟩, heq⟩ |
      ⟨current, -, hhead, -, ⟨-, heq⟩ | ⟨created, hcreate, heq⟩⟩
  · rw [heq] at hok
    cases hok
  · rw [heq]
    refine ⟨hafter.refs_self, fun current hcurrent => ?_, fun r hr _ => hafter.refs_other r hr,
      hafter.head, .inl ⟨hafter.staged, hafter.worktree⟩⟩
    cases hhead.symm.trans hcurrent
  · rw [heq] at hok
    cases hok
  · rw [hcreate] at hafter
    rw [heq]
    exact (hafter.setUpstream k.indirect).spunOff hcreates.1 hhead htip

/-- Where it does not go through, nothing has changed but that the branch may be there, and checked
out. -/
theorem eq_or_created_branchSpinoff (htip : repo.headCommit = some tip)
    (h : (branchSpinoff g k repo branch source checkout).1 ≠ none ∨ ¬repo.Creates k branch) :
    (branchSpinoff g k repo branch source checkout).2 = repo ∨
      ∃ switched, (switched = true → (checkout || magitAnythingModifiedP g repo) = true) ∧
        repo.refs (.branch branch) = none ∧
        Created repo branch tip switched (branchSpinoff g k repo branch source checkout).2 := by
  have hcreate : (repo.create k branch (checkout || magitAnythingModifiedP g repo)).2 = repo ∨
      ∃ switched, (switched = true → (checkout || magitAnythingModifiedP g repo) = true) ∧
        repo.refs (.branch branch) = none ∧ Created repo branch tip switched
          (repo.create k branch (checkout || magitAnythingModifiedP g repo)).2 := by
    rcases create_cases k repo branch (checkout || magitAnythingModifiedP g repo) with
      ⟨-, heq⟩ | ⟨tip', htip', hnone, -, hafter⟩
    · exact .inl (congrArg Prod.snd heq)
    · obtain rfl := Option.some.inj (htip.symm.trans htip')
      exact .inr ⟨_, fun hboth => (Bool.and_eq_true_iff.mp hboth).1, hnone, hafter⟩
  rcases branchSpinoff_cases g k repo branch source checkout with
    ⟨-, reason, heq⟩ | ⟨-, -, heq⟩ | ⟨current, -, -, -, ⟨-, heq⟩ | ⟨created, hdone, heq⟩⟩
  · rw [heq]
    exact .inl rfl
  · rw [heq]
    exact hcreate
  · rw [heq]
    exact hcreate
  · rw [heq] at h
    exact absurd (creates_of_create (congrArg Prod.fst hdone)) (h.resolve_left fun hne => hne rfl)

/-- **A call that is refused has no effect, one that fails can only have created the branch, and one
that goes through loses nothing.** -/
theorem branchSpinoff_spec (g : Graph Commit Tree) (k : Case) (repo : Repo Commit Tree)
    (branch : Name) (source : Option (Rev Commit)) (checkout : Bool) :
    (∀ text, (branchSpinoff g k repo branch source checkout).1 = some (.user text) →
      (branchSpinoff g k repo branch source checkout).2 = repo) ∧
    (k.creation = .nothing → (branchSpinoff g k repo branch source checkout).2 = repo) ∧
    ∀ tip, repo.headCommit = some tip →
      ((branchSpinoff g k repo branch source checkout).1 = none ↔
        repo.magitBranchP k branch = false ∧ ∀ current, repo.head = .on current →
          fromError g repo branch current (repo.magitGetUpstreamBranch current) source = none ∧
            repo.Creates k branch) ∧
      ((branchSpinoff g k repo branch source checkout).1 ≠ none ∨ ¬repo.Creates k branch →
        (branchSpinoff g k repo branch source checkout).2 = repo ∨
          ∃ switched, (switched = true → (checkout || magitAnythingModifiedP g repo) = true) ∧
            repo.refs (.branch branch) = none ∧
            Created repo branch tip switched (branchSpinoff g k repo branch source checkout).2) ∧
      ((branchSpinoff g k repo branch source checkout).1 = none → repo.Creates k branch →
        SpunOff g k repo branch source checkout tip
          (branchSpinoff g k repo branch source checkout).2) := by
  refine ⟨fun text hrefused => ?_, fun hnothing => ?_, fun tip htip =>
    ⟨branchSpinoff_eq_none_iff htip, eq_or_created_branchSpinoff htip,
      fun hok hcreates => spunOff_branchSpinoff htip hcreates hok⟩⟩
  · rcases branchSpinoff_cases g k repo branch source checkout with
      ⟨-, reason, heq⟩ | ⟨-, -, heq⟩ | ⟨current, -, -, -, ⟨-, heq⟩ | ⟨created, -, heq⟩⟩
    · rw [heq]
    · rw [heq] at hrefused
      cases hrefused
    · rw [heq] at hrefused
      cases hrefused
    · rw [heq] at hrefused
      cases hrefused
  · have hcreate : repo.create k branch (checkout || magitAnythingModifiedP g repo)
        = (false, repo) := by
      rcases create_cases k repo branch (checkout || magitAnythingModifiedP g repo) with
        ⟨-, heq⟩ | ⟨tip, htip, hnone, -, -⟩
      · exact heq
      · rw [Repo.create, htip, hnone]
        dsimp only
        rw [hnothing]
    rcases branchSpinoff_cases g k repo branch source checkout with
      ⟨-, reason, heq⟩ | ⟨-, -, heq⟩ | ⟨current, -, -, -, ⟨-, heq⟩ | ⟨created, hdone, -⟩⟩
    · rw [heq]
    · rw [heq, hcreate]
    · rw [heq, hcreate]
    · cases hcreate.symm.trans hdone

end

/-! ## Runs -/

section

variable {Commit Tree : Type}

/-- A commit can be reached from another one. -/
def Graph.Ancestor (g : Graph Commit Tree) : Commit → Commit → Prop :=
  Relation.ReflTransGen fun p c => p ∈ g.parents c

/-- What is relied on. -/
structure Graph.Lawful (g : Graph Commit Tree) : Prop where
  isAncestor_iff : ∀ c c', g.isAncestor c c' = true ↔ g.Ancestor c c'
  ancestor_of_mergeBase : ∀ c c' base, g.mergeBase c c' = some base →
    g.Ancestor base c ∧ g.Ancestor base c'
  /-- No common ancestor is better. -/
  mergeBase_best : ∀ c c' base c'', g.mergeBase c c' = some base →
    g.Ancestor c'' c → g.Ancestor c'' c' → g.Ancestor base c'' → c'' = base

/-- Something that is done to a repository. -/
inductive Event (Commit Tree : Type)
  | spinoff (k : Case) (branch : Name) (source : Option (Rev Commit)) (checkout : Bool)
  /-- A commit on top of HEAD. -/
  | commit (c : Commit)
  | edit (staged worktree : Tree)
  /-- A remote-tracking branch is moved ahead. -/
  | fetch (name : Name) (c : Commit)

/-- A commit is what a ref or a detached HEAD is on. -/
def Repo.IsTip (repo : Repo Commit Tree) (c : Commit) : Prop :=
  (∃ r, repo.refs r = some c) ∨ repo.head = .detached c

/-- A ref or a detached HEAD leads to the commit. -/
def Reachable (g : Graph Commit Tree) (repo : Repo Commit Tree) (c : Commit) : Prop :=
  ∃ tip, repo.IsTip tip ∧ g.Ancestor c tip

variable {g : Graph Commit Tree} {repo repo' : Repo Commit Tree}

/-- What is reachable stays reachable when the old tips do. -/
theorem Reachable.mono {c : Commit} (h : Reachable g repo c)
    (htips : ∀ tip, repo.IsTip tip → Reachable g repo' tip) : Reachable g repo' c := by
  obtain ⟨tip, htip, hc⟩ := h
  obtain ⟨tip', htip', hanc⟩ := htips tip htip
  exact ⟨tip', htip', hc.trans hanc⟩

theorem Repo.IsTip.reachable {tip : Commit} (h : repo.IsTip tip) : Reachable g repo tip :=
  ⟨tip, h, .refl⟩

/-- A ref that is moved ahead. -/
theorem reachable_setRef {r r' : Ref} {c old : Commit} (hold : repo.refs r' = some old)
    (hahead : repo.refs r = some old → g.Ancestor old c) : Reachable g (repo.setRef r c) old := by
  by_cases hr : r' = r
  · subst hr
    exact ⟨c, .inl ⟨r', refs_setRef_self _ _⟩, hahead hold⟩
  · exact Repo.IsTip.reachable (.inl ⟨r', (refs_setRef_of_ne hr c).trans hold⟩)

/-- Creating the branch leaves every tip reachable. -/
theorem Created.reachable {branch : Name} {tip c : Commit} {switched : Bool}
    {created : Repo Commit Tree} (hnone : repo.refs (.branch branch) = none)
    (htip : repo.headCommit = some tip) (hafter : Created repo branch tip switched created)
    (h : repo.IsTip c) : Reachable g created c := by
  rcases h with ⟨r, hr⟩ | hdetached
  · refine Repo.IsTip.reachable (.inl ⟨r, (hafter.refs_other r ?_).trans hr⟩)
    rintro rfl
    cases hnone.symm.trans hr
  · rw [Repo.headCommit, hdetached] at htip
    obtain rfl := Option.some.inj htip
    exact Repo.IsTip.reachable (.inl ⟨_, hafter.refs_self⟩)

variable [DecidableEq Commit] [DecidableEq Tree]

/-- What an event does to the repository. -/
def step (g : Graph Commit Tree) (repo : Repo Commit Tree) : Event Commit Tree → Repo Commit Tree
  | .spinoff k branch source checkout => (branchSpinoff g k repo branch source checkout).2
  | .commit c =>
    if repo.headCommit.all (· ∈ g.parents c) then
      match repo.head with
      | .on branch => repo.setRef (.branch branch) c
      | .detached _ => { repo with head := .detached c }
    else repo
  | .edit staged worktree => { repo with staged := staged, worktree := worktree }
  | .fetch name c =>
    if (repo.refs (.remote name)).all (g.isAncestor · c) then repo.setRef (.remote name) c
    else repo

/-- Events one after the other. -/
def run (g : Graph Commit Tree) (repo : Repo Commit Tree) (events : List (Event Commit Tree)) :
    Repo Commit Tree :=
  events.foldl (step g) repo

/-- A call leaves everything within reach, whether it goes through or not. -/
theorem reachable_branchSpinoff (k : Case) (branch : Name) (source : Option (Rev Commit))
    (checkout : Bool) {c : Commit} (h : repo.IsTip c) :
    Reachable g (branchSpinoff g k repo branch source checkout).2 c := by
  have hcreate : Reachable g
      (repo.create k branch (checkout || magitAnythingModifiedP g repo)).2 c := by
    rcases create_cases k repo branch (checkout || magitAnythingModifiedP g repo) with
      ⟨-, heq⟩ | ⟨tip, htip, hnone, -, hafter⟩
    · rw [heq]
      exact h.reachable
    · exact hafter.reachable hnone htip h
  rcases branchSpinoff_cases g k repo branch source checkout with
    ⟨-, reason, heq⟩ | ⟨-, -, heq⟩ |
      ⟨current, -, hhead, -, ⟨-, heq⟩ | ⟨created, hdone, heq⟩⟩
  · rw [heq]
    exact h.reachable
  · rw [heq]
    exact hcreate
  · rw [heq]
    exact hcreate
  · rcases create_cases k repo branch (checkout || magitAnythingModifiedP g repo) with
      ⟨-, hfails⟩ | ⟨tip, htip, hnone, -, -⟩
    · cases hdone.symm.trans hfails
    have hafter : Created repo branch tip (checkout || magitAnythingModifiedP g repo) _ :=
      (create_of_creates htip (creates_of_create (congrArg Prod.fst hdone))).2
    rw [hdone] at hafter
    have hspun : SpunOff g k repo branch source checkout tip _ :=
      (hafter.setUpstream k.indirect).spunOff hnone hhead htip
    rw [heq]
    rcases h with ⟨r, hr⟩ | hdetached
    · by_cases hcurrent : r = .branch current
      · subst hcurrent
        rw [Repo.headCommit, hhead] at htip
        obtain rfl := Option.some.inj (htip.symm.trans hr)
        exact Repo.IsTip.reachable (.inl ⟨_, hspun.refs_self⟩)
      · refine Repo.IsTip.reachable (.inl ⟨r, (hspun.refs_other r ?_ ?_).trans hr⟩)
        · rintro rfl
          cases hnone.symm.trans hr
        · intro current' hcurrent'
          obtain rfl := Head.on.inj (hhead.symm.trans hcurrent')
          exact hcurrent
    · cases hhead.symm.trans hdetached

/-- **A step loses no commit.** -/
theorem reachable_step (hg : g.Lawful) (event : Event Commit Tree) {c : Commit}
    (h : Reachable g repo c) : Reachable g (step g repo event) c := by
  refine h.mono fun tip htip => ?_
  cases event with
  | spinoff k branch source checkout => exact reachable_branchSpinoff k branch source checkout htip
  | edit staged worktree => exact Repo.IsTip.reachable htip
  | fetch name c =>
    rw [step]
    split
    · next hall =>
      rcases htip with ⟨r, hr⟩ | hdetached
      · refine reachable_setRef hr fun hold => ?_
        rw [hold, Option.all_some] at hall
        exact (hg.isAncestor_iff _ _).mp hall
      · exact Repo.IsTip.reachable (.inr hdetached)
    · exact Repo.IsTip.reachable htip
  | commit c =>
    rw [step]
    split
    · next hall =>
      have hahead : repo.headCommit = some tip → g.Ancestor tip c := fun hhead => by
        rw [hhead, Option.all_some] at hall
        exact .single (of_decide_eq_true hall)
      rw [Repo.headCommit] at hahead
      cases hhead : repo.head with
      | on branch =>
        rw [hhead] at hahead
        rcases htip with ⟨r, hr⟩ | hdetached
        · exact reachable_setRef hr hahead
        · cases hhead.symm.trans hdetached
      | detached d =>
        rw [hhead] at hahead
        rcases htip with ⟨r, hr⟩ | hdetached
        · exact Repo.IsTip.reachable (.inl ⟨r, hr⟩)
        · obtain rfl := Head.detached.inj (hhead.symm.trans hdetached)
          exact ⟨c, .inr rfl, hahead rfl⟩
    · exact Repo.IsTip.reachable htip

/-- **No run loses a commit** — whatever is spun off or out between commits, edits and fetches, what
a ref or HEAD led to it still leads to in the end. -/
theorem reachable_run (hg : g.Lawful) (events : List (Event Commit Tree)) {c : Commit}
    (h : Reachable g repo c) : Reachable g (run g repo events) c := by
  induction events generalizing repo with
  | nil => exact h
  | cons event events ih => exact ih (reachable_step hg event h)

end

/-! ## What the branch keeps -/

section

variable {Commit Tree : Type} {g : Graph Commit Tree} {repo : Repo Commit Tree}

/-- The history of a commit has no merges. -/
def Linear (g : Graph Commit Tree) (tip : Commit) : Prop :=
  ∀ c, g.Ancestor c tip → (g.parents c).length ≤ 1

/-- In a linear history a commit with a parent has no other. -/
theorem Linear.parents_eq {tip c p : Commit} (h : Linear g tip) (hc : g.Ancestor c tip)
    (hp : p ∈ g.parents c) : g.parents c = [p] := by
  have hlength := h c hc
  rcases hparents : g.parents c with _ | ⟨q, _ | ⟨q', rest⟩⟩
  · rw [hparents] at hp
    exact absurd hp List.not_mem_nil
  · rw [hparents] at hp
    rw [List.mem_singleton.mp hp]
  · rw [hparents] at hlength
    exact absurd hlength (by simp)

/-- Of two ancestors one is older. -/
theorem Linear.total {tip a b : Commit} (h : Linear g tip) (ha : g.Ancestor a tip)
    (hb : g.Ancestor b tip) : g.Ancestor a b ∨ g.Ancestor b a := by
  induction ha using Relation.ReflTransGen.head_induction_on with
  | refl => exact .inr hb
  | @head a a' haa' ha' ih =>
    rcases ih with hle | hle
    · exact .inl (.head haa' hle)
    · rcases Relation.ReflTransGen.cases_tail hle with rfl | ⟨p, hbp, hp⟩
      · exact .inl (.single haa')
      · -- the parent of `a'` through which `b` is reached is `a`
        have heq := (h.parents_eq ha' hp).symm.trans (h.parents_eq ha' haa')
        obtain rfl := List.singleton_inj.mp heq
        exact .inr hbp

/-- The parent of a commit that `t` does not lead to has all that `t` shares with the history. -/
theorem Linear.shared_parent {tip c t rev base : Commit} (h : Linear g tip)
    (hrev : g.Ancestor rev tip) (hbase : base ∈ g.parents rev) (hnot : ¬g.Ancestor rev t)
    (hc : g.Ancestor c tip) (hct : g.Ancestor c t) : g.Ancestor c base := by
  rcases h.total hc hrev with hle | hle
  · rcases Relation.ReflTransGen.cases_tail hle with heq | ⟨p, hcp, hp⟩
    · rw [← heq] at hct
      exact absurd hct hnot
    · have heq := (h.parents_eq hrev hp).symm.trans (h.parents_eq hrev hbase)
      obtain rfl := List.singleton_inj.mp heq
      exact hcp
  · exact absurd (hle.trans hct) hnot

/-- So has the merge base of the two. -/
theorem Linear.shared_mergeBase {tip c t base : Commit} (h : Linear g tip) (hg : g.Lawful)
    (hmerge : g.mergeBase tip t = some base) (hc : g.Ancestor c tip) (hct : g.Ancestor c t) :
    g.Ancestor c base := by
  rcases h.total hc (hg.ancestor_of_mergeBase _ _ _ hmerge).1 with hle | hle
  · exact hle
  · rw [hg.mergeBase_best _ _ _ _ hmerge hc hct hle]
    exact .refl

/-- A `FROM` that is not refused is on the current branch and has not been pushed. -/
theorem fromError_eq_none {branch current : Name} {tracked : Option Ref} {rev : Rev Commit}
    (h : fromError g repo branch current tracked (some rev) = none) :
    magitRevAncestorP g repo rev.commit (.branch current) = true ∧
      ∀ r ∈ tracked, magitRevAncestorP g repo rev.commit r = false := by
  rw [fromError, Option.bind_some] at h
  split at h
  · next hreachable =>
    refine ⟨hreachable, fun r hr => ?_⟩
    rw [Option.map_eq_none_iff, hr] at h
    simpa using h
  · cases h

variable [DecidableEq Commit] [DecidableEq Tree]

/-- **The branch keeps what it shares with its upstream**, when its history has no merges, and it
stays where it was or goes back. -/
theorem shared_branchSpinoff (hg : g.Lawful) {k : Case} {branch current : Name}
    {source : Option (Rev Commit)} {checkout : Bool} {tip : Commit}
    (hhead : repo.head = .on current) (htip : repo.refs (.branch current) = some tip)
    (hlinear : Linear g tip)
    (hok : (branchSpinoff g k repo branch source checkout).1 = none) :
    ∃ tip', (branchSpinoff g k repo branch source checkout).2.refs (.branch current) = some tip' ∧
      g.Ancestor tip' tip ∧
      ∀ r ∈ repo.magitGetUpstreamBranch current, ∀ t ∈ repo.refs r,
        ∀ c, g.Ancestor c tip → g.Ancestor c t → g.Ancestor c tip' := by
  have hheadCommit : repo.headCommit = some tip := by
    rw [Repo.headCommit, hhead]
    exact htip
  obtain ⟨-, hall⟩ := (branchSpinoff_eq_none_iff hheadCommit).mp hok
  obtain ⟨herror, hcreates⟩ := hall current hhead
  refine ⟨_, (spunOff_branchSpinoff hheadCommit hcreates hok).refs_current current hhead, ?_⟩
  -- it stays unless there is a commit to move it to
  cases hreset : k.reset with
  | false => exact ⟨.refl, fun _ _ _ _ c hc _ => hc⟩
  | true =>
  rw [if_pos rfl]
  cases hbase : resetTo g repo current (repo.magitGetUpstreamBranch current) source with
  | none => exact ⟨.refl, fun _ _ _ _ c hc _ => hc⟩
  | some base =>
    cases hr : repo.magitGetUpstreamBranch current with
    | none =>
      rw [hr] at hbase
      cases hbase
    | some r =>
      rw [hr] at hbase herror
      cases source with
      | some rev =>
        obtain ⟨hreachable, hpushed⟩ := fromError_eq_none herror
        rw [magitRevAncestorP, htip, Option.any_some, hg.isAncestor_iff] at hreachable
        have hparent : base ∈ g.parents rev.commit := List.mem_of_mem_head? hbase
        refine ⟨.head hparent hreachable, fun r' hr' t ht c hc hct => ?_⟩
        obtain rfl := Option.some.inj hr'
        have hnot : ¬g.Ancestor rev.commit t := fun hanc => by
          have hfalse := hpushed r rfl
          rw [magitRevAncestorP, ht, Option.any_some, (hg.isAncestor_iff _ _).mpr hanc] at hfalse
          cases hfalse
        exact hlinear.shared_parent hreachable hparent hnot hc hct
      | none =>
        rw [resetTo, Option.bind_some] at hbase
        dsimp only at hbase
        rw [htip, Option.bind_some] at hbase
        obtain ⟨t, ht, hmerge⟩ := Option.bind_eq_some_iff.mp hbase
        refine ⟨(hg.ancestor_of_mergeBase _ _ _ hmerge).1, fun r' hr' t' ht' c hc hct => ?_⟩
        obtain rfl := Option.some.inj hr'
        obtain rfl := Option.some.inj (ht.symm.trans ht')
        exact hlinear.shared_mergeBase hg hmerge hc hct

end

/-! ## Two commits that were not pushed -/

/-- Commits in a row, each with a tree of its own. -/
def chain : Graph ℕ ℕ where
  parents
    | 0 => []
    | n + 1 => [n]
  tree := id
  emptyTree := 0
  isAncestor a b := a ≤ b
  mergeBase a b := some (min a b)

/-- On the chain the ancestors are the smaller numbers. -/
theorem ancestor_chain {a b : ℕ} : chain.Ancestor a b ↔ a ≤ b := by
  constructor
  · intro h
    induction h with
    | refl => exact Nat.le.refl
    | @tail b c _ hbc ih =>
      cases c with
      | zero => exact absurd hbc List.not_mem_nil
      | succ c =>
        obtain rfl := List.mem_singleton.mp hbc
        exact Nat.le_succ_of_le ih
  · intro h
    induction h with
    | refl => exact .refl
    | step _ ih => exact ih.tail (List.mem_singleton_self _)

theorem lawful_chain : chain.Lawful where
  isAncestor_iff a b := by
    rw [ancestor_chain]
    exact decide_eq_true_iff
  ancestor_of_mergeBase a b base h := by
    obtain rfl := Option.some.inj h
    exact ⟨ancestor_chain.mpr (Nat.min_le_left a b), ancestor_chain.mpr (Nat.min_le_right a b)⟩
  mergeBase_best a b base c h hca hcb hbase := by
    obtain rfl := Option.some.inj h
    rw [ancestor_chain] at hca hcb hbase
    exact Nat.le_antisymm (Nat.le_min.mpr ⟨hca, hcb⟩) hbase

theorem linear_chain (tip : ℕ) : Linear chain tip := by
  intro c _
  cases c with
  | zero => exact Nat.zero_le 1
  | succ c => exact Nat.le.refl

/-- The main branch. -/
def trunk : Name := ['m']

/-- A new one. -/
def topic : Name := ['t']

/-- Of the four commits of the branch its upstream has two. -/
def unpushed : Repo ℕ ℕ where
  table := [(.branch trunk, 3), (.remote trunk, 1)]
  head := .on trunk
  upstream name := if name = trunk then some (.remote trunk) else none
  staged := 3
  worktree := 3

/-- Git does all it is asked to. -/
def allWell : Case := ⟨Ref.name, .done, none, none, true⟩

/-- A hook fails, so that only the branch has been created. -/
def hookFails : Case := ⟨Ref.name, .hookFails, none, none, true⟩

theorem branchSpinoff_spec_unpushed :
    SpunOff chain allWell unpushed topic none false 3
      (branchSpinoff chain allWell unpushed topic none false).2 :=
  ((branchSpinoff_spec chain allWell unpushed topic none false).2.2 3 rfl).2.2 rfl ⟨rfl, rfl⟩

theorem reachable_run_unpushed :
    Reachable chain (run chain unpushed
      [.spinoff hookFails ['h'] none true, .edit 7 8, .commit 4,
        .spinoff allWell topic (some ⟨['3'], 3⟩) false]) 3 :=
  reachable_run lawful_chain _ ⟨3, .inl ⟨.branch trunk, rfl⟩, .refl⟩

theorem shared_branchSpinoff_unpushed :
    ∃ tip', (branchSpinoff chain allWell unpushed topic (some ⟨['3'], 3⟩) true).2.refs
        (.branch trunk) = some tip' ∧ chain.Ancestor tip' 3 ∧ chain.Ancestor 1 tip' := by
  have hok : (branchSpinoff chain allWell unpushed topic (some ⟨['3'], 3⟩) true).1 = none := rfl
  obtain ⟨tip', htip', hanc, hshared⟩ := shared_branchSpinoff lawful_chain rfl rfl
    (linear_chain 3) hok
  exact ⟨tip', htip', hanc, hshared (.remote trunk) rfl 1 rfl 1 (ancestor_chain.mpr (by decide))
    .refl⟩

end Magit.Spinoff
