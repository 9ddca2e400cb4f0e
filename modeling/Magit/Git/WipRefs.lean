import Mathlib.Logic.Relation
import Mathlib.Tactic.Common

/-!
# Git/WipRefs — snapshots of the index and of the working tree

Each branch has two wip refs.  A new snapshot goes on top of the wip ref, if that is ahead of the
branch; else the branch is merged into the wip ref, or the wip ref is started over from the branch.
With merges no tip is ever lost, and a snapshot of the working tree agrees with it on the files that
it is about, as long as those are not directories (`keepsSnapshots`).
-/

namespace Magit.Wip

/-- The working tree: its files as Git would store them, and what is special about a path. -/
structure Worktree (Path Blob : Type) where
  file : Path → Option Blob
  /-- `file-directory-p`, which is also true of a symlink to a directory. -/
  directory : Path → Bool
  /-- The entry in the index is marked to be left alone, by `--skip-worktree` or
  `--assume-unchanged`. -/
  marked : Path → Bool

/-- What Git does.  It also depends on the circumstances, on the time for example, or on whether the
disk is full. -/
structure Git (Commit Tree Path Blob Case : Type) where
  parents : Commit → List Commit
  tree : Commit → Tree
  entry : Tree → Path → Option Blob
  /-- Every command that changes something succeeds. -/
  succeeds : Case → Bool
  /-- `merge-base --is-ancestor` -/
  isAncestor : Commit → Commit → Bool
  /-- `merge-base` -/
  mergeBase : Commit → Commit → Option Commit
  /-- `log -1 --merges` -/
  lastMerge : Commit → Option Commit
  /-- `diff-tree --quiet` exits with 1. -/
  differ : Tree → Tree → List Path → Bool
  /-- `read-tree --reset -i`, into an index of its own. -/
  readTree : Case → Commit → Option Tree
  /-- `update-index --add --remove --ignore-skip-worktree-entries` -/
  updateIndex : Case → Tree → Worktree Path Blob → List Path → Tree
  /-- `add -u .` at the top level. -/
  addTracked : Case → Tree → Worktree Path Blob → Tree
  /-- `write-tree` -/
  writeTree : Case → Tree → Option Tree
  /-- `commit-tree` -/
  commitTree : Case → Tree → List Commit → Option Commit
  /-- `update-ref` exits with 0. -/
  updateRef : Case → Bool

section

variable {Commit Tree Path Blob Case : Type} (git : Git Commit Tree Path Blob Case)

/-- A commit can be reached from another one. -/
def Git.Ancestor : Commit → Commit → Prop := Relation.ReflTransGen fun p c => p ∈ git.parents c

/-- What is relied on. -/
structure Git.Lawful : Prop where
  isAncestor_iff : ∀ c c', git.isAncestor c c' = true ↔ git.Ancestor c c'
  mergeBase_eq : ∀ c c', git.Ancestor c' c → git.mergeBase c c' = some c'
  entry_eq_of_differ : ∀ t t' files, git.differ t t' files = false →
    ∀ f, f ∈ files ∨ files = [] → git.entry t f = git.entry t' f
  parents_commitTree : ∀ s t ps c, git.commitTree s t ps = some c → ∀ p ∈ ps, p ∈ git.parents c
  tree_commitTree : ∀ s t ps c, git.commitTree s t ps = some c → git.tree c = t
  exists_commitTree : ∀ s t ps, git.succeeds s = true → ∃ c, git.commitTree s t ps = some c
  readTree_eq : ∀ s c, git.succeeds s = true → git.readTree s c = some (git.tree c)
  writeTree_eq : ∀ s t, git.succeeds s = true → git.writeTree s t = some t
  updateRef_eq : ∀ s, git.succeeds s = true → git.updateRef s = true
  entry_updateIndex : ∀ s t w files, git.succeeds s = true →
    ∀ f ∈ files, w.marked f = false → git.entry (git.updateIndex s t w files) f = w.file f
  entry_addTracked : ∀ s t w, git.succeeds s = true →
    ∀ f, git.entry t f ≠ none → w.marked f = false → git.entry (git.addTracked s t w) f = w.file f

end

/-- The option `magit-wip-merge-branch`. -/
structure Settings where
  mergeBranch : Bool

/-- The ref on top of which a snapshot goes. -/
inductive Parent
  | ref
  | wipref
deriving DecidableEq

section

variable {Commit Tree Path Blob Case : Type} [DecidableEq Commit]
  (git : Git Commit Tree Path Blob Case) (σ : Settings)

/-- The values a ref has had, the last one first; an `error` signals and leaves it at that. -/
abbrev Reflog (Commit : Type) := List Commit

/-- `magit-update-ref`.  Without a revision, when that could not be made, the ref is set to what it
is, which fails if it is not there yet. -/
def magitUpdateRef (s : Case) (rev : Option Commit) (wip : Reflog Commit) :
    Except (Reflog Commit) (Reflog Commit) :=
  if git.updateRef s = true then
    match rev with
    | some rev => .ok (rev :: wip)
    | none => if wip.isEmpty then .error wip else .ok wip
  else .error wip

/-- `magit-wip-get-parent` -/
def magitWipGetParent (ref : Commit) (wip : Reflog Commit) : Parent :=
  match wip.head? with
  | some tip => if git.mergeBase tip ref = some ref then .wipref else .ref
  | none => .ref

/-- `magit-rev-verify` -/
def Parent.verify (ref : Commit) (wip : Reflog Commit) : Parent → Option Commit
  | .ref => some ref
  | .wipref => wip.head?

/-- The branch has been merged into the wip ref since it was moved: what was merged last is an
ancestor of it. -/
def isMerged (ref tip : Commit) : Bool :=
  git.isAncestor ref tip &&
    ((git.lastMerge tip).bind fun merge => (git.parents merge)[1]?).any (git.isAncestor · ref)

/-- The first part of `magit-wip-update-wipref`: the wip ref is started over, or the branch merged
into it, or neither. -/
def startOrMerge (s : Case) (ref : Commit) (parent : Parent) (wip : Reflog Commit) :
    Except (Reflog Commit) (Parent × Reflog Commit) :=
  if parent ≠ .wipref ∧ (σ.mergeBranch = false ∨ wip.isEmpty = true) then
    let start := (parent.verify ref wip).bind fun p => git.commitTree s (git.tree p) [p]
    (magitUpdateRef git s start wip).map (Parent.wipref, ·)
  else if σ.mergeBranch = true ∧ wip.head?.all (!isMerged git ref ·) = true then
    let merge := wip.head?.bind fun tip => git.commitTree s (git.tree ref) [tip, ref]
    (magitUpdateRef git s merge wip).map (Parent.wipref, ·)
  else .ok (parent, wip)

/-- The last part of `magit-wip-update-wipref`: the snapshot, if it is not what the parent has.
Without a tree no commit is made. -/
def snapshot (s : Case) (ref : Commit) (tree : Option Tree) (parent : Parent) (files : List Path)
    (wip : Reflog Commit) : Except (Reflog Commit) (Reflog Commit) :=
  match tree, parent.verify ref wip with
  | some tree, some p =>
    if git.differ (git.tree p) tree files = true then
      magitUpdateRef git s (git.commitTree s tree [p]) wip
    else .ok wip
  | _, _ => .ok wip

/-- `magit-wip-update-wipref` -/
def magitWipUpdateWipref (s s' : Case) (ref : Commit) (tree : Option Tree) (parent : Parent)
    (files : List Path) (wip : Reflog Commit) : Except (Reflog Commit) (Reflog Commit) :=
  (startOrMerge git σ s ref parent wip).bind fun r => snapshot git s' ref tree r.1 files r.2

/-- What a command leaves, also if it signals. -/
def settle : Except (Reflog Commit) (Reflog Commit) → Reflog Commit
  | .ok wip => wip
  | .error wip => wip

/-- `magit-wip-commit-index`, when `write-tree` writes the tree. -/
def magitWipCommitIndex (s s' : Case) (ref : Commit) (tree : Option Tree) (files : List Path)
    (wip : Reflog Commit) : Reflog Commit :=
  settle (magitWipUpdateWipref git σ s s' ref tree (magitWipGetParent git ref wip) files wip)

/-- `magit-wip-commit-worktree` -/
def magitWipCommitWorktree (s s' : Case) (ref : Commit) (w : Worktree Path Blob)
    (files : List Path) (wip : Reflog Commit) : Reflog Commit :=
  let files' := files.filter (!w.directory ·)
  if files.isEmpty || !files'.isEmpty then
    let parent := magitWipGetParent git ref wip
    match (parent.verify ref wip).bind (git.readTree s) with
    | none => wip
    | some index =>
      let index := if files'.isEmpty then git.addTracked s index w
        else git.updateIndex s index w files'
      settle (magitWipUpdateWipref git σ s s' ref (git.writeTree s index) parent files' wip)
  else wip

/-! ## What one command does -/

/-- Every value that the ref has had can be reached from the last one. -/
def Git.Kept (wip : Reflog Commit) : Prop :=
  ∀ tip ∈ wip.head?, ∀ old ∈ wip, git.Ancestor old tip

omit [DecidableEq Commit] in
/-- A wip ref with one commit has lost nothing. -/
theorem kept_toList (tip : Option Commit) : git.Kept tip.toList := by
  cases tip with
  | none => nofun
  | some c =>
    intro tip htip old hold
    cases htip
    rw [List.mem_singleton.mp hold]
    exact .refl

variable {git}

omit [DecidableEq Commit] in
/-- A commit on top of the tip loses nothing. -/
theorem Git.Kept.cons {wip : Reflog Commit} (h : git.Kept wip) {c : Commit}
    (hc : ∀ tip ∈ wip.head?, tip ∈ git.parents c) : git.Kept (c :: wip) := by
  intro tip htip old hold
  cases htip
  rcases List.mem_cons.mp hold with rfl | hold
  · exact .refl
  · cases hwip : wip with
    | nil => simp [hwip] at hold
    | cons t rest =>
      have ht : t ∈ wip.head? := by simp [hwip]
      exact (h t ht old hold).tail (hc t ht)

omit [DecidableEq Commit] in
/-- A ref that is set to a commit on top of what it was, or that is left alone. -/
theorem kept_magitUpdateRef (hgit : git.Lawful) {wip : Reflog Commit} (h : git.Kept wip)
    (s s' : Case) (tree : Tree) {ps : List Commit} (hps : ∀ tip ∈ wip.head?, tip ∈ ps) :
    git.Kept (settle (magitUpdateRef git s (git.commitTree s' tree ps) wip)) := by
  unfold magitUpdateRef
  split
  · cases hc : git.commitTree s' tree ps with
    | some c => exact h.cons fun tip htip => hgit.parents_commitTree _ _ _ _ hc _ (hps tip htip)
    | none => cases wip <;> exact h
  · exact h

omit [DecidableEq Commit] in
/-- With commands that succeed the new commit has the tree that was written. -/
theorem magitUpdateRef_of_succeeds (hgit : git.Lawful) {s : Case} (hs : git.succeeds s = true)
    (tree : Tree) (ps : List Commit) (wip : Reflog Commit) :
    ∃ c, git.tree c = tree ∧
      magitUpdateRef git s (git.commitTree s tree ps) wip = .ok (c :: wip) := by
  obtain ⟨c, hc⟩ := hgit.exists_commitTree s tree ps hs
  exact ⟨c, hgit.tree_commitTree _ _ _ _ hc, by simp [magitUpdateRef, hgit.updateRef_eq s hs, hc]⟩

variable {σ}

/-- **What is done before the snapshot** — a commit is made, which with merges has the tip among its
parents, or there is nothing to do; in the end the snapshot goes on top of the wip ref. -/
theorem startOrMerge_cases (hgit : git.Lawful) (s : Case) (ref : Commit) (wip : Reflog Commit) :
    (∃ tree ps, (σ.mergeBranch = true → ∀ tip ∈ wip.head?, tip ∈ ps) ∧
      startOrMerge git σ s ref (magitWipGetParent git ref wip) wip
        = (magitUpdateRef git s (git.commitTree s tree ps) wip).map (Parent.wipref, ·)) ∨
    (wip ≠ [] ∧
      startOrMerge git σ s ref (magitWipGetParent git ref wip) wip = .ok (.wipref, wip)) := by
  cases wip with
  | nil =>
    exact .inl ⟨git.tree ref, [ref], by simp, by
      simp [startOrMerge, magitWipGetParent, Parent.verify]⟩
  | cons tip rest =>
    by_cases hm : σ.mergeBranch = true
    · by_cases hmerged : isMerged git ref tip = true
      · -- the branch is an ancestor of the tip, thus their merge base
        have hanc : git.Ancestor ref tip := by
          rw [isMerged, Bool.and_eq_true] at hmerged
          exact (hgit.isAncestor_iff _ _).mp hmerged.1
        have hbase := hgit.mergeBase_eq _ _ hanc
        exact .inr ⟨by simp, by simp [startOrMerge, magitWipGetParent, hbase, hm, hmerged]⟩
      · exact .inl ⟨git.tree ref, [tip, ref], by simp, by simp [startOrMerge, hm, hmerged]⟩
    · by_cases hbase : git.mergeBase tip ref = some ref
      · exact .inr ⟨by simp, by simp [startOrMerge, magitWipGetParent, hbase, hm]⟩
      · exact .inl ⟨git.tree ref, [ref], by simp [hm], by
          simp [startOrMerge, magitWipGetParent, hbase, hm, Parent.verify]⟩

/-- With merges a command keeps what there is. -/
theorem kept_magitWipUpdateWipref (hgit : git.Lawful) (hm : σ.mergeBranch = true)
    {wip : Reflog Commit} (h : git.Kept wip) (s s' : Case) (ref : Commit) (tree : Option Tree)
    (files : List Path) :
    git.Kept (settle (magitWipUpdateWipref git σ s s' ref tree (magitWipGetParent git ref wip)
      files wip)) := by
  have hsnap : ∀ wip, git.Kept wip →
      git.Kept (settle (snapshot git s' ref tree .wipref files wip)) := by
    intro wip h
    unfold snapshot
    split
    next tree' p htree hp =>
      split
      · refine kept_magitUpdateRef hgit h _ _ _ fun tip htip => ?_
        rw [Parent.verify, htip] at hp
        cases hp
        exact List.mem_singleton_self _
      · exact h
    next => exact h
  unfold magitWipUpdateWipref
  rcases startOrMerge_cases (σ := σ) hgit s ref wip with ⟨t, ps, hps, heq⟩ | ⟨-, heq⟩
  · have hstart := kept_magitUpdateRef hgit h s s t (hps hm)
    rw [heq]
    cases hr : magitUpdateRef git s (git.commitTree s t ps) wip with
    | ok wip' => rw [hr] at hstart; exact hsnap _ hstart
    | error wip' => rw [hr] at hstart; exact hstart
  · rw [heq]
    exact hsnap _ h

/-- When all goes well the tip has what the tree has, as far as the files are concerned. -/
theorem entry_magitWipUpdateWipref (hgit : git.Lawful) {s s' : Case} (hs : git.succeeds s = true)
    (hs' : git.succeeds s' = true) (ref : Commit) (tree : Tree) (files : List Path)
    (wip : Reflog Commit) :
    ∃ tip, (settle (magitWipUpdateWipref git σ s s' ref (some tree)
        (magitWipGetParent git ref wip) files wip)).head? = some tip ∧
      ∀ f, f ∈ files ∨ files = [] → git.entry (git.tree tip) f = git.entry tree f := by
  obtain ⟨wip', hne, heq⟩ : ∃ wip', wip' ≠ [] ∧
      startOrMerge git σ s ref (magitWipGetParent git ref wip) wip = .ok (.wipref, wip') := by
    rcases startOrMerge_cases (σ := σ) hgit s ref wip with ⟨t, ps, -, heq⟩ | ⟨hne, heq⟩
    · obtain ⟨c, -, hc⟩ := magitUpdateRef_of_succeeds hgit hs t ps wip
      exact ⟨c :: wip, by simp, by rw [heq, hc]; rfl⟩
    · exact ⟨wip, hne, heq⟩
  obtain ⟨tip, rest, rfl⟩ := List.exists_cons_of_ne_nil hne
  obtain ⟨c, hc, hupd⟩ := magitUpdateRef_of_succeeds hgit hs' tree [tip] (tip :: rest)
  by_cases hdiff : git.differ (git.tree tip) tree files = true
  · refine ⟨c, ?_, fun f _ => by rw [hc]⟩
    simp [magitWipUpdateWipref, heq, Except.bind, snapshot, Parent.verify, hdiff, hupd, settle]
  · refine ⟨tip, ?_, hgit.entry_eq_of_differ _ _ _ (by simpa using hdiff)⟩
    simp [magitWipUpdateWipref, heq, Except.bind, snapshot, Parent.verify, hdiff, settle]

variable (git) in
/-- What a snapshot of the working tree is about: the files that are given, except directories, and
if none are given, the files of the commit it starts from. -/
def IsAbout (ref : Commit) (w : Worktree Path Blob) (files : List Path) (wip : Reflog Commit)
    (f : Path) : Prop :=
  f ∈ files ∧ w.directory f = false ∨
    files = [] ∧ ∃ p, (magitWipGetParent git ref wip).verify ref wip = some p ∧
      git.entry (git.tree p) f ≠ none

variable (git) in
/-- The parent that is asked for exists. -/
theorem exists_verify (ref : Commit) (wip : Reflog Commit) :
    ∃ p, (magitWipGetParent git ref wip).verify ref wip = some p := by
  unfold magitWipGetParent
  cases wip with
  | nil => exact ⟨ref, rfl⟩
  | cons tip rest =>
    dsimp only [List.head?]
    split
    · exact ⟨tip, rfl⟩
    · exact ⟨ref, rfl⟩

/-- The snapshot has the file as it is in the working tree. -/
theorem entry_magitWipCommitWorktree (hgit : git.Lawful) {s s' : Case}
    (hs : git.succeeds s = true) (hs' : git.succeeds s' = true) (ref : Commit)
    (w : Worktree Path Blob) (files : List Path) (wip : Reflog Commit) (f : Path)
    (hf : IsAbout git ref w files wip f) (hmark : w.marked f = false) :
    ∃ tip, (magitWipCommitWorktree git σ s s' ref w files wip).head? = some tip ∧
      git.entry (git.tree tip) f = w.file f := by
  obtain ⟨p, hp⟩ := exists_verify git ref wip
  have hread := hgit.readTree_eq s p hs
  unfold magitWipCommitWorktree
  rcases hf with ⟨hmem, hdir⟩ | ⟨rfl, p', hp', hentry⟩
  · have hmem' : f ∈ files.filter (!w.directory ·) := by simp [hmem, hdir]
    have hne : (files.filter (!w.directory ·)).isEmpty = false := by
      rw [List.isEmpty_eq_false_iff]
      exact List.ne_nil_of_mem hmem'
    obtain ⟨tip, htip, hall⟩ := entry_magitWipUpdateWipref (σ := σ) hgit hs hs' ref
      (git.updateIndex s (git.tree p) w (files.filter (!w.directory ·)))
      (files.filter (!w.directory ·)) wip
    refine ⟨tip, by simpa [hne, hp, hread, hgit.writeTree_eq s _ hs] using htip, ?_⟩
    rw [hall f (.inl hmem')]
    exact hgit.entry_updateIndex _ _ _ _ hs _ hmem' hmark
  · cases hp.symm.trans hp'
    obtain ⟨tip, htip, hall⟩ := entry_magitWipUpdateWipref (σ := σ) hgit hs hs' ref
      (git.addTracked s (git.tree p) w) [] wip
    refine ⟨tip, by simpa [hp, hread, hgit.writeTree_eq s _ hs] using htip, ?_⟩
    rw [hall f (.inr rfl)]
    exact hgit.entry_addTracked _ _ _ hs _ hentry hmark

/-! ## Runs -/

/-- The tip of the branch, and the wip refs. -/
structure Repo (Commit : Type) where
  branch : Commit
  index : Reflog Commit
  wtree : Reflog Commit

/-- The branch is moved, by a new commit or a reset or an amended commit, or a snapshot is made. -/
inductive Event (Commit Tree Path Blob Case : Type)
  | move (tip : Commit)
  | commitIndex (s s' : Case) (tree : Option Tree) (files : List Path)
  | commitWorktree (s s' : Case) (w : Worktree Path Blob) (files : List Path)

variable (git σ)

/-- What an event does to the branch and its wip refs. -/
def step (r : Repo Commit) : Event Commit Tree Path Blob Case → Repo Commit
  | .move tip => { r with branch := tip }
  | .commitIndex s s' tree files =>
    { r with index := magitWipCommitIndex git σ s s' r.branch tree files r.index }
  | .commitWorktree s s' w files =>
    { r with wtree := magitWipCommitWorktree git σ s s' r.branch w files r.wtree }

/-- Events one after the other. -/
def run (r : Repo Commit) (events : List (Event Commit Tree Path Blob Case)) : Repo Commit :=
  events.foldl (step git σ) r

variable {git σ}

/-- Every value that a wip ref has had can be reached from it. -/
structure Repo.Kept (git : Git Commit Tree Path Blob Case) (r : Repo Commit) : Prop where
  index : git.Kept r.index
  wtree : git.Kept r.wtree

/-- Every event keeps what the wip refs have. -/
theorem kept_step (hgit : git.Lawful) (hm : σ.mergeBranch = true) {r : Repo Commit}
    (h : r.Kept git) (event : Event Commit Tree Path Blob Case) :
    (step git σ r event).Kept git := by
  cases event with
  | move tip => exact ⟨h.index, h.wtree⟩
  | commitIndex s s' tree files =>
    exact ⟨kept_magitWipUpdateWipref hgit hm h.index _ _ _ _ _, h.wtree⟩
  | commitWorktree s s' w files =>
    refine ⟨h.index, ?_⟩
    dsimp only [step, magitWipCommitWorktree]
    split
    · split
      · exact h.wtree
      · exact kept_magitWipUpdateWipref hgit hm h.wtree _ _ _ _ _
    · exact h.wtree

/-- **No run loses a snapshot.** -/
theorem kept_run (hgit : git.Lawful) (hm : σ.mergeBranch = true)
    (events : List (Event Commit Tree Path Blob Case)) :
    ∀ r : Repo Commit, r.Kept git → (run git σ r events).Kept git := by
  induction events with
  | nil => exact fun r h => h
  | cons event events ih => exact fun r h => ih _ (kept_step hgit hm h event)

/-- **Snapshots are kept** — with merges no tip of a wip ref is ever lost, and after a snapshot of
the working tree that goes well the tip agrees with it on what the snapshot is about. -/
theorem keepsSnapshots (hgit : git.Lawful) (branch : Commit) (index wtree : Option Commit)
    (events : List (Event Commit Tree Path Blob Case)) :
    (σ.mergeBranch = true →
      (run git σ ⟨branch, index.toList, wtree.toList⟩ events).Kept git) ∧
    ∀ r, r = run git σ ⟨branch, index.toList, wtree.toList⟩ events →
      ∀ s s' w files, git.succeeds s = true → git.succeeds s' = true →
        ∀ f, IsAbout git r.branch w files r.wtree f → w.marked f = false →
          ∃ tip, (step git σ r (.commitWorktree s s' w files)).wtree.head? = some tip ∧
            git.entry (git.tree tip) f = w.file f := by
  constructor
  · intro hm
    exact kept_run hgit hm events _ ⟨kept_toList git index, kept_toList git wtree⟩
  · intro r _ s s' w files hs hs' f hf hmark
    exact entry_magitWipCommitWorktree hgit hs hs' r.branch w files r.wtree f hf hmark

end

/-! ## A history

Commits that come with everything that led to them, and trees of just two files. -/

/-- Commits side by side, each with its tree and its parents. -/
inductive Forest
  | nil
  | commit (tree : Option ℕ × Option ℕ) (parents rest : Forest)
deriving DecidableEq

namespace Forest

/-- The two files of a commit, and its parents. -/
abbrev Commit := (Option ℕ × Option ℕ) × Forest

/-- The commits next to one another. -/
def roots : Forest → List Commit
  | nil => []
  | commit tree parents rest => (tree, parents) :: rest.roots

/-- These and all their ancestors. -/
def all : Forest → List Commit
  | nil => []
  | commit tree parents rest => (tree, parents) :: (parents.all ++ rest.all)

/-- The forest of these commits. -/
def ofList : List Commit → Forest
  | [] => nil
  | c :: cs => commit c.1 c.2 (ofList cs)

theorem roots_ofList (cs : List Commit) : (ofList cs).roots = cs := by
  induction cs with
  | nil => rfl
  | cons c cs ih => rw [ofList, roots, ih]

/-- A commit and all that led to it. -/
def history (c : Commit) : List Commit := c :: c.2.all

/-- The readme and the list of things to do, in this order. -/
def blob (tree : Option ℕ × Option ℕ) (todo : Bool) : Option ℕ := bif todo then tree.2 else tree.1

/-- Adding files, except those that are marked. -/
def add (tree : Option ℕ × Option ℕ) (w : Worktree Bool ℕ) (files : List Bool) :
    Option ℕ × Option ℕ :=
  let blob todo := if files.contains todo && !w.marked todo then w.file todo else blob tree todo
  (blob false, blob true)

theorem blob_add (tree : Option ℕ × Option ℕ) (w : Worktree Bool ℕ) (files : List Bool)
    (todo : Bool) (hmem : todo ∈ files) (hmark : w.marked todo = false) :
    blob (add tree w files) todo = w.file todo := by
  cases todo <;> simp [blob, add, hmem, hmark]

/-- Commands succeed or fail together. -/
def git : Git Commit (Option ℕ × Option ℕ) Bool ℕ Bool where
  parents c := c.2.roots
  tree c := c.1
  entry := blob
  succeeds s := s
  isAncestor c c' := (history c').contains c
  mergeBase c c' :=
    if (history c).contains c' then some c' else (history c).find? ((history c').contains ·)
  lastMerge c := (history c).find? fun c => 2 ≤ c.2.roots.length
  differ t t' files := if files.isEmpty then t != t' else files.any fun f => blob t f != blob t' f
  readTree s c := if s then some c.1 else none
  updateIndex _ t w files := add t w files
  addTracked _ t w := add t w ([false, true].filter fun f => (blob t f).isSome)
  writeTree s t := if s then some t else none
  commitTree s t ps := if s then some (t, ofList ps) else none
  updateRef s := s

/-- What is in a forest are the ancestors of its roots. -/
theorem mem_all (c : Commit) (forest : Forest) :
    c ∈ forest.all ↔ ∃ root ∈ forest.roots, git.Ancestor c root := by
  induction forest with
  | nil => simp [all, roots]
  | commit tree parents rest ihp ihr =>
    have hroot : git.Ancestor c (tree, parents) ↔ c = (tree, parents) ∨ c ∈ parents.all := by
      rw [ihp]
      constructor
      · intro h
        rcases Relation.ReflTransGen.cases_tail h with h | ⟨c', hc, hc'⟩
        · exact .inl h.symm
        · exact .inr ⟨c', hc', hc⟩
      · rintro (rfl | ⟨c', hc', hc⟩)
        · exact .refl
        · exact hc.tail hc'
    simp only [all, roots, List.mem_cons, List.mem_append, exists_eq_or_imp, hroot, ihr, or_assoc]

theorem ancestor_iff (c c' : Commit) : git.Ancestor c c' ↔ c ∈ history c' := by
  have h := mem_all c (commit c'.1 c'.2 nil)
  simpa [all, roots, history] using h.symm

/-- The git of the example behaves as documented. -/
theorem lawful : git.Lawful where
  isAncestor_iff c c' := by rw [ancestor_iff]; exact List.contains_iff_mem
  mergeBase_eq c c' h := by
    rw [ancestor_iff] at h
    simp [git, h]
  entry_eq_of_differ t t' files h f hf := by
    rcases hf with hf | rfl
    · have hne : files.isEmpty = false := List.isEmpty_eq_false_iff.mpr (List.ne_nil_of_mem hf)
      simp only [git, hne] at h
      have hf := List.any_eq_false.mp h f hf
      exact not_not.mp fun hne => hf (bne_iff_ne.mpr hne)
    · rw [show t = t' by simpa [git] using h]
  parents_commitTree s t ps c h p hp := by
    cases s <;> simp only [git] at h <;> cases h
    simpa [git, roots_ofList] using hp
  tree_commitTree s t ps c h := by
    cases s <;> simp only [git] at h <;> cases h
    rfl
  exists_commitTree s t ps h := ⟨(t, ofList ps), by simpa [git] using h⟩
  readTree_eq s c h := by simpa [git] using h
  writeTree_eq s t h := by simpa [git] using h
  updateRef_eq s h := h
  entry_updateIndex s t w files _ f hf hmark := blob_add t w files f hf hmark
  entry_addTracked s t w _ f hf hmark := by
    refine blob_add t w _ f ?_ hmark
    cases f <;> simpa [git, Option.isSome_iff_ne_none] using hf

/-- The branch starts with a readme. -/
def start : Commit := ((some 1, none), nil)

/-- It is amended. -/
def amended : Commit := ((some 2, none), nil)

/-- One of two files has changed. -/
def edited : Worktree Bool ℕ where
  file f := bif f then some 7 else some 3
  directory _ := false
  marked _ := false

end Forest

open Forest in
/-- Two snapshots around an amended commit: the branch is merged, since it is no longer an ancestor
of the wip ref. -/
theorem keepsSnapshots_amended :
    (run Forest.git ⟨true⟩ ⟨start, none.toList, none.toList⟩
        [.commitWorktree true true edited [true], .move amended]).Kept Forest.git ∧
      ∃ tip, (step Forest.git ⟨true⟩ (run Forest.git ⟨true⟩ ⟨start, none.toList, none.toList⟩
          [.commitWorktree true true edited [true], .move amended])
          (.commitWorktree true true edited [false, true])).wtree.head? = some tip ∧
        Forest.git.entry (Forest.git.tree tip) true = edited.file true :=
  have h := keepsSnapshots (σ := ⟨true⟩) lawful start none none
    [.commitWorktree true true edited [true], .move amended]
  ⟨h.1 rfl, h.2 _ rfl true true edited [false, true] rfl rfl true
    (.inl ⟨by simp, rfl⟩) rfl⟩

/-- A directory took the place of the readme. -/
def Forest.replaced : Worktree Bool ℕ where
  file _ := none
  directory f := !f
  marked _ := false

open Forest in
/-- A snapshot of a file that has become a directory, which goes well and changes nothing. -/
theorem directory_not_recorded :
    ∃ r, r = run Forest.git ⟨true⟩ ⟨start, none.toList, none.toList⟩
        [.commitWorktree true true edited [true]] ∧
      Forest.git.succeeds true = true ∧ replaced.file false = none ∧
      ∃ tip, (step Forest.git ⟨true⟩ r (.commitWorktree true true replaced [false])).wtree.head?
          = some tip ∧
        Forest.git.entry (Forest.git.tree tip) false = some 1 := by
  refine ⟨_, rfl, rfl, rfl, ?_⟩
  decide

end Magit.Wip
