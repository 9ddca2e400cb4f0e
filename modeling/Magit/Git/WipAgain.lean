import Magit.Git.WipRefs

/-!
# Git/WipAgain — the same snapshot a second time

A second call that finds the branch, the index and the files as the first one did has nothing to
record.  With merges it may still merge the branch, since whether that was done is told by the last
merge commit that can be reached, which there need not be after the wip ref has been made.
`wipCommits_twice_iff` is when the second call leaves the wip ref alone.
-/

namespace Magit.Wip

section

variable {Commit Tree Path Blob Case : Type} [DecidableEq Commit]

/-- What is relied on besides. -/
structure Git.Exact (git : Git Commit Tree Path Blob Case) : Prop extends git.Lawful where
  /-- What is returned is an ancestor of both. -/
  ancestor_of_mergeBase : ∀ c c' base, git.mergeBase c c' = some base → git.Ancestor base c
  /-- A parent that is given twice counts once. -/
  parents_eq : ∀ s t ps c, git.commitTree s t ps = some c → git.parents c = ps.eraseDups
  lastMerge_self : ∀ c, 2 ≤ (git.parents c).length → git.lastMerge c = some c
  lastMerge_parent : ∀ c p, git.parents c = [p] → git.lastMerge c = git.lastMerge p
  isMerge_lastMerge : ∀ c m, git.lastMerge c = some m →
    git.Ancestor m c ∧ 2 ≤ (git.parents m).length
  differ_eq_false : ∀ t t' files, (∀ f, git.entry t f = git.entry t' f) →
    git.differ t t' files = false
  /-- Only the files given are touched, and of them not those that are marked. -/
  updateIndex_other : ∀ s t w files, git.succeeds s = true →
    ∀ f, f ∉ files ∨ w.marked f = true → git.entry (git.updateIndex s t w files) f = git.entry t f
  /-- Only files that are tracked are touched. -/
  addTracked_other : ∀ s t w, git.succeeds s = true →
    ∀ f, git.entry t f = none ∨ w.marked f = true →
      git.entry (git.addTracked s t w) f = git.entry t f

variable {git : Git Commit Tree Path Blob Case} {σ : Settings} {ref tip : Commit}

/-! ## Merges -/

omit [DecidableEq Commit] in
theorem ancestor_of_parents {c p : Commit} (hc : git.parents c = [p])
    (h : git.Ancestor ref p) : git.Ancestor ref c :=
  h.tail (hc ▸ List.mem_singleton_self p)

omit [DecidableEq Commit] in
theorem isMerged_of_ancestor (hgit : git.Lawful) (h : git.Ancestor ref tip) :
    isMerged git ref tip
      = ((git.lastMerge tip).bind fun m => (git.parents m)[1]?).any (git.isAncestor · ref) := by
  rw [isMerged, (hgit.isAncestor_iff _ _).mpr h, Bool.true_and]

/-- The tip has the last merge of the branch, and that is merged into the branch. -/
theorem isMerged_iff_of_lastMerge (hgit : git.Exact) (h : git.Ancestor ref tip)
    (hlast : git.lastMerge tip = git.lastMerge ref) :
    isMerged git ref tip = true ↔ git.lastMerge ref ≠ none := by
  rw [isMerged_of_ancestor hgit.toLawful h, hlast]
  cases hm : git.lastMerge ref with
  | none => exact iff_of_false Bool.false_ne_true (not_not_intro rfl)
  | some m =>
    refine iff_of_true ?_ (Option.some_ne_none m)
    obtain ⟨hanc, hlength⟩ := hgit.isMerge_lastMerge _ _ hm
    have hparent : (git.parents m)[1]? = some (git.parents m)[1] := List.getElem?_eq_getElem _
    rw [Option.bind_some, hparent, Option.any_some, hgit.isAncestor_iff]
    exact .head (List.getElem_mem _) hanc

/-- Just after the branch was merged. -/
theorem isMerged_of_parents (hgit : git.Exact) {c : Commit} (hc : git.parents c = [tip, ref]) :
    isMerged git ref c = true := by
  have href : ref ∈ git.parents c := by
    rw [hc]
    exact List.mem_cons_of_mem _ (List.mem_singleton_self ref)
  have hlast : git.lastMerge c = some c := hgit.lastMerge_self c (by rw [hc]; exact Nat.le.refl)
  have hsecond : (git.parents c)[1]? = some ref := by rw [hc]; rfl
  rw [isMerged_of_ancestor hgit.toLawful (.single href), hlast, Option.bind_some, hsecond,
    Option.any_some, hgit.isAncestor_iff]
  exact .refl

/-! ## The first call -/

/-- Nothing is done to a wip ref that is ahead of the branch. -/
theorem startOrMerge_ahead (hgit : git.Exact) {s : Case} {rest : Reflog Commit}
    (h : git.Ancestor ref tip) (hdone : σ.mergeBranch = false ∨ isMerged git ref tip = true) :
    startOrMerge git σ s ref (magitWipGetParent git ref (tip :: rest)) (tip :: rest)
      = .ok (.wipref, tip :: rest) := by
  have hparent : magitWipGetParent git ref (tip :: rest) = .wipref :=
    if_pos (hgit.mergeBase_eq _ _ h)
  rw [startOrMerge, hparent, if_neg (fun h => h.1 rfl), if_neg]
  rintro ⟨hm, hmerged⟩
  rcases hdone with hdone | hdone
  · exact Bool.false_ne_true (hdone.symm.trans hm)
  · rw [List.head?_cons, Option.all_some, hdone] at hmerged
    exact Bool.false_ne_true hmerged

variable (git) in
/-- The branch has a merge in its history, or the wip ref is on a commit of its own. -/
def Settles (ref : Commit) (wip : Reflog Commit) : Prop :=
  git.lastMerge ref ≠ none ∨ ∃ tip ∈ wip.head?, tip ≠ ref

variable (git σ) in
/-- The tip is ahead of the branch, which is merged into it if that is to be seen later on. -/
structure Ahead (settles : Prop) (ref tip : Commit) : Prop where
  ancestor : git.Ancestor ref tip
  isMerged : σ.mergeBranch = true → (isMerged git ref tip = true ↔ settles)

/-- A commit on top of the branch is ahead of it. -/
theorem Ahead.of_parents (hgit : git.Exact) {settles : Prop} {c : Commit}
    (hc : git.parents c = [ref])
    (hiff : σ.mergeBranch = true → (git.lastMerge ref ≠ none ↔ settles)) :
    Ahead git σ settles ref c := by
  have hanc := ancestor_of_parents hc .refl
  refine ⟨hanc, fun hm => ?_⟩
  exact (isMerged_iff_of_lastMerge hgit hanc (hgit.lastMerge_parent _ _ hc)).trans (hiff hm)

/-- A snapshot on top changes nothing about that. -/
theorem Ahead.snapshot (hgit : git.Exact) {settles : Prop} (h : Ahead git σ settles ref tip)
    {c : Commit} (hc : git.parents c = [tip]) : Ahead git σ settles ref c := by
  have hanc := ancestor_of_parents hc h.ancestor
  refine ⟨hanc, fun hm => ?_⟩
  rw [← h.isMerged hm, isMerged_of_ancestor hgit.toLawful hanc,
    isMerged_of_ancestor hgit.toLawful h.ancestor, hgit.lastMerge_parent _ _ hc]

/-- With commands that succeed a new commit is put on the wip ref. -/
theorem exists_magitUpdateRef (hgit : git.Exact) {s : Case} (hs : git.succeeds s = true)
    (tree : Tree) (ps : List Commit) (wip : Reflog Commit) :
    ∃ c, git.parents c = ps.eraseDups ∧ git.tree c = tree ∧
      magitUpdateRef git s (git.commitTree s tree ps) wip = .ok (c :: wip) := by
  obtain ⟨c, hc⟩ := hgit.exists_commitTree s tree ps hs
  refine ⟨c, hgit.parents_eq _ _ _ _ hc, hgit.tree_commitTree _ _ _ _ hc, ?_⟩
  unfold magitUpdateRef
  rw [if_pos (hgit.updateRef_eq s hs), hc]

/-- The wip ref is started over. -/
theorem exists_start (hgit : git.Exact) {s : Case} (hs : git.succeeds s = true)
    {wip : Reflog Commit} (hparent : magitWipGetParent git ref wip = .ref)
    (hstart : σ.mergeBranch = false ∨ wip = []) :
    ∃ tip rest, startOrMerge git σ s ref (magitWipGetParent git ref wip) wip
        = .ok (.wipref, tip :: rest) ∧ Ahead git σ (Settles git ref wip) ref tip := by
  obtain ⟨c, hc, -, hupd⟩ := exists_magitUpdateRef hgit hs (git.tree ref) [ref] wip
  refine ⟨c, wip, ?_, .of_parents hgit hc fun hm => ?_⟩
  · rw [startOrMerge, hparent, if_pos ⟨by decide, by simpa using hstart⟩]
    change (magitUpdateRef git s (git.commitTree s (git.tree ref) [ref]) wip).map _ = _
    rw [hupd]
    rfl
  · obtain rfl := hstart.resolve_left fun h => Bool.false_ne_true (h.symm.trans hm)
    simp [Settles]

/-- The branch is merged. -/
theorem exists_merge (hgit : git.Exact) {s : Case} (hs : git.succeeds s = true)
    (hm : σ.mergeBranch = true) (hmerged : isMerged git ref tip = false)
    (rest : Reflog Commit) :
    ∃ c, startOrMerge git σ s ref (magitWipGetParent git ref (tip :: rest)) (tip :: rest)
        = .ok (.wipref, c :: tip :: rest) ∧
      Ahead git σ (Settles git ref (tip :: rest)) ref c := by
  obtain ⟨c, hc, -, hupd⟩ := exists_magitUpdateRef hgit hs (git.tree ref) [tip, ref] (tip :: rest)
  refine ⟨c, ?_, ?_⟩
  · rw [startOrMerge, if_neg (by simp [hm]), if_pos ⟨hm, by simp [hmerged]⟩]
    change (magitUpdateRef git s (git.commitTree s (git.tree ref) [tip, ref]) _).map _ = _
    rw [hupd]
    rfl
  · by_cases heq : tip = ref
    · subst heq
      rw [List.eraseDups_cons, List.filter_cons_of_neg (by simp), List.filter_nil,
        List.eraseDups_nil] at hc
      refine .of_parents hgit hc fun _ => ?_
      simp [Settles]
    · have hparents : git.parents c = [tip, ref] := by
        rw [hc, List.eraseDups_cons, List.filter_cons_of_pos (by simpa using Ne.symm heq)]
        rfl
      refine ⟨.single ?_, fun _ => iff_of_true (isMerged_of_parents hgit hparents) ?_⟩
      · rw [hparents]
        exact List.mem_cons_of_mem _ (List.mem_singleton_self ref)
      · exact .inr ⟨tip, rfl, heq⟩

/-- **What is done before the snapshot**, when all goes well. -/
theorem exists_startOrMerge (hgit : git.Exact) {s : Case} (hs : git.succeeds s = true)
    (ref : Commit) (wip : Reflog Commit) :
    ∃ tip rest, startOrMerge git σ s ref (magitWipGetParent git ref wip) wip
        = .ok (.wipref, tip :: rest) ∧ Ahead git σ (Settles git ref wip) ref tip := by
  cases wip with
  | nil => exact exists_start hgit hs rfl (.inr rfl)
  | cons t rest =>
    by_cases hm : σ.mergeBranch = true
    · by_cases hmerged : isMerged git ref t = true
      · have hanc : git.Ancestor ref t := by
          rw [isMerged, Bool.and_eq_true] at hmerged
          exact (hgit.isAncestor_iff _ _).mp hmerged.1
        refine ⟨t, rest, startOrMerge_ahead hgit hanc (.inr hmerged), hanc, fun _ =>
          iff_of_true hmerged ?_⟩
        by_cases heq : t = ref
        · subst heq
          exact .inl ((isMerged_iff_of_lastMerge hgit hanc rfl).mp hmerged)
        · exact .inr ⟨t, rfl, heq⟩
      · have hmerged := Bool.eq_false_iff.mpr hmerged
        obtain ⟨c, heq, hahead⟩ := exists_merge hgit hs hm hmerged rest
        exact ⟨c, t :: rest, heq, hahead⟩
    · have hm := Bool.eq_false_iff.mpr hm
      by_cases hbase : git.mergeBase t ref = some ref
      · have hanc := hgit.ancestor_of_mergeBase _ _ _ hbase
        refine ⟨t, rest, startOrMerge_ahead hgit hanc (.inl hm), hanc, fun h => ?_⟩
        exact absurd (hm.symm.trans h) Bool.false_ne_true
      · exact exists_start hgit hs (if_neg hbase) (.inl hm)

/-- The snapshot, when all goes well. -/
theorem exists_snapshot (hgit : git.Exact) {s : Case} (hs : git.succeeds s = true)
    {settles : Prop} (h : Ahead git σ settles ref tip) (rest : Reflog Commit) (tree : Tree)
    (files : List Path) :
    ∃ tip' rest', snapshot git s ref (some tree) .wipref files (tip :: rest)
        = .ok (tip' :: rest') ∧ Ahead git σ settles ref tip' ∧
      git.differ (git.tree tip') tree files = false := by
  by_cases hdiff : git.differ (git.tree tip) tree files = true
  · obtain ⟨c, hc, htree, hupd⟩ := exists_magitUpdateRef hgit hs tree [tip] (tip :: rest)
    refine ⟨c, tip :: rest, (if_pos hdiff).trans hupd, h.snapshot hgit hc, ?_⟩
    rw [htree]
    exact hgit.differ_eq_false _ _ _ fun _ => rfl
  · exact ⟨tip, rest, if_neg hdiff, h, Bool.eq_false_iff.mpr hdiff⟩

/-- **The first call** leaves a tip that is ahead of the branch and agrees with the tree. -/
theorem exists_first (hgit : git.Exact) {s s' : Case} (hs : git.succeeds s = true)
    (hs' : git.succeeds s' = true) (ref : Commit) (tree : Tree) (files : List Path)
    (wip : Reflog Commit) :
    ∃ tip rest, magitWipUpdateWipref git σ s s' ref (some tree) (magitWipGetParent git ref wip)
        files wip = .ok (tip :: rest) ∧ Ahead git σ (Settles git ref wip) ref tip ∧
      git.differ (git.tree tip) tree files = false := by
  obtain ⟨t, rest, hstart, hahead⟩ := exists_startOrMerge (σ := σ) hgit hs ref wip
  obtain ⟨tip, rest', hsnap, hahead', hdiff⟩ := exists_snapshot hgit hs' hahead rest tree files
  refine ⟨tip, rest', ?_, hahead', hdiff⟩
  rw [magitWipUpdateWipref, hstart]
  exact hsnap

/-! ## The second call -/

omit [DecidableEq Commit] in
/-- A snapshot only adds to the wip ref. -/
theorem exists_settle_snapshot (git : Git Commit Tree Path Blob Case) (s : Case) (ref : Commit)
    (tree : Option Tree) (parent : Parent) (files : List Path) (wip : Reflog Commit) :
    ∃ new, settle (snapshot git s ref tree parent files wip) = new ++ wip := by
  unfold snapshot
  split
  · split
    · unfold magitUpdateRef
      split
      · split
        next rev _ => exact ⟨[rev], rfl⟩
        next => split <;> exact ⟨[], rfl⟩
      · exact ⟨[], rfl⟩
    · exact ⟨[], rfl⟩
  · exact ⟨[], rfl⟩

/-- **The second call** has nothing to do exactly if the branch is seen to be merged. -/
theorem second_iff (hgit : git.Exact) {settles : Prop} {rest : Reflog Commit}
    (h : Ahead git σ settles ref tip) {s s' : Case} (hs : git.succeeds s = true)
    {tree : Tree} {files : List Path} (hdiff : git.differ (git.tree tip) tree files = false) :
    settle (magitWipUpdateWipref git σ s s' ref (some tree)
        (magitWipGetParent git ref (tip :: rest)) files (tip :: rest)) = tip :: rest ↔
      (σ.mergeBranch = true → settles) := by
  by_cases hdone : σ.mergeBranch = false ∨ isMerged git ref tip = true
  · refine iff_of_true ?_ fun hm => (h.isMerged hm).mp (hdone.resolve_left ?_)
    · rw [magitWipUpdateWipref, startOrMerge_ahead hgit h.ancestor hdone]
      have hsnap : snapshot git s' ref (some tree) .wipref files (tip :: rest)
          = .ok (tip :: rest) := if_neg (by rw [hdiff]; exact Bool.false_ne_true)
      exact congrArg settle hsnap
    · rw [hm]
      exact Bool.true_eq_false.mp
  · rw [not_or] at hdone
    have hm := Bool.not_eq_false _ ▸ hdone.1
    refine iff_of_false ?_ fun hsettles => hdone.2 ((h.isMerged hm).mpr (hsettles hm))
    obtain ⟨c, hmerge, -⟩ := exists_merge hgit hs hm
      (Bool.eq_false_iff.mpr hdone.2) rest
    obtain ⟨new, hnew⟩ := exists_settle_snapshot git s' ref (some tree) .wipref files
      (c :: tip :: rest)
    rw [magitWipUpdateWipref, hmerge]
    change settle (snapshot git s' ref (some tree) .wipref files (c :: tip :: rest)) ≠ _
    rw [hnew]
    intro heq
    have hlength := congrArg List.length heq
    simp only [List.length_append, List.length_cons] at hlength
    omega

omit [DecidableEq Commit] in
theorem settle_ok (wip : Reflog Commit) : settle (.ok wip) = wip := rfl

/-- The working tree is recorded as it is, on top of a tree that agrees with an earlier record. -/
theorem differ_updateIndex (hgit : git.Exact) {s s' : Case} (hs : git.succeeds s = true)
    (hs' : git.succeeds s' = true) {t t' : Tree} {w : Worktree Path Blob} {files : List Path}
    (h : git.differ t (git.updateIndex s t' w files) files = false) :
    git.differ t (git.updateIndex s' t w files) files = false := by
  refine hgit.differ_eq_false _ _ _ fun f => ?_
  by_cases hother : f ∉ files ∨ w.marked f = true
  · exact (hgit.updateIndex_other _ _ _ _ hs' f hother).symm
  · obtain ⟨hmem, hmark⟩ := not_or.mp hother
    have hmem := not_not.mp hmem
    have hmark := Bool.eq_false_iff.mpr hmark
    rw [hgit.entry_eq_of_differ _ _ _ h f (.inl hmem),
      hgit.entry_updateIndex _ _ _ _ hs _ hmem hmark,
      hgit.entry_updateIndex _ _ _ _ hs' _ hmem hmark]

theorem differ_addTracked (hgit : git.Exact) {s s' : Case} (hs : git.succeeds s = true)
    (hs' : git.succeeds s' = true) {t t' : Tree} {w : Worktree Path Blob}
    (h : git.differ t (git.addTracked s t' w) [] = false) :
    git.differ t (git.addTracked s' t w) [] = false := by
  refine hgit.differ_eq_false _ _ _ fun f => ?_
  by_cases hother : git.entry t f = none ∨ w.marked f = true
  · exact (hgit.addTracked_other _ _ _ hs' f hother).symm
  · obtain ⟨hentry, hmark⟩ := not_or.mp hother
    have hmark := Bool.eq_false_iff.mpr hmark
    have heq := hgit.entry_eq_of_differ _ _ _ h f (.inr rfl)
    -- what is not tracked is not added, so the earlier record was of a file that was tracked
    have hentry' : git.entry t' f ≠ none := fun hnone => hentry <| by
      rw [heq, hgit.addTracked_other _ _ _ hs f (.inl hnone), hnone]
    rw [heq, hgit.entry_addTracked _ _ _ hs _ hentry' hmark,
      hgit.entry_addTracked _ _ _ hs' _ hentry hmark]

/-- A second snapshot of the same index adds nothing, if the first one settles it. -/
theorem magitWipCommitIndex_twice (hgit : git.Exact) {s₁ s₁' s₂ s₂' : Case}
    (h₁ : git.succeeds s₁ = true) (h₁' : git.succeeds s₁' = true) (h₂ : git.succeeds s₂ = true)
    (ref : Commit) (tree : Tree) (files : List Path) (wip : Reflog Commit) :
    magitWipCommitIndex git σ s₂ s₂' ref (some tree) files
        (magitWipCommitIndex git σ s₁ s₁' ref (some tree) files wip)
        = magitWipCommitIndex git σ s₁ s₁' ref (some tree) files wip ↔
      (σ.mergeBranch = true → Settles git ref wip) := by
  obtain ⟨tip, rest, hfirst, hahead, hdiff⟩ := exists_first hgit h₁ h₁' ref tree files wip
  have honce : magitWipCommitIndex git σ s₁ s₁' ref (some tree) files wip = tip :: rest :=
    congrArg settle hfirst
  rw [honce]
  exact second_iff hgit hahead h₂ hdiff

/-- A call with files, not all of them directories, or without any. -/
theorem magitWipCommitWorktree_eq (hgit : git.Exact) {s s' : Case} (hs : git.succeeds s = true)
    {ref p : Commit} {w : Worktree Path Blob} {files : List Path} {wip : Reflog Commit}
    (hfiles : files = [] ∨ files.filter (!w.directory ·) ≠ [])
    (hp : (magitWipGetParent git ref wip).verify ref wip = some p) :
    magitWipCommitWorktree git σ s s' ref w files wip
      = settle (magitWipUpdateWipref git σ s s' ref
          (some (if files.filter (!w.directory ·) = [] then git.addTracked s (git.tree p) w
            else git.updateIndex s (git.tree p) w (files.filter (!w.directory ·))))
          (magitWipGetParent git ref wip) (files.filter (!w.directory ·)) wip) := by
  rw [magitWipCommitWorktree]
  dsimp only
  rw [if_pos (by simpa using hfiles), hp, Option.bind_some, hgit.readTree_eq _ _ hs]
  dsimp only
  rw [hgit.writeTree_eq _ _ hs]
  simp only [List.isEmpty_iff]

/-- A second snapshot of the same working tree adds nothing, if the first one settles it. -/
theorem magitWipCommitWorktree_twice (hgit : git.Exact) {s₁ s₁' s₂ s₂' : Case}
    (h₁ : git.succeeds s₁ = true) (h₁' : git.succeeds s₁' = true) (h₂ : git.succeeds s₂ = true)
    (ref : Commit) {w : Worktree Path Blob} {files : List Path}
    (hfiles : files = [] ∨ files.filter (!w.directory ·) ≠ []) (wip : Reflog Commit) :
    magitWipCommitWorktree git σ s₂ s₂' ref w files
        (magitWipCommitWorktree git σ s₁ s₁' ref w files wip)
        = magitWipCommitWorktree git σ s₁ s₁' ref w files wip ↔
      (σ.mergeBranch = true → Settles git ref wip) := by
  obtain ⟨p, hp⟩ := exists_verify git ref wip
  obtain ⟨tip, rest, hfirst, hahead, hdiff⟩ := exists_first hgit h₁ h₁' ref
    (if files.filter (!w.directory ·) = [] then git.addTracked s₁ (git.tree p) w
      else git.updateIndex s₁ (git.tree p) w (files.filter (!w.directory ·)))
    (files.filter (!w.directory ·)) wip
  have honce : magitWipCommitWorktree git σ s₁ s₁' ref w files wip = tip :: rest := by
    rw [magitWipCommitWorktree_eq hgit h₁ hfiles hp, hfirst, settle_ok]
  have htip : (magitWipGetParent git ref (tip :: rest)).verify ref (tip :: rest) = some tip := by
    have hparent : magitWipGetParent git ref (tip :: rest) = .wipref :=
      if_pos (hgit.mergeBase_eq _ _ hahead.ancestor)
    rw [hparent]
    rfl
  rw [honce, magitWipCommitWorktree_eq hgit h₂ hfiles htip]
  refine second_iff hgit hahead h₂ ?_
  split at hdiff
  next hnil =>
    rw [if_pos hnil, hnil]
    rw [hnil] at hdiff
    exact differ_addTracked hgit h₁ h₂ hdiff
  next hne =>
    rw [if_neg hne]
    exact differ_updateIndex hgit h₁ h₂ hdiff

/-- **Snapshots that are taken twice** — when both calls go well, the second one leaves the wip ref
as it is exactly if branches are not merged, or the branch has a merge in its history, or the wip
ref was there and was not on the tip of the branch; and it always does if it is given nothing but
directories. -/
theorem wipCommits_twice_iff (hgit : git.Exact) {s₁ s₁' s₂ s₂' : Case}
    (h₁ : git.succeeds s₁ = true) (h₁' : git.succeeds s₁' = true) (h₂ : git.succeeds s₂ = true)
    (ref : Commit) (tree : Tree) (w : Worktree Path Blob) (files : List Path)
    (wip : Reflog Commit) :
    (magitWipCommitIndex git σ s₂ s₂' ref (some tree) files
        (magitWipCommitIndex git σ s₁ s₁' ref (some tree) files wip)
        = magitWipCommitIndex git σ s₁ s₁' ref (some tree) files wip ↔
      (σ.mergeBranch = true → Settles git ref wip)) ∧
    (magitWipCommitWorktree git σ s₂ s₂' ref w files
        (magitWipCommitWorktree git σ s₁ s₁' ref w files wip)
        = magitWipCommitWorktree git σ s₁ s₁' ref w files wip ↔
      (files ≠ [] ∧ ∀ f ∈ files, w.directory f = true) ∨
        (σ.mergeBranch = true → Settles git ref wip)) := by
  refine ⟨magitWipCommitIndex_twice hgit h₁ h₁' h₂ ref tree files wip, ?_⟩
  by_cases hfiles : files = [] ∨ files.filter (!w.directory ·) ≠ []
  · rw [or_iff_right]
    · exact magitWipCommitWorktree_twice hgit h₁ h₁' h₂ ref hfiles wip
    · rintro ⟨hne, hall⟩
      refine hfiles.elim hne fun hsome => hsome ?_
      rw [List.filter_eq_nil_iff]
      intro f hf
      simp [hall f hf]
  · obtain ⟨hne, hnil⟩ := not_or.mp hfiles
    have hnil := not_not.mp hnil
    have hnothing : ∀ s s' wip, magitWipCommitWorktree git σ s s' ref w files wip = wip := by
      intro s s' wip
      rw [magitWipCommitWorktree]
      dsimp only
      rw [if_neg (by simp [hnil, hne])]
    rw [hnothing, hnothing]
    refine iff_of_true rfl (.inl ⟨hne, fun f hf => ?_⟩)
    have hf := List.filter_eq_nil_iff.mp hnil f hf
    simpa using hf

end

/-! ## A branch without merges -/

namespace Forest

/-- A parent that is given twice counts once. -/
def exactGit : Git Commit (Option ℕ × Option ℕ) Bool ℕ Bool :=
  { git with
    commitTree := fun s t ps =>
      if s then some (t, ofList (@List.eraseDups _ instBEqOfDecidableEq ps)) else none }

/-- What is in a forest with one root is its history. -/
theorem all_eq_history {c : Commit} : ∀ forest : Forest, forest.roots = [c] →
    forest.all = history c := by
  intro forest h
  cases forest with
  | nil => cases h
  | commit tree parents rest =>
    obtain ⟨rfl, hrest⟩ := List.cons.inj h
    cases rest with
    | nil => rw [all, all, List.append_nil]; rfl
    | commit => cases hrest

theorem parents_exactGit (c : Commit) : exactGit.parents c = c.2.roots := rfl

theorem lastMerge_exactGit (c : Commit) :
    exactGit.lastMerge c = (history c).find? fun c => 2 ≤ c.2.roots.length := rfl

/-- The git of the example is exact. -/
theorem exact : exactGit.Exact where
  isAncestor_iff := lawful.isAncestor_iff
  mergeBase_eq := lawful.mergeBase_eq
  entry_eq_of_differ := lawful.entry_eq_of_differ
  parents_commitTree s t ps c h p hp := by
    cases s <;> simp only [exactGit] at h <;> cases h
    simpa [exactGit, git, roots_ofList] using hp
  tree_commitTree s t ps c h := by
    cases s <;> simp only [exactGit] at h <;> cases h
    rfl
  exists_commitTree s t ps h := ⟨_, if_pos h⟩
  readTree_eq := lawful.readTree_eq
  writeTree_eq := lawful.writeTree_eq
  updateRef_eq := lawful.updateRef_eq
  entry_updateIndex := lawful.entry_updateIndex
  entry_addTracked := lawful.entry_addTracked
  ancestor_of_mergeBase c c' base h := by
    rw [show exactGit.Ancestor = git.Ancestor from rfl, ancestor_iff]
    simp only [exactGit, git] at h
    split at h
    · next hmem =>
      obtain rfl := Option.some.inj h
      exact List.contains_iff_mem.mp hmem
    · exact List.mem_of_find?_eq_some h
  parents_eq s t ps c h := by
    cases s <;> simp only [exactGit] at h <;> cases h
    rw [parents_exactGit, roots_ofList]
  lastMerge_self c h := by
    rw [parents_exactGit] at h
    rw [lastMerge_exactGit, history, List.find?_cons_of_pos (by exact decide_eq_true h)]
  lastMerge_parent c p h := by
    rw [parents_exactGit] at h
    rw [lastMerge_exactGit, lastMerge_exactGit, history, List.find?_cons_of_neg (by simp [h]),
      all_eq_history _ h]
  isMerge_lastMerge c m h := by
    rw [lastMerge_exactGit] at h
    refine ⟨(ancestor_iff _ _).mpr (List.mem_of_find?_eq_some h), ?_⟩
    rw [parents_exactGit]
    simpa using List.find?_some h
  differ_eq_false t t' files h := by
    have heq : t = t' := Prod.ext (h false) (h true)
    subst heq
    simp [exactGit, git]
  updateIndex_other s t w files _ f hf := by
    rcases hf with hf | hf <;> cases f <;> simp [exactGit, git, blob, add, hf]
  addTracked_other s t w _ f hf := by
    rcases hf with hf | hf <;> cases f <;> simp_all [exactGit, git, blob, add]

end Forest

open Forest in
/-- The wip ref was made by the first call, so the second one merges the branch. -/
theorem wipCommits_twice_iff_start :
    magitWipCommitWorktree exactGit ⟨true⟩ true true start edited [true]
        (magitWipCommitWorktree exactGit ⟨true⟩ true true start edited [true] [])
      ≠ magitWipCommitWorktree exactGit ⟨true⟩ true true start edited [true] [] := by
  intro heq
  rcases (wipCommits_twice_iff (σ := ⟨true⟩) exact rfl rfl rfl start (some 1, none) edited
    [true] []).2.mp heq with ⟨-, hdirectory⟩ | hsettles
  · exact Bool.false_ne_true (hdirectory true List.mem_cons_self)
  · rcases hsettles rfl with hmerge | ⟨tip, htip, -⟩
    · exact hmerge rfl
    · exact Option.not_mem_none _ htip

end Magit.Wip
