import Magit.Git.Worker

/-!
# Git/UpstreamSubject — whose subject is reported beside the upstream

The worker asks libgit2 for the upstream reference, keeps its short name, and builds a full name
from that to look up the subject.  The short name is that of a remote-tracking branch or of a local
one, the full name always that of the former.
-/

namespace Magit.Git

open Server

variable {δ : Type}

/-- The upstream of the branch `HEAD` is on. -/
def upstreamRef (lg : Libgit2 δ) : Option Reference :=
  if (branchSteps lg).branch.1 = 0 then
    match lg.branchLookup (branchSteps lg).branch.2 with
    | .error _ => none
    | .ok branch =>
      match lg.branchUpstream branch with
      | .error _ => none
      | .ok up => some up
  else none

/-- The summary of the commit a reference leads to, or nothing. -/
def summaryOf (lg : Libgit2 δ) (ref : Reference) : Text :=
  match lg.referencePeelCommit ref with
  | .ok commit => commit.summary
  | .error _ => []

/-- What the documentation of the branch calls promises: an upstream is a stored reference, and the
name of a branch is that of its reference without the namespace. -/
structure Branches (lg : Libgit2 δ) (s : RefStore) : Prop where
  upstream : ∀ {branch up}, lg.branchUpstream branch = .ok up → s.refs up.name = some up.target
  name : ∀ {ref name}, lg.branchName ref = .ok name →
    ref.name = "refs/heads/".toList ++ name ∨ ref.name = "refs/remotes/".toList ++ name

/-- The summary of the commit a stored name leads to, or nothing. -/
def summaryAt (lg : Libgit2 δ) (s : RefStore) (name : Text) : Text :=
  match s.refs name with
  | some target => summaryOf lg ⟨name, target⟩
  | none => []

/-- A reported upstream comes with the summary of the commit it leads to. -/
def SubjectOfUpstream (lg : Libgit2 δ) (data : GitRootReqT) : Prop :=
  ∀ name, (gitRootWorker lg data).upstreamBranch = some name → name ≠ [] →
    ∃ up, upstreamRef lg = some up
      ∧ (gitRootWorker lg data).upstreamSubj = some (summaryOf lg up)

/-- The upstream is a remote-tracking branch, or the remote-tracking branch of its short name leads
to a commit with the same summary. -/
def RemoteTracked (lg : Libgit2 δ) (s : RefStore) : Prop :=
  ∀ up name, upstreamRef lg = some up → lg.branchName up = .ok name → name ≠ [] →
    up.name = "refs/heads/".toList ++ name →
      summaryAt lg s ("refs/remotes/".toList ++ name) = summaryOf lg up

section

variable {lg : Libgit2 δ} {s : RefStore}

/-- What the worker writes of the upstream are the steps for it. -/
theorem upstream_gitRootWorker (hopen : 0 ≤ lg.openExt) (data : GitRootReqT) :
    (gitRootWorker lg data).upstreamBranch = some (branchSteps lg).upstreamBranch.2
      ∧ (gitRootWorker lg data).upstreamSubj = some (branchSteps lg).upstreamSubj.2 := by
  rw [gitRootWorker, if_neg (not_lt.mpr hopen)]
  dsimp only
  split <;> exact ⟨rfl, rfl⟩

theorem upstreamBranch_eq (lg : Libgit2 δ) :
    (branchSteps lg).upstreamBranch
      = if (branchSteps lg).branch.1 = 0 then getBranchUpstreamName lg (branchSteps lg).branch.2 []
        else (-1, []) := rfl

/-- An upstream is reported by the short name libgit2 has for it, and nothing else is. -/
theorem upstreamBranch_cases (lg : Libgit2 δ) :
    (∃ up name, upstreamRef lg = some up ∧ lg.branchName up = .ok name
      ∧ (branchSteps lg).upstreamBranch = (0, name))
    ∨ ((branchSteps lg).upstreamBranch.2 = []
      ∧ ∀ up name, upstreamRef lg = some up → lg.branchName up ≠ .ok name) := by
  rw [upstreamBranch_eq, upstreamRef]
  by_cases hbranch : (branchSteps lg).branch.1 = 0
  · rw [if_pos hbranch, if_pos hbranch, getBranchUpstreamName]
    rcases lg.branchLookup (branchSteps lg).branch.2 with e | branch
    · exact .inr ⟨rfl, by simp⟩
    · dsimp only
      rcases lg.branchUpstream branch with e | up
      · exact .inr ⟨rfl, by simp⟩
      · dsimp only
        cases hname : lg.branchName up with
        | error e =>
          refine .inr ⟨rfl, ?_⟩
          rintro _ name ⟨⟩ hok
          exact nomatch hname.symm.trans hok
        | ok name => exact .inl ⟨up, name, rfl, hname, rfl⟩
  · rw [if_neg hbranch, if_neg hbranch]
    exact .inr ⟨rfl, by simp⟩

/-- The upstream is a stored reference. -/
theorem upstreamRef_stored (h : Branches lg s) {up : Reference} (hup : upstreamRef lg = some up) :
    s.refs up.name = some up.target := by
  rw [upstreamRef] at hup
  split_ifs at hup
  split at hup
  · cases hup
  · split at hup
    · cases hup
    · next hupstream => exact h.upstream (Option.some.inj hup ▸ hupstream)

/-- The subject that is looked up is that of the stored name. -/
theorem gitHeadSubject_snd (h : Refs lg s) (target : Text) :
    (gitHeadSubject lg [] target).2 = summaryAt lg s target := by
  rw [gitHeadSubject, summaryAt]
  cases href : s.refs target with
  | none =>
    obtain ⟨e, -, hlookup⟩ := h.lookup_none href
    rw [hlookup]
  | some ref =>
    rw [h.lookup_some href]
    dsimp only
    rw [summaryOf]
    rcases lg.referencePeelCommit ⟨target, ref⟩ with e | commit <;> rfl

/-- **The subject is looked up under the short name**, in the namespace of the remotes. -/
theorem upstreamSubj_eq (h : Refs lg s) {name : Text}
    (hname : (branchSteps lg).upstreamBranch = (0, name)) :
    (branchSteps lg).upstreamSubj.2 = summaryAt lg s ("refs/remotes/".toList ++ name) := by
  have hsubj : (branchSteps lg).upstreamSubj
      = if (branchSteps lg).upstreamBranch.1 = 0 then
          gitHeadSubject lg [] ("refs/remotes/".toList ++ (branchSteps lg).upstreamBranch.2)
        else (-1, []) := rfl
  rw [hsubj, hname, if_pos rfl, gitHeadSubject_snd h]

/-- A stored reference is found again by its name. -/
theorem summaryAt_of_stored {ref : Reference} (h : s.refs ref.name = some ref.target) :
    summaryAt lg s ref.name = summaryOf lg ref := by
  rw [summaryAt, h]

/-- **The subject is the upstream's exactly if the upstream is remote-tracking**, or happens to
share its subject with a remote-tracking branch of the same short name. -/
theorem subjectOfUpstream_iff (hrefs : Refs lg s) (hbranches : Branches lg s)
    (hopen : 0 ≤ lg.openExt) (data : GitRootReqT) :
    SubjectOfUpstream lg data ↔ RemoteTracked lg s := by
  obtain ⟨hbranch, hsubj⟩ := upstream_gitRootWorker hopen data
  rw [SubjectOfUpstream, hbranch, hsubj]
  rcases upstreamBranch_cases lg with ⟨up, short, hup, hshort, hsteps⟩ | ⟨hnothing, hnone⟩
  · rw [upstreamSubj_eq hrefs hsteps, hsteps]
    constructor
    · intro h up' name hup' hname hne _
      obtain rfl : up = up' := Option.some.inj (hup.symm.trans hup')
      obtain rfl : short = name := Except.ok.inj (hshort.symm.trans hname)
      obtain ⟨up'', hup'', hsummary⟩ := h short rfl hne
      obtain rfl : up = up'' := Option.some.inj (hup.symm.trans hup'')
      exact Option.some.inj hsummary
    · intro h name hname hne
      obtain rfl : short = name := Option.some.inj hname
      refine ⟨up, hup, congrArg some ?_⟩
      rcases hbranches.name hshort with hlocal | hremote
      · exact h up short hup hshort hne hlocal
      · rw [← hremote]
        exact summaryAt_of_stored (upstreamRef_stored hbranches hup)
  · rw [hnothing]
    refine iff_of_true (fun name hname hne => absurd (Option.some.inj hname).symm hne) ?_
    exact fun up name hup hname _ _ => absurd hname (hnone up name hup)

end

/-! ## A local branch that is named like a remote-tracking one -/

/-- `HEAD` is on `topic`, and both a local and a remote-tracking branch are named `origin/main`. -/
def twoMains : RefStore where
  refs name :=
    if name = RefStore.headName then some (.symbolic "refs/heads/topic".toList)
    else if name = "refs/heads/topic".toList then some (.direct "c0ffee".toList)
    else if name = "refs/heads/origin/main".toList then some (.direct "c0ffee".toList)
    else if name = "refs/remotes/origin/main".toList then some (.direct "beef".toList)
    else none
  commits oid :=
    if oid = "c0ffee".toList then some ⟨none, none, "Local".toList⟩
    else if oid = "beef".toList then some ⟨none, none, "Remote".toList⟩
    else none

/-- The answers of libgit2, where the upstream of `topic` is the local `origin/main`. -/
def twoMainsLibgit2 : Libgit2 Unit :=
  { twoMains.libgit2 with
    branchLookup := fun name => .ok ⟨"refs/heads/".toList ++ name, .direct "c0ffee".toList⟩
    branchUpstream := fun _ => .ok ⟨"refs/heads/origin/main".toList, .direct "c0ffee".toList⟩
    branchName := fun ref =>
      if ("refs/heads/".toList).isPrefixOf ref.name then .ok (ref.name.drop 11)
      else if ("refs/remotes/".toList).isPrefixOf ref.name then .ok (ref.name.drop 13)
      else .error (-1) }

theorem refs_twoMains : Refs twoMainsLibgit2 twoMains :=
  have h := twoMains.refs_libgit2
  ⟨h.lookup_some, h.lookup_none, h.head_ok, h.head_unborn, h.peel_ok, h.peel_unborn, h.revparse_ok⟩

/-- The example lists its branches as libgit2 does. -/
theorem branches_twoMains : Branches twoMainsLibgit2 twoMains where
  upstream {branch up} h := by
    rw [← Except.ok.inj h]
    rfl
  name {ref name} h := by
    have hname : (if ("refs/heads/".toList).isPrefixOf ref.name then .ok (ref.name.drop 11)
        else if ("refs/remotes/".toList).isPrefixOf ref.name then .ok (ref.name.drop 13)
        else .error (-1) : Except ℤ Text) = .ok name := h
    split_ifs at hname with hheads hremotes
    · rw [← Except.ok.inj hname]
      exact .inl (List.prefix_iff_eq_append.mp (List.isPrefixOf_iff_prefix.mp hheads)).symm
    · rw [← Except.ok.inj hname]
      exact .inr (List.prefix_iff_eq_append.mp (List.isPrefixOf_iff_prefix.mp hremotes)).symm

theorem subjectOfUpstream_iff_twoMains :
    SubjectOfUpstream twoMainsLibgit2 { id := 1, result := -1 }
      ↔ RemoteTracked twoMainsLibgit2 twoMains :=
  subjectOfUpstream_iff refs_twoMains branches_twoMains (le_refl 0) _

/-- The subject reported is that of the other `origin/main`. -/
theorem not_subjectOfUpstream_twoMains :
    ¬ SubjectOfUpstream twoMainsLibgit2 { id := 1, result := -1 } := by
  intro h
  obtain ⟨hbranch, hsubj⟩ :=
    upstream_gitRootWorker (show 0 ≤ twoMainsLibgit2.openExt from le_refl 0)
      { id := 1, result := -1 }
  have hsteps : (branchSteps twoMainsLibgit2).upstreamBranch = (0, "origin/main".toList) := by
    decide
  have hreported : (branchSteps twoMainsLibgit2).upstreamSubj.2 = "Remote".toList := by decide
  obtain ⟨up, hup, hsummary⟩ := h "origin/main".toList (by rw [hbranch, hsteps]) (by decide)
  have hlocal : upstreamRef twoMainsLibgit2
      = some ⟨"refs/heads/origin/main".toList, .direct "c0ffee".toList⟩ := by decide
  obtain rfl := Option.some.inj (hlocal.symm.trans hup)
  rw [hsubj, hreported, Option.some.injEq] at hsummary
  exact absurd hsummary (by decide)

end Magit.Git
