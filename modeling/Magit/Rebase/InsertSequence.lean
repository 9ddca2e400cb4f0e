import Magit.Rebase.Sequence

/-!
# Rebase/InsertSequence — what has been done, and the commit git stopped at

Below what is left to do the status buffer shows the commits that have been made, and the commit
they are made onto.  The commit git stopped at is looked up among the ones that have been made: by
its name, then by the change it makes.  Only if it is not one of them it has a row of its own
(`sequence_rows`).
-/

namespace Magit.GitRebase

/-- What is asked of git; an object name that git does not print is empty. -/
structure SequenceGit where
  /-- `magit-rev-parse` -/
  revParse : List Char → List Char
  /-- `git log --format=%H ONTO..HEAD` -/
  log : List Char → List (List Char)
  /-- `magit-patch-id` -/
  patchId : Option (List Char) → Option (List Char)
  /-- `magit-rev-equal` -/
  revEqual : Option (List Char) → List Char → Bool
  /-- `magit-anything-unmerged-p` -/
  unmerged : Bool
  /-- `magit-anything-modified-p` -/
  modified : Bool
  /-- What `magit-commit-tree` and `magit-commit-worktree` make of the changes. -/
  staged : Option (List Char)
  unstaged : Option (List Char)

namespace SequenceGit

variable (git : SequenceGit)

/-- `HEAD` -/
def head : List Char := git.revParse "HEAD".toList

/-- The row of a commit that none of the commits made since stands for. -/
def goneRow (done : List (List Char)) (stop : List Char) : SequenceRow :=
  if done.any fun c => git.revEqual (some c) stop then .commit "void".toList stop .drop
  else if git.unmerged then .commit "join".toList stop .part
  else if git.modified then
    .commit
      (if git.revEqual git.staged stop || git.revEqual git.unstaged stop then "goal".toList
      else if git.patchId git.staged = git.patchId (some stop)
        ∨ git.patchId git.unstaged = git.patchId (some stop) then "same".toList
      else "work".toList) stop .part
  else if done.any fun c => git.revEqual (some c) stop then .commit "poof".toList stop .drop
  else .commit "gone".toList stop .drop

/-- The row for the commit git stopped at, if it has one of its own, and the commit that is marked
among those that have been made. -/
def stopRow (done : List (List Char)) : Option (List Char) → Option SequenceRow × Option (List Char)
  | none => (none, none)
  | some stop =>
    if done.contains (git.revParse stop) then (none, some stop)
    else
      match done.find? fun c => git.patchId (some c) = git.patchId (some stop) with
      | some matched => (none, some matched)
      | none => (some (git.goneRow done stop), none)

/-- The row of a commit that has been made. -/
def doneRow (stop orig : Option (List Char)) (rev : List Char) : SequenceRow :=
  if some rev = stop then
    .commit
      (if rev = git.head ∧ git.patchId (some rev) = git.patchId orig then "stop".toList
      else "like".toList)
      rev (if rev = git.head then .head else .stop)
  else if rev = git.head then .commit "done".toList rev .head
  else .commit "done".toList rev .done

/-- The commit that the sequence is made onto. -/
def ontoCommit (onto : Option (List Char)) : List Char := onto.elim git.head git.revParse

/-- `magit-sequence-insert-sequence` -/
def magitSequenceInsertSequence (stop onto orig : Option (List Char)) : List SequenceRow :=
  let onto := git.ontoCommit onto
  let done := git.log onto
  let stopped := git.stopRow done stop
  stopped.1.toList ++ done.map (git.doneRow stopped.2 orig)
    ++ [.commit "onto".toList onto (if onto = git.head then .head else .onto)]

/-- What is relied on of `git log`: it lists each commit once that can be reached from `HEAD` but
not from the other one. -/
structure Logs (reaches : List Char → List Char → Prop) : Prop where
  refl : ∀ c, reaches c c
  nodup : ∀ onto, (git.log onto).Nodup
  mem_log : ∀ onto c, c ∈ git.log onto ↔ reaches git.head c ∧ ¬ reaches onto c

end SequenceGit

namespace SequenceRow

/-- The word in front. -/
def type : SequenceRow → List Char
  | commit type _ _ => type
  | command action _ => action
  | merge _ => "merge".toList

/-- The row has the face of `HEAD`. -/
def isHead : SequenceRow → Bool
  | commit _ _ face => face = .head
  | command _ _ => false
  | merge _ => false

/-- A row tells what became of the commit git stopped at. -/
def tellsStop (row : SequenceRow) : Bool := row.type ≠ "done".toList ∧ row.type ≠ "onto".toList

end SequenceRow

namespace SequenceGit

variable {git : SequenceGit} {reaches : List Char → List Char → Prop} {done : List (List Char)}

/-! ## The rows one by one -/

/-- What is asked first is asked again, so the fourth answer is never given. -/
theorem exists_goneRow (git : SequenceGit) (done : List (List Char)) (stop : List Char) :
    ∃ type face, git.goneRow done stop = .commit type stop face ∧ face ≠ .head
      ∧ type ∉ ["done".toList, "onto".toList, "poof".toList] := by
  rw [goneRow]
  by_cases hequal : (done.any fun c => git.revEqual (some c) stop) = true
  · rw [if_pos hequal]
    exact ⟨_, _, rfl, by decide, by decide⟩
  · rw [if_neg hequal, if_neg hequal]
    split_ifs <;> exact ⟨_, _, rfl, by decide, by decide⟩

/-- What the row of a finished commit is. -/
theorem exists_doneRow (git : SequenceGit) (stop orig : Option (List Char)) (rev : List Char) :
    ∃ type face, git.doneRow stop orig rev = .commit type rev face
      ∧ (face = .head ↔ rev = git.head) ∧ (type = "done".toList ↔ some rev ≠ stop)
      ∧ type ∉ ["onto".toList, "poof".toList] := by
  rw [doneRow]
  by_cases hstop : some rev = stop
  · rw [if_pos hstop]
    refine ⟨_, _, rfl, ?_, iff_of_false ?_ (not_not_intro hstop), ?_⟩
    · split_ifs with hhead
      · exact iff_of_true rfl hhead
      · exact iff_of_false (by decide) hhead
    · split_ifs <;> decide
    · split_ifs <;> decide
  · rw [if_neg hstop]
    split_ifs with hhead
    · exact ⟨_, _, rfl, iff_of_true rfl hhead, iff_of_true rfl hstop, by decide⟩
    · exact ⟨_, _, rfl, iff_of_false (by decide) hhead, iff_of_true rfl hstop, by decide⟩

/-! ## All rows -/

/-- The rows of the finished commits are one for each. -/
theorem filterMap_doneRow (stop orig : Option (List Char)) :
    (done.map (git.doneRow stop orig)).filterMap SequenceRow.picked = done := by
  rw [List.filterMap_map]
  refine (List.filterMap_congr fun rev _ => ?_).trans List.filterMap_some
  obtain ⟨type, face, hrow, -⟩ := exists_doneRow git stop orig rev
  exact congrArg SequenceRow.picked hrow

/-- The rows show `HEAD` as often as it is among the finished commits. -/
theorem countP_isHead_doneRow (stop orig : Option (List Char)) :
    (done.map (git.doneRow stop orig)).countP SequenceRow.isHead = done.count git.head := by
  rw [List.countP_map, List.count]
  refine List.countP_congr fun rev _ => ?_
  obtain ⟨type, face, hrow, hface, -⟩ := exists_doneRow git stop orig rev
  rw [Function.comp_apply, hrow, beq_iff_eq, ← hface]
  exact decide_eq_true_iff

/-- The rows tell where it stopped once, if that commit is among the finished ones. -/
theorem countP_tellsStop_doneRow (hnodup : done.Nodup) (stop orig : Option (List Char)) :
    (done.map (git.doneRow stop orig)).countP SequenceRow.tellsStop
      = stop.toList.countP done.contains := by
  have hmarked : (done.map (git.doneRow stop orig)).countP SequenceRow.tellsStop
      = done.countP (some · = stop) := by
    rw [List.countP_map]
    refine List.countP_congr fun rev _ => ?_
    obtain ⟨type, face, hrow, -, htype, hnot⟩ := exists_doneRow git stop orig rev
    obtain ⟨honto, -⟩ := not_or.mp (mt List.mem_cons.mpr hnot)
    rw [Function.comp_apply, hrow, SequenceRow.tellsStop, decide_eq_true_iff, decide_eq_true_iff]
    exact ⟨fun h => not_not.mp (mt htype.mpr h.1), fun h => ⟨mt htype.mp (not_not_intro h), honto⟩⟩
  rw [hmarked]
  rcases stop with _ | s
  · exact List.countP_eq_zero.mpr fun rev _ h =>
      absurd (of_decide_eq_true h) (Option.some_ne_none rev)
  · have hcount : done.countP (some · = some s) = done.count s := by
      rw [List.count]
      refine List.countP_congr fun rev _ => ?_
      rw [decide_eq_true_iff, Option.some.injEq, beq_iff_eq]
    rw [hcount, hnodup.count, Option.toList_some, List.countP_singleton]
    simp only [List.contains_iff_mem]

/-- No finished commit is gone. -/
theorem type_doneRow_ne_poof (stop orig : Option (List Char)) :
    ∀ row ∈ done.map (git.doneRow stop orig), row.type ≠ "poof".toList := by
  refine List.forall_mem_map.mpr fun rev _ => ?_
  obtain ⟨type, face, hrow, -, -, hnot⟩ := exists_doneRow git stop orig rev
  rw [hrow]
  rintro rfl
  exact hnot (by decide)

/-- The commit git stopped at has its own name, if it is one of those. -/
def named (git : SequenceGit) (done : List (List Char)) (stop : List Char) : Bool :=
  !done.contains (git.revParse stop) || done.contains stop

/-- No other commit stands for the one git stopped at. -/
def alone (git : SequenceGit) (done : List (List Char)) (stop : List Char) : Bool :=
  !done.contains (git.revParse stop)
    && done.all fun c => git.patchId (some c) ≠ git.patchId (some stop)

/-- Either it has a row of its own, or a commit is marked, which is one of those if it has its own
name. -/
theorem stopRow_cases (git : SequenceGit) (done : List (List Char)) (stop : List Char) :
    git.alone done stop = true
        ∧ git.stopRow done (some stop) = (some (git.goneRow done stop), none)
      ∨ git.alone done stop = false
        ∧ ∃ marked, git.stopRow done (some stop) = (none, some marked)
          ∧ (marked ∈ done ↔ git.named done stop = true) := by
  rw [stopRow]
  by_cases hmem : done.contains (git.revParse stop) = true
  · refine .inr ⟨by rw [alone, hmem, Bool.not_true, Bool.false_and], stop, if_pos hmem, ?_⟩
    rw [named, hmem, Bool.not_true, Bool.false_or, List.contains_iff_mem]
  · rw [if_neg hmem]
    have hfalse := eq_false_of_ne_true hmem
    rcases hfind : done.find? fun c => git.patchId (some c) = git.patchId (some stop)
      with _ | matched
    · refine .inl ⟨?_, rfl⟩
      rw [alone, hfalse, Bool.not_false, Bool.true_and]
      refine List.all_eq_true.mpr fun c hc => decide_eq_true fun heq => ?_
      exact List.find?_eq_none.mp hfind c hc (decide_eq_true heq)
    · have hmatched := List.mem_of_find?_eq_some hfind
      have hsame := List.find?_some hfind
      refine .inr ⟨?_, matched, rfl, iff_of_true hmatched ?_⟩
      · rw [alone, hfalse, Bool.not_false, Bool.true_and]
        refine List.all_eq_false.mpr ⟨matched, hmatched, fun h => ?_⟩
        exact of_decide_eq_true h (of_decide_eq_true hsame)
      · rw [named, hfalse, Bool.not_false, Bool.true_or]

theorem named_of_alone {stop : List Char} (h : git.alone done stop = true) :
    git.named done stop = true := by
  rw [named, (Bool.and_eq_true_iff.mp h).1, Bool.true_or]

/-- The row of the commit git stopped at, if it has one. -/
theorem stopRow_spec (git : SequenceGit) (done : List (List Char)) (stop : Option (List Char)) :
    let stopped := git.stopRow done stop
    stopped.1.toList.filterMap SequenceRow.picked = stop.toList.filter (git.alone done)
      ∧ stopped.1.toList.countP SequenceRow.isHead = 0
      ∧ stopped.1.toList.countP SequenceRow.tellsStop + stopped.2.toList.countP done.contains
        = stop.toList.countP (git.named done)
      ∧ ∀ row ∈ stopped.1.toList, row.type ≠ "poof".toList := by
  rcases stop with _ | stop
  · exact ⟨rfl, rfl, rfl, fun _ hrow => absurd hrow List.not_mem_nil⟩
  rw [Option.toList_some, List.countP_singleton]
  rcases stopRow_cases git done stop with ⟨halone, hrow⟩ | ⟨halone, marked, hrow, hmarked⟩
  · obtain ⟨type, face, hgone, hface, htype⟩ := exists_goneRow git done stop
    rw [hrow, hgone, if_pos (named_of_alone halone), List.filter_cons_of_pos halone]
    simp only [List.mem_cons, not_or] at htype
    refine ⟨rfl, ?_, ?_, List.forall_mem_singleton.mpr htype.2.2.1⟩
    · exact List.countP_eq_zero.mpr (List.forall_mem_singleton.mpr fun h =>
        hface (of_decide_eq_true h))
    · have htells : (SequenceRow.commit type stop face).tellsStop = true :=
        decide_eq_true ⟨htype.1, htype.2.1⟩
      rw [Option.toList_some, List.countP_singleton, if_pos htells]
      rfl
  · rw [hrow, List.filter_cons_of_neg (ne_true_of_eq_false halone)]
    refine ⟨rfl, rfl, ?_, fun _ hmem => absurd hmem List.not_mem_nil⟩
    rw [Option.toList_none, List.countP_nil, Nat.zero_add, Option.toList_some,
      List.countP_singleton]
    simp only [List.contains_iff_mem, hmarked]

/-- **What has been done has a row for each commit**, in the order of the log, and behind them one
for the commit they are made onto; in front of them the one git stopped at has a row if and only if
none of them is it or makes its change.  Exactly one row is marked as `HEAD`, unless `HEAD` is
behind the commit the others are made onto; and one tells what became of the commit git stopped at,
unless that is one of them and git does not give its full name. -/
theorem sequence_rows (hlogs : git.Logs reaches) (stop onto orig : Option (List Char)) :
    let rows := git.magitSequenceInsertSequence stop onto orig
    let onto := git.ontoCommit onto
    let done := git.log onto
    rows.filterMap SequenceRow.picked = stop.toList.filter (git.alone done) ++ done ++ [onto]
      ∧ (rows.countP SequenceRow.isHead = 1 ↔ ¬ (reaches onto git.head ∧ git.head ≠ onto))
      ∧ rows.countP SequenceRow.tellsStop = stop.toList.countP (git.named done)
      ∧ ∀ row ∈ rows, row.type ≠ "poof".toList := by
  intro rows onto done
  have hnodup : done.Nodup := hlogs.nodup onto
  have hrows : rows = (git.stopRow done stop).1.toList
      ++ done.map (git.doneRow (git.stopRow done stop).2 orig)
      ++ [.commit "onto".toList onto (if onto = git.head then .head else .onto)] := rfl
  obtain ⟨hpicked, hhead, htells, hpoof⟩ := stopRow_spec git done stop
  rw [hrows]
  refine ⟨?_, ?_, ?_, ?_⟩
  · rw [List.filterMap_append, List.filterMap_append, hpicked, filterMap_doneRow]
    rfl
  · have honto : [SequenceRow.commit "onto".toList onto
        (if onto = git.head then .head else .onto)].countP SequenceRow.isHead
        = if git.head = onto then 1 else 0 := by
      rw [List.countP_singleton]
      by_cases heq : onto = git.head
      · rw [if_pos heq, if_pos heq.symm]
        rfl
      · rw [if_neg heq, if_neg (Ne.symm heq)]
        rfl
    have hmem : git.head ∈ done ↔ ¬ reaches onto git.head :=
      (hlogs.mem_log onto git.head).trans (and_iff_right (hlogs.refl _))
    rw [List.countP_append, List.countP_append, hhead, countP_isHead_doneRow, honto, hnodup.count,
      Nat.zero_add]
    by_cases heq : git.head = onto
    · have hnot : git.head ∉ done := mt hmem.mp (not_not_intro (heq ▸ hlogs.refl _))
      rw [if_neg hnot, if_pos heq]
      exact iff_of_true rfl fun h => h.2 heq
    · rw [if_neg heq, Nat.add_zero]
      by_cases hdone : git.head ∈ done
      · rw [if_pos hdone]
        exact iff_of_true rfl fun h => hmem.mp hdone h.1
      · rw [if_neg hdone]
        exact iff_of_false Nat.zero_ne_one
          (not_not_intro ⟨not_not.mp (mt hmem.mpr hdone), heq⟩)
  · rw [List.countP_append, List.countP_append, countP_tellsStop_doneRow hnodup, htells]
    rfl
  · refine List.forall_mem_append.mpr ⟨List.forall_mem_append.mpr ⟨hpoof, ?_⟩, ?_⟩
    · exact type_doneRow_ne_poof _ orig
    · have hword : "onto".toList ≠ "poof".toList := by decide
      exact List.forall_mem_singleton.mpr hword

/-! ## A branch of two commits onto another one -/

/-- Three commits, the newest first. -/
def history : List (List Char) := ["c".toList, "b".toList, "a".toList]

/-- The history is linear. -/
def linearReaches (c c' : List Char) : Bool :=
  c == c' || (history.dropWhile (· != c)).contains c'

/-- Git in a repository in which nothing is modified, and each commit makes its own change. -/
def linearGit : SequenceGit where
  revParse name := if name == "HEAD".toList then "c".toList else name
  log onto := history.filter fun c => !linearReaches onto c
  patchId rev := rev
  revEqual _ _ := false
  unmerged := false
  modified := false
  staged := none
  unstaged := none

/-- The log of the example is what git prints of its history. -/
theorem logs_linearGit : linearGit.Logs (linearReaches · · = true) where
  refl c := by rw [linearReaches, beq_self_eq_true, Bool.true_or]
  nodup _ := List.filter_sublist.nodup (by decide)
  mem_log onto c := by
    have hall : history.dropWhile (· != linearGit.head) = history := by decide
    have hhead : linearReaches linearGit.head c = true ↔ c ∈ history := by
      rw [linearReaches, hall, Bool.or_eq_true, List.contains_iff_mem, beq_iff_eq]
      refine or_iff_right_of_imp ?_
      rintro rfl
      decide
    rw [hhead, Bool.not_eq_true, ← Bool.not_eq_true']
    exact List.mem_filter

/-- The commit git stopped at has been lost. -/
theorem sequence_rows_linearGit :
    let rows := linearGit.magitSequenceInsertSequence (some "d".toList) (some "a".toList) none
    rows.filterMap SequenceRow.picked = "d".toList :: history
      ∧ rows.countP SequenceRow.isHead = 1 ∧ rows.countP SequenceRow.tellsStop = 1 := by
  have h := sequence_rows logs_linearGit (some "d".toList) (some "a".toList) none
  exact ⟨h.1.trans (by decide), h.2.1.mpr (by decide), h.2.2.1.trans (by decide)⟩

end SequenceGit

end Magit.GitRebase
