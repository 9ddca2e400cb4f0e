import Magit.Client.StatusHeaders

/-!
# Client/RefLabels — the labels of refs in a log

`magit-format-ref-labels` makes a label of each ref that decorates a commit, and asks for three
kinds of things on the way: whether a name is also that of a tag, which branch a remote's `HEAD`
points to, and the upstream of the current branch.  For some names the response has the answer, as a
line with its newline; git's own is read without it.
-/

namespace Magit.Client

open Emacs Git Protocol Server

/-! ## Labels -/

/-- The faces of labels, for what a ref is. -/
inductive RefFace
  | bisectBad
  | bisectSkip
  | bisectGood
  | head
  | tag
  | branchLocal
  | branchRemote
  | branchRemoteHead
  | branchCurrent
  | branchUpstream
  | refnameStash
  | refnameWip
  | refnamePullreq
  | refname
  deriving DecidableEq

/-- A string with the `font-lock-face` of each character. -/
abbrev Label := List (Char × List RefFace)

namespace Label

/-- The characters of a label. -/
def text (label : Label) : Text := label.map Prod.fst

/-- `magit--propertize-face`. -/
def propertize (text : Text) (faces : List RefFace) : Label := text.map fun c => (c, faces)

/-- `magit--add-face-text-property`, over the whole string. -/
def addFace (face : RefFace) (label : Label) : Label :=
  label.map fun c => (c.1, face :: c.2)

@[simp] theorem text_propertize (text : Text) (faces : List RefFace) :
    (propertize text faces).text = text := by
  simp [Label.text, propertize, Function.comp_def]

@[simp] theorem text_append (a b : Label) : (a ++ b).text = a.text ++ b.text :=
  List.map_append

end Label

/-! ## Refs of a decoration -/

section

-- What `case-fold-search` makes of a character before it is compared.
variable (fold : Char → Char)

/-- `looking-at` a literal prefix, with `case-fold-search`. -/
def foldPrefix (pre text : Text) : Bool := (text.take pre.length).map fold = pre.map fold

/-- `(replace-regexp-in-string "\\(tag: \\|HEAD -> \\)" "" string)`, behind a match of which so many
characters are left. -/
def dropMarks : ℕ → Text → Text
  | _, [] => []
  | left + 1, _ :: text => dropMarks left text
  | 0, c :: text =>
    if foldPrefix fold "tag: ".toList (c :: text) then dropMarks 4 text
    else if foldPrefix fold "HEAD -> ".toList (c :: text) then dropMarks 7 text
    else c :: dropMarks 0 text

/-- `(split-string string ", ")`. -/
def splitRefs : Text → List Text
  | [] => [[]]
  | ',' :: ' ' :: text => [] :: splitRefs text
  | c :: text =>
    match splitRefs text with
    | ref :: refs => (c :: ref) :: refs
    | [] => [[c]]

/-- The names in a decoration that git log prints. -/
def decorationRefs (string : Text) : List Text :=
  (splitRefs (dropMarks fold 0 string)).filter (· ≠ [])

/-- A piece of a ref that an entry of `magit-ref-namespaces` shows: `\(.+\)`. -/
def shownPart (text : Text) : Option Text := some (lineText text) |>.filter (· ≠ [])

/-- `magit-ref-namespaces`: the face and the group of the first entry that matches. -/
def refNamespace (ref : Text) : Option (RefFace × Option Text) :=
  let under (pre : String) (face : RefFace) : Option (RefFace × Option Text) :=
    if foldPrefix fold pre.toList ref then
      (shownPart (ref.drop pre.toList.length)).map fun name => (face, some name)
    else none
  let bisect (pre name : String) (more : Bool) (face : RefFace) :
      Option (RefFace × Option Text) :=
    let behind := ref.drop pre.toList.length
    if foldPrefix fold pre.toList ref && foldPrefix fold name.toList behind then
      some (face, some (if more then lineText behind else behind.take name.toList.length))
    else none
  let marked (name : String) (face : RefFace) : Option (RefFace × Option Text) :=
    if foldPrefix fold (name ++ ":").toList ref then
      some (face, some (ref.take name.toList.length))
    else none
  (if ref.map fold = "HEAD".toList.map fold then some (.head, none) else none)
  <|> under "refs/tags/" .tag
  <|> under "refs/heads/" .branchLocal
  <|> under "refs/remotes/" .branchRemote
  <|> bisect "refs/bisect/" "bad" false .bisectBad
  <|> bisect "refs/bisect/" "skip" true .bisectSkip
  <|> bisect "refs/bisect/" "good" true .bisectGood
  <|> (if (lineText ref).map fold = "refs/stash".toList.map fold then some (.refnameStash, none)
    else none)
  <|> under "refs/wip/" .refnameWip
  <|> under "refs/pullreqs/" .refnamePullreq
  <|> marked "bad" .bisectBad
  <|> marked "skip" .bisectSkip
  <|> marked "good" .bisectGood
  <|> (shownPart ref).map fun name => (.refname, some name)

end

/-! ## Where the values come from -/

/-- What is asked about refs while labels are made. -/
structure RefSource where
  verifyTagMaster : Text → Bool
  originHead : Text → Option Text
  upstreamBranchMaster : Option Text → Option Label

/-- What is asked of git: its output, whether a revision exists, and options of branches. -/
structure GitRefs where
  git : List Text → Text
  revVerify : Text → Bool
  branchRemote : Text → Option Text

namespace GitRefs

variable (g : GitRefs)

/-- The remote branch that `HEAD` of a remote stands for, if a symbolic ref says so. -/
def symbolicRef (remoteName : Text) : Option Text :=
  gitString g.git
    ["symbolic-ref".toList, "refs/remotes/".toList ++ remoteName ++ "/HEAD".toList]

/-- There is a tag of that name. -/
def verifyTag (name : Text) : Bool := g.revVerify ("refs/tags/".toList ++ name)

/-- `magit-get-upstream-branch`, with its face. -/
def upstreamBranch (branch : Option Text) : Option Label :=
  (branch.or (magitGetCurrentBranch g.git)).bind fun branch =>
    (magitRefAbbrev g.git (upstreamRev branch)).map fun upstream =>
      Label.propertize upstream
        [if g.branchRemote branch = some ".".toList then .branchLocal else .branchRemote]

/-- A field that is a line, if it is not empty. -/
def fieldLine (key : ℕ) (gitInfo : List (MsgpackObject × MsgpackObject)) : Option Text :=
  (infoText key gitInfo).filter (· ≠ [])

/-- The values the functions return, from the response if there is one. -/
def source (gitInfo : List (MsgpackObject × MsgpackObject)) : RefSource where
  verifyTagMaster name :=
    if gitInfo = [] then g.verifyTag name
    else if name = "master".toList then (fieldLine magitInfoTagMasterEnum gitInfo).isSome
    else if name = "origin/master".toList then
      (fieldLine magitInfoTagOriginMasterEnum gitInfo).isSome
    else if name = "origin/HEAD".toList then (fieldLine magitInfoTagOriginHeadEnum gitInfo).isSome
    else g.verifyTag name
  originHead remoteName :=
    if gitInfo = [] then g.symbolicRef remoteName
    else if remoteName = "origin".toList then fieldLine magitInfoOriginHeadEnum gitInfo
    else g.symbolicRef remoteName
  upstreamBranchMaster branch :=
    if gitInfo ≠ [] ∧ branch = some "master".toList then
      (infoText magitInfoUpstreamBranchMasterEnum gitInfo).map (Label.propertize · [])
    else g.upstreamBranch branch

end GitRefs

/-! ## Making labels -/

section

variable (src : RefSource)

/-- The refs by what they are, in the order they are put together. -/
structure SortedRefs where
  state : Option Label := none
  head : Option Label := none
  tags : List Label := []
  branches : List Label := []
  remotes : List Label := []
  other : List Label := []

/-- What is shown of a ref; `none` is a signal. -/
def refLabel (refAbbrev : Text → Option Text) (ref : Text) (group : Option Text) : Option Text :=
  match group with
  | some name =>
    if ¬ "refs/tags/".toList.isPrefixOf ref ∧ src.verifyTagMaster name then refAbbrev ref
    else some name
  | none => some ref

/-- The loop over the refs. -/
def sortRefs (fold : Char → Char) (refAbbrev : Text → Option Text) :
    List Text → SortedRefs → Option SortedRefs
  | [], sorted => some sorted
  | ref :: refs, sorted => do
    let (face, group) ← refNamespace fold ref
    let name ← refLabel src refAbbrev ref group
    let name := Label.propertize name [face]
    sortRefs fold refAbbrev refs <|
      match face with
      | .bisectBad | .bisectSkip | .bisectGood => { sorted with state := some name }
      | .head => { sorted with head := some (Label.propertize ['@'] [.head]) }
      | .tag => { sorted with tags := name :: sorted.tags }
      | .branchLocal => { sorted with branches := name :: sorted.branches }
      | .branchRemote => { sorted with remotes := name :: sorted.remotes }
      | _ => { sorted with other := name :: sorted.other }

/-- What becomes of a remote branch: the one the remote's `HEAD` points to is marked, and that `HEAD`
itself is left out. -/
def markRemote (name : Label) : Option Label :=
  let r := name.text.takeWhile (· ≠ '/')
  match name.text.drop r.length with
  | _ :: b =>
    if '\n' ∈ b then some name
    else if b = "HEAD".toList then none
    else if src.originHead r = some ("refs/remotes/".toList ++ name.text) then
      some (Label.propertize name.text [.branchRemoteHead])
    else some name
  | [] => some name

/-- What the loop over the branches changes. -/
structure Arranged where
  head : Option Label
  upstream : Option Label
  combined : List Label
  remotes : List Label

/-- `(delete label labels)`. -/
def deleteLabel (label : Label) (labels : List Label) : List Label :=
  labels.filter (·.text ≠ label.text)

/-- A branch, behind the remote it is pushed to if the remote has it. -/
def arrangeBranch (current : Option Text) (target : Option Label)
    (pushBranch : Text → Option Text) (a : Arranged) (name : Label) : Arranged :=
  let push := a.remotes.find? fun remote => some remote.text = pushBranch name.text
  let remotes := match push with
    | some push => deleteLabel push a.remotes
    | none => a.remotes
  let push := match push with
    | some push => push.take ((push.text.takeWhile (· ≠ '/')).length + 1)
    | none => []
  let a := { a with remotes := remotes }
  if some name.text = current then
    { a with head := some (push ++ Label.propertize name.text [.branchCurrent]) }
  else if some name.text = target.map Label.text then
    { a with upstream := some (push ++ Label.propertize name.text [.branchUpstream, .branchLocal]) }
  else { a with combined := (push ++ name) :: a.combined }

/-- The upstream among the remotes or the branches, if it was no branch of its own. -/
def arrangeUpstream (target : Option Label) (a : Arranged) : Arranged :=
  match target, a.upstream with
  | some target, none =>
    if a.remotes.any (·.text = target.text) then
      { a with
        upstream := some (target.addFace .branchUpstream)
        remotes := deleteLabel target a.remotes }
    else
      match a.combined.find? (·.text = target.text) with
      | some target =>
        { a with
          upstream := some (target.addFace .branchUpstream)
          combined := deleteLabel target a.combined }
      | none => a
  | _, _ => a

/-- `(string-join labels " ")`. -/
def joinLabels (labels : List Label) : Label := [(' ', [])].intercalate labels

/-- `magit-format-ref-labels`, where the current branch and the branches that branches are pushed to
are given; `none` is a signal. -/
def magitFormatRefLabels (fold : Char → Char) (refAbbrev : Text → Option Text)
    (current : Option Text) (pushBranch : Text → Option Text) (string : Text) : Option Label := do
  let sorted ← sortRefs src fold refAbbrev (decorationRefs fold string) {}
  let target := src.upstreamBranchMaster current
  let arranged := sorted.branches.foldl (arrangeBranch current target pushBranch)
    ⟨sorted.head, none, [], sorted.remotes.filterMap (markRemote src)⟩
  let a := arrangeUpstream target arranged
  return joinLabels (sorted.state.toList ++ a.head.toList ++ a.upstream.toList
    ++ sorted.tags.reverse ++ a.combined.reverse ++ a.remotes.reverse ++ sorted.other)

end

/-! ## Splitting and sorting -/

/-- What is relied on of `fold`: it leaves small letters alone, and a blank has no other case. -/
structure FoldsCase (fold : Char → Char) : Prop where
  small : ∀ c, c.isLower = true → fold c = c
  blank : ∀ c, fold c = fold ' ' → c = ' '

section

variable {fold : Char → Char}

/-- A pattern with a blank in it matches no text without one. -/
theorem foldPrefix_eq_false (hfold : FoldsCase fold) {pre text : Text} (hpre : ' ' ∈ pre)
    (htext : ' ' ∉ text) : foldPrefix fold pre text = false := by
  rw [foldPrefix, decide_eq_false_iff_not]
  intro h
  have hmem : fold ' ' ∈ (text.take pre.length).map fold := by
    rw [h]
    exact List.mem_map_of_mem hpre
  obtain ⟨c, hc, hblank⟩ := List.mem_map.mp hmem
  rw [hfold.blank c hblank] at hc
  exact htext (List.mem_of_mem_take hc)

/-- A text without blanks has no marks to drop. -/
theorem dropMarks_of_notMem (hfold : FoldsCase fold) {text : Text} (h : ' ' ∉ text) :
    dropMarks fold 0 text = text := by
  induction text with
  | nil => rfl
  | cons c text ih =>
    rw [dropMarks, foldPrefix_eq_false hfold (by decide) h,
      foldPrefix_eq_false hfold (by decide) h, if_neg Bool.false_ne_true,
      if_neg Bool.false_ne_true, ih (List.not_mem_of_not_mem_cons h)]

/-- A text without blanks is one reference. -/
theorem splitRefs_of_notMem {text : Text} (h : ' ' ∉ text) : splitRefs text = [text] := by
  induction text using splitRefs.induct with
  | case1 => rfl
  | case2 text ih => simp at h
  | case3 c text hsep ref refs href ih =>
    rw [splitRefs, ih (List.not_mem_of_not_mem_cons h)]
    exact hsep
  | case4 c text hsep hnil ih =>
    rw [splitRefs, ih (List.not_mem_of_not_mem_cons h)]
    exact hsep

/-- A ref by itself is a decoration. -/
theorem decorationRefs_singleton (hfold : FoldsCase fold) {ref : Text} (h : ' ' ∉ ref)
    (hne : ref ≠ []) : decorationRefs fold ref = [ref] := by
  rw [decorationRefs, dropMarks_of_notMem hfold h, splitRefs_of_notMem h]
  exact List.filter_cons_of_pos (decide_eq_true hne)

theorem foldPrefix_append (pre text : Text) : foldPrefix fold pre (pre ++ text) = true := by
  rw [foldPrefix, List.take_left, decide_eq_true rfl]

theorem shownPart_of_word {text : Text} (h : IsWord text) : shownPart text = some text := by
  rw [shownPart, lineText_of_notMem h.2.2, Option.filter_some, if_pos (decide_eq_true h.1)]

/-- A local branch is recognized by its namespace. -/
theorem refNamespace_heads (hfold : FoldsCase fold) {name : Text} (h : IsWord name) :
    refNamespace fold ("refs/heads/".toList ++ name) = some (.branchLocal, some name) := by
  have hhead : ("refs/heads/".toList ++ name).map fold ≠ "HEAD".toList.map fold := fun heq => by
    simpa using congrArg List.length heq
  have htags : foldPrefix fold "refs/tags/".toList ("refs/heads/".toList ++ name) = false := by
    simp [foldPrefix, hfold.small 'h' (by decide), hfold.small 't' (by decide)]
  simp only [refNamespace, if_neg hhead, htags, foldPrefix_append, List.drop_left,
    shownPart_of_word h, Bool.false_eq_true, if_false, if_true, Option.map_some]
  rfl

/-- A remote-tracking branch is recognized by its namespace. -/
theorem refNamespace_remotes (hfold : FoldsCase fold) {name : Text} (h : IsWord name) :
    refNamespace fold ("refs/remotes/".toList ++ name) = some (.branchRemote, some name) := by
  have hhead : ("refs/remotes/".toList ++ name).map fold ≠ "HEAD".toList.map fold := fun heq => by
    simpa using congrArg List.length heq
  have htags : foldPrefix fold "refs/tags/".toList ("refs/remotes/".toList ++ name) = false := by
    simp [foldPrefix, hfold.small 'r' (by decide), hfold.small 't' (by decide)]
  have hheads : foldPrefix fold "refs/heads/".toList ("refs/remotes/".toList ++ name) = false := by
    simp [foldPrefix, hfold.small 'r' (by decide), hfold.small 'h' (by decide)]
  simp only [refNamespace, if_neg hhead, htags, hheads, foldPrefix_append, List.drop_left,
    shownPart_of_word h, Bool.false_eq_true, if_false, if_true, Option.map_some]
  rfl

/-- A ref that is shown as a branch, of the repository or of a remote. -/
def IsBranchRef (fold : Char → Char) (ref : Text) : Prop :=
  ∃ face group, refNamespace fold ref = some (face, group)
    ∧ (face = .branchLocal ∨ face = .branchRemote)

/-- An entry shows a branch, if it does, by a part of the ref. -/
def ShowsPart (entry : Option (RefFace × Option Text)) : Prop :=
  ∀ face group, entry = some (face, group) → face = .branchLocal ∨ face = .branchRemote →
    ∃ name, group = some name ∧ name ≠ []

/-- Of two namespaces that show a part, the first that matches does. -/
theorem ShowsPart.or {a b : Option (RefFace × Option Text)} (ha : ShowsPart a) (hb : ShowsPart b) :
    ShowsPart (a <|> b) := by
  intro face group h hface
  rw [Option.orElse_eq_orElse, Option.orElse_eq_or, Option.or_eq_some_iff] at h
  rcases h with h | ⟨-, h⟩
  · exact ha _ _ h hface
  · exact hb _ _ h hface

/-- An entry of another face shows no branch. -/
theorem showsPart_of_face {entry : Option (RefFace × Option Text)}
    (h : ∀ e ∈ entry, e.1 ≠ .branchLocal ∧ e.1 ≠ .branchRemote) : ShowsPart entry := by
  rintro face group rfl hface
  have := h (face, group) rfl
  tauto

theorem showsPart_part (c : Bool) (text : Text) (face : RefFace) :
    ShowsPart (if c then (shownPart text).map fun name => (face, some name) else none) := by
  intro face' group h _
  rw [Option.ite_none_right_eq_some] at h
  obtain ⟨-, h⟩ := h
  obtain ⟨name, hname, heq⟩ := Option.map_eq_some_iff.mp h
  obtain ⟨-, rfl⟩ := Prod.mk.inj heq
  rw [shownPart, Option.filter_eq_some_iff, decide_eq_true_eq] at hname
  exact ⟨name, rfl, hname.2⟩

/-- A branch is shown by a part of its ref. -/
theorem showsPart_refNamespace (ref : Text) : ShowsPart (refNamespace fold ref) := by
  have hother (c : Prop) [Decidable c] (face : RefFace) (group : Option Text)
      (h : face ≠ .branchLocal ∧ face ≠ .branchRemote) :
      ShowsPart (if c then some (face, group) else none) :=
    showsPart_of_face fun e he => by
      rw [Option.mem_def, Option.ite_none_right_eq_some, Option.some_inj] at he
      rw [← he.2]
      exact h
  have hlast : ShowsPart ((shownPart ref).map fun name => (RefFace.refname, some name)) :=
    showsPart_part true ref .refname
  rw [refNamespace]
  refine .or (hother _ _ _ ?_) <| .or (showsPart_part _ _ _) <| .or (showsPart_part _ _ _) <|
    .or (showsPart_part _ _ _) <| .or (hother _ _ _ ?_) <| .or (hother _ _ _ ?_) <|
    .or (hother _ _ _ ?_) <| .or (hother _ _ _ ?_) <| .or (showsPart_part _ _ _) <|
    .or (showsPart_part _ _ _) <| .or (hother _ _ _ ?_) <| .or (hother _ _ _ ?_) <|
    .or (hother _ _ _ ?_) hlast
  all_goals decide

end

/-! ## What the sources can change -/

section

variable {src src' : RefSource} {fold : Char → Char} {refAbbrev : Text → Option Text}

/-- Sorting asks about tags only. -/
theorem sortRefs_congr (h : src.verifyTagMaster = src'.verifyTagMaster) (refs : List Text)
    (sorted : SortedRefs) :
    sortRefs src fold refAbbrev refs sorted = sortRefs src' fold refAbbrev refs sorted := by
  have hlabel : refLabel src refAbbrev = refLabel src' refAbbrev := by
    funext ref group
    cases group with
    | none => rfl
    | some name => rw [refLabel, refLabel, h]
  induction refs generalizing sorted with
  | nil => rfl
  | cons ref refs ih => simp only [sortRefs, hlabel, ih]

/-- The mark for the remote's `HEAD` changes no text. -/
theorem text_of_markRemote {name label : Label} (h : markRemote src name = some label) :
    label.text = name.text := by
  rw [markRemote] at h
  split at h
  · split_ifs at h
    · rw [← Option.some.inj h]
    · rw [← Option.some.inj h, Label.text_propertize]
    · rw [← Option.some.inj h]
  · rw [← Option.some.inj h]

/-- No label of a branch is empty. -/
def SortedRefs.Nonempty (sorted : SortedRefs) : Prop :=
  (∀ l ∈ sorted.branches, l.text ≠ []) ∧ ∀ l ∈ sorted.remotes, l.text ≠ []

/-- No label is empty if no abbreviation is. -/
theorem sortRefs_nonempty
    (habbrev : ∀ {ref name}, IsBranchRef fold ref → refAbbrev ref = some name → name ≠ [])
    {refs : List Text} {sorted sorted' : SortedRefs} (hsorted : sorted.Nonempty)
    (h : sortRefs src fold refAbbrev refs sorted = some sorted') : sorted'.Nonempty := by
  induction refs generalizing sorted with
  | nil => rwa [← Option.some.inj h]
  | cons ref refs ih =>
    rw [sortRefs] at h
    obtain ⟨⟨face, group⟩, hface, h⟩ := Option.bind_eq_some_iff.mp h
    obtain ⟨name, hname, h⟩ := Option.bind_eq_some_iff.mp h
    have hne : face = .branchLocal ∨ face = .branchRemote →
        (Label.propertize name [face]).text ≠ [] := by
      intro hbranch
      obtain ⟨part, rfl, hpart⟩ := showsPart_refNamespace ref _ _ hface hbranch
      rw [Label.text_propertize]
      rw [refLabel] at hname
      split at hname
      · exact habbrev ⟨face, some part, hface, hbranch⟩ hname
      · rwa [← Option.some.inj hname]
    refine ih ?_ h
    cases face with
    | branchLocal => exact ⟨List.forall_mem_cons.mpr ⟨hne (.inl rfl), hsorted.1⟩, hsorted.2⟩
    | branchRemote => exact ⟨hsorted.1, List.forall_mem_cons.mpr ⟨hne (.inr rfl), hsorted.2⟩⟩
    | _ => exact hsorted

/-- No label that the loop over the branches may compare with the upstream is empty. -/
def Arranged.Nonempty (a : Arranged) : Prop :=
  (∀ l ∈ a.combined, l.text ≠ []) ∧ ∀ l ∈ a.remotes, l.text ≠ []

/-- An empty upstream is like none. -/
theorem arrangeBranch_empty (current : Option Text) (pushBranch : Text → Option Text)
    {a : Arranged} {name : Label} (ha : a.Nonempty) (hname : name.text ≠ []) :
    arrangeBranch current (some []) pushBranch a name = arrangeBranch current none pushBranch a name
      ∧ (arrangeBranch current none pushBranch a name).Nonempty := by
  have hremotes (push : Option Label) (l : Label) (hl : l ∈ (match push with
      | some push => deleteLabel push a.remotes
      | none => a.remotes)) : l.text ≠ [] := by
    cases push with
    | none => exact ha.2 l hl
    | some push => exact ha.2 l (List.mem_of_mem_filter hl)
  rw [arrangeBranch, arrangeBranch]
  dsimp only
  split
  · exact ⟨rfl, ha.1, hremotes _⟩
  · rw [if_neg (by simpa [Label.text] using hname), if_neg (by simp)]
    refine ⟨rfl, List.forall_mem_cons.mpr ⟨?_, ha.1⟩, hremotes _⟩
    rw [Label.text_append]
    simp [hname]

/-- An empty upstream is no upstream, when no label is empty. -/
theorem foldl_arrangeBranch_empty (current : Option Text) (pushBranch : Text → Option Text)
    {branches : List Label} (hbranches : ∀ l ∈ branches, l.text ≠ []) {a : Arranged}
    (ha : a.Nonempty) :
    branches.foldl (arrangeBranch current (some []) pushBranch) a
        = branches.foldl (arrangeBranch current none pushBranch) a
      ∧ (branches.foldl (arrangeBranch current none pushBranch) a).Nonempty := by
  induction branches generalizing a with
  | nil => exact ⟨rfl, ha⟩
  | cons name branches ih =>
    obtain ⟨hname, hbranches⟩ := List.forall_mem_cons.mp hbranches
    obtain ⟨heq, hnext⟩ := arrangeBranch_empty current pushBranch ha hname
    rw [List.foldl_cons, List.foldl_cons, heq]
    exact ih hbranches hnext

theorem arrangeUpstream_none (a : Arranged) : arrangeUpstream none a = a := rfl

/-- An empty upstream is in front of no label. -/
theorem arrangeUpstream_empty {a : Arranged} (ha : a.Nonempty) : arrangeUpstream (some []) a = a := by
  have hremote : a.remotes.any (·.text = Label.text []) = false := by
    rw [List.any_eq_false]
    exact fun l hl => by simpa [Label.text] using ha.2 l hl
  have hcombined : a.combined.find? (·.text = Label.text []) = none := by
    rw [List.find?_eq_none]
    exact fun l hl => by simpa [Label.text] using ha.1 l hl
  rcases hup : a.upstream with _ | upstream
  · simp only [arrangeUpstream, hup, hremote, hcombined, Bool.false_eq_true, if_false]
  · simp only [arrangeUpstream, hup]

/-- Sources that say the same of tags and of remotes' `HEAD`s make the same labels, if they name the
same upstream or one names none and the other an empty one. -/
theorem magitFormatRefLabels_congr
    (habbrev : ∀ {ref name}, IsBranchRef fold ref → refAbbrev ref = some name → name ≠ [])
    (htag : src.verifyTagMaster = src'.verifyTagMaster) (hmark : markRemote src = markRemote src')
    {current : Option Text} (pushBranch : Text → Option Text)
    (htarget : src.upstreamBranchMaster current = src'.upstreamBranchMaster current
      ∨ src.upstreamBranchMaster current = some [] ∧ src'.upstreamBranchMaster current = none)
    (string : Text) :
    magitFormatRefLabels src fold refAbbrev current pushBranch string
      = magitFormatRefLabels src' fold refAbbrev current pushBranch string := by
  rw [magitFormatRefLabels, magitFormatRefLabels, sortRefs_congr htag, hmark]
  rcases htarget with htarget | ⟨hempty, hnone⟩
  · rw [htarget]
  · rw [hempty, hnone]
    rcases hsort : sortRefs src' fold refAbbrev (decorationRefs fold string) {} with _ | sorted
    · rfl
    · have hsorted := sortRefs_nonempty habbrev ⟨by simp, by simp⟩ hsort
      have hremotes : ∀ l ∈ sorted.remotes.filterMap (markRemote src'), l.text ≠ [] := by
        intro l hl
        obtain ⟨name, hname, hlabel⟩ := List.mem_filterMap.mp hl
        rw [text_of_markRemote hlabel]
        exact hsorted.2 name hname
      have hstart : Arranged.Nonempty
          ⟨sorted.head, none, [], sorted.remotes.filterMap (markRemote src')⟩ :=
        ⟨by simp, hremotes⟩
      obtain ⟨hfold, hend⟩ := foldl_arrangeBranch_empty current pushBranch hsorted.1 hstart
      simp only [Option.bind_eq_bind, Option.bind_some, hfold, arrangeUpstream_empty hend,
        arrangeUpstream_none]

end

/-! ## The two sources -/

section

variable {δ : Type} {lg : Libgit2 δ} {g : GitRefs} {fold : Char → Char}

/-- The ref that the `HEAD` of `origin` names. -/
def originTarget (lg : Libgit2 δ) : Option Text :=
  match lg.referenceLookup "refs/remotes/origin/HEAD".toList with
  | .ok ⟨_, .symbolic target⟩ => some target
  | _ => none

/-- The tags that the worker looks up. -/
def workerTags : List Text := ["master".toList, "origin/master".toList, "origin/HEAD".toList]

/-- What the documentation promises about git and libgit2 in one repository: both know the same of
the worker's tags and the same `HEAD` of `origin`, the abbreviation of a branch's ref is not empty,
and that of an upstream is a word that is no tag's name. -/
structure GitRefsDocumented (lg : Libgit2 δ) (g : GitRefs) (fold : Char → Char) : Prop where
  tag : ∀ name ∈ workerTags, g.verifyTag name = true
    ↔ ∃ oid, lg.referenceNameToId ("refs/tags/".toList ++ name) = .ok oid
  origin_head : g.symbolicRef "origin".toList = originTarget lg
  origin_line : ∀ target ∈ originTarget lg, '\n' ∉ target
  abbrev_ne_nil : ∀ {ref name}, IsBranchRef fold ref → magitRefAbbrev g.git ref = some name →
    name ≠ []
  upstream : ∀ label ∈ g.upstreamBranch (some "master".toList),
    IsWord label.text ∧ g.verifyTag label.text = false

/-- A text in the response is read as its first line. -/
theorem fieldLine_of_produced {data : GitRootReqT} {key : MagitResKey} {text : Text}
    (hid : key ≠ .id) (hbare : key ≠ .isBare) (hmaster : key ≠ .upstreamBranchMaster)
    (h : produced (gitRootWorker lg data) key = some (.str text)) :
    GitRefs.fieldLine (infoEnum key) (responseInfo lg data)
      = if text = [] then none else some text := by
  rw [GitRefs.fieldLine, infoText_of_produced hid hbare hmaster h, Option.filter_some]
  by_cases ht : text = [] <;> simp [ht]

/-- The field of a tag is empty exactly if there is no such tag. -/
theorem isSome_fieldLine_tag (hdoc : GitRefsDocumented lg g fold) {data : GitRootReqT}
    {key : MagitResKey} {name : Text} (hname : name ∈ workerTags) (hid : key ≠ .id) (hbare : key ≠ .isBare)
    (hmaster : key ≠ .upstreamBranchMaster)
    (h : produced (gitRootWorker lg data) key
      = some (.str (getRefOid lg ("refs/tags/".toList ++ name) []).2)) :
    (GitRefs.fieldLine (infoEnum key) (responseInfo lg data)).isSome = g.verifyTag name := by
  rw [fieldLine_of_produced hid hbare hmaster h, Bool.eq_iff_iff, hdoc.tag name hname, getRefOid]
  rcases lg.referenceNameToId ("refs/tags/".toList ++ name) with e | oid
  · simp
  · simp

/-- The fields about refs are what their steps wrote. -/
theorem produced_gitRootWorker (hopen : 0 ≤ lg.openExt) (data : GitRootReqT) :
    produced (gitRootWorker lg data) .tagMaster
        = some (.str (getRefOid lg "refs/tags/master".toList []).2)
      ∧ produced (gitRootWorker lg data) .tagOriginMaster
        = some (.str (getRefOid lg "refs/tags/origin/master".toList []).2)
      ∧ produced (gitRootWorker lg data) .tagOriginHead
        = some (.str (getRefOid lg "refs/tags/origin/HEAD".toList []).2)
      ∧ produced (gitRootWorker lg data) .originHead = some (.str (getOriginHead lg []).2) := by
  rw [gitRootWorker, if_neg (not_lt.mpr hopen)]
  dsimp only
  split <;> exact ⟨rfl, rfl, rfl, rfl⟩

/-- **Of tags the response says what git says.** -/
theorem verifyTagMaster_source (hdoc : GitRefsDocumented lg g fold) (hopen : 0 ≤ lg.openExt)
    (data : GitRootReqT) :
    (g.source (responseInfo lg data)).verifyTagMaster = (g.source []).verifyTagMaster := by
  obtain ⟨hmaster, horiginMaster, horiginHead, -⟩ := produced_gitRootWorker hopen data
  funext name
  have hne := responseInfo_ne_nil lg data
  simp only [GitRefs.source, if_neg hne, if_true]
  split_ifs with h1 h2 h3
  · rw [h1]
    exact isSome_fieldLine_tag hdoc (by decide) (show MagitResKey.tagMaster ≠ .id by decide)
      (by decide) (by decide) hmaster
  · rw [h2]
    exact isSome_fieldLine_tag hdoc (by decide) (show MagitResKey.tagOriginMaster ≠ .id by decide)
      (by decide) (by decide) horiginMaster
  · rw [h3]
    exact isSome_fieldLine_tag hdoc (by decide) (show MagitResKey.tagOriginHead ≠ .id by decide)
      (by decide) (by decide) horiginHead
  · rfl

/-- The response has the target with its newline. -/
theorem originHead_source (hopen : 0 ≤ lg.openExt) (data : GitRootReqT) (remoteName : Text) :
    (g.source (responseInfo lg data)).originHead remoteName
      = if remoteName = "origin".toList then (originTarget lg).map (· ++ ['\n'])
        else g.symbolicRef remoteName := by
  obtain ⟨-, -, -, horigin⟩ := produced_gitRootWorker hopen data
  have hfield := fieldLine_of_produced (show MagitResKey.originHead ≠ .id by decide) (by decide)
    (by decide) horigin
  have hstep : (if (getOriginHead lg []).2 = [] then none else some (getOriginHead lg []).2)
      = (originTarget lg).map (· ++ ['\n']) := by
    rw [getOriginHead, getSymbolicRef, originTarget]
    rcases lg.referenceLookup "refs/remotes/origin/HEAD".toList with e | ⟨name, oid | target⟩ <;>
      simp
  simp only [GitRefs.source, if_neg (responseInfo_ne_nil lg data)]
  split
  · exact hfield.trans hstep
  · rfl

/-- The field about the upstream of `master` is always empty. -/
theorem upstreamBranchMaster_source (data : GitRootReqT) (branch : Option Text) :
    (g.source (responseInfo lg data)).upstreamBranchMaster branch
      = if branch = some "master".toList then some [] else g.upstreamBranch branch := by
  have hfield : infoText magitInfoUpstreamBranchMasterEnum (responseInfo lg data) = some [] := by
    have hget : magitInfoGet magitInfoUpstreamBranchMasterEnum (responseInfo lg data)
        = some (.str []) :=
      (magitInfoGet_resMsg (afterGitRootRes (gitRootWorker lg data)) .upstreamBranchMaster).trans rfl
    rw [infoText, hget]
  simp only [GitRefs.source, ne_eq, responseInfo_ne_nil lg data, not_false_eq_true, true_and,
    hfield]
  rfl

/-- What becomes of the branch of a remote. -/
theorem markRemote_of_slash (src : RefSource) {name : Label} {r b : Text}
    (htext : name.text = r ++ '/' :: b) (hr : '/' ∉ r) (hb : '\n' ∉ b) :
    markRemote src name
      = if b = "HEAD".toList then none
        else if src.originHead r = some ("refs/remotes/".toList ++ name.text) then
          some (Label.propertize name.text [.branchRemoteHead])
        else some name := by
  have htake : (r ++ '/' :: b).takeWhile (· ≠ '/') = r := by
    rw [List.takeWhile_append_of_pos, List.takeWhile_cons_of_neg (by simp), List.append_nil]
    exact fun c hc => decide_eq_true fun h => hr (h ▸ hc)
  rw [markRemote, htext, htake, List.drop_left]
  dsimp only
  rw [if_neg hb]

/-- What stands before and behind the first slash. -/
theorem eq_append_slash {text b : Text} {c : Char}
    (h : text.drop (text.takeWhile (· ≠ '/')).length = c :: b) :
    text = text.takeWhile (· ≠ '/') ++ '/' :: b := by
  induction text with
  | nil => simp at h
  | cons x text ih =>
    by_cases hx : x = '/'
    · subst hx
      rw [List.takeWhile_cons_of_neg (by simp)] at h ⊢
      rw [List.nil_append, (List.cons.inj h).2]
    · rw [List.takeWhile_cons_of_pos (by simp [hx])] at h ⊢
      rw [List.cons_append, ← ih h]

/-- Sources that find the same branches to be a remote's `HEAD` mark the same. -/
theorem markRemote_eq_of {src src' : RefSource}
    (h : ∀ r b, '/' ∉ r → '\n' ∉ b → b ≠ "HEAD".toList →
      (src.originHead r = some ("refs/remotes/".toList ++ (r ++ '/' :: b))
        ↔ src'.originHead r = some ("refs/remotes/".toList ++ (r ++ '/' :: b)))) :
    markRemote src = markRemote src' := by
  funext name
  rcases hdrop : name.text.drop (name.text.takeWhile (· ≠ '/')).length with _ | ⟨c, b⟩
  · simp only [markRemote, hdrop]
  · have htext := eq_append_slash hdrop
    have hr : '/' ∉ name.text.takeWhile (· ≠ '/') := fun hmem => by
      simpa using List.mem_takeWhile_imp hmem
    by_cases hb : '\n' ∈ b
    · simp only [markRemote, hdrop, if_pos hb]
    · rw [markRemote_of_slash src htext hr hb, markRemote_of_slash src' htext hr hb]
      by_cases hhead : b = "HEAD".toList
      · rw [if_pos hhead, if_pos hhead]
      · rw [if_neg hhead, if_neg hhead]
        refine if_congr ?_ rfl rfl
        have hsame := h _ b hr hb hhead
        rwa [← htext] at hsame

/-- A line with its newline is no ref. -/
theorem line_ne_ref {target r b : Text} (hb : '\n' ∉ b) :
    target ++ ['\n'] ≠ "refs/remotes/".toList ++ (r ++ '/' :: b) := by
  intro h
  have hlast := congrArg List.getLast? h
  rw [List.getLast?_concat, ← List.append_assoc,
    List.getLast?_append_of_ne_nil _ (List.cons_ne_nil _ _)] at hlast
  have hmem : '\n' ∈ '/' :: b := List.mem_of_getLast? hlast.symm
  exact hb ((List.mem_cons.mp hmem).resolve_left (by decide))

/-- Where the remote `origin` has a `HEAD` among its branches, the response does not mark that
branch, and nothing else makes a difference. -/
theorem markRemote_source_iff (hdoc : GitRefsDocumented lg g fold) (hopen : 0 ≤ lg.openExt)
    (data : GitRootReqT) :
    markRemote (g.source (responseInfo lg data)) = markRemote (g.source [])
      ↔ ∀ b, originTarget lg = some ("refs/remotes/origin/".toList ++ b) → b = "HEAD".toList := by
  have hgit (r : Text) : (g.source []).originHead r = g.symbolicRef r := rfl
  have hresponse (b : Text) (hb : '\n' ∉ b) : (originTarget lg).map (· ++ ['\n'])
      ≠ some ("refs/remotes/".toList ++ ("origin".toList ++ '/' :: b)) := by
    rw [ne_eq, Option.map_eq_some_iff]
    rintro ⟨target, -, h⟩
    exact line_ne_ref hb h
  constructor
  · intro h b hb
    by_contra hne
    have hline : '\n' ∉ b := fun hmem => hdoc.origin_line _ hb (List.mem_append_right _ hmem)
    have htarget : originTarget lg
        = some ("refs/remotes/".toList ++ ("origin".toList ++ '/' :: b)) := hb
    have hmark := congrFun h (Label.propertize ("origin".toList ++ '/' :: b) [])
    rw [markRemote_of_slash _ (Label.text_propertize _ _) (by decide) hline,
      markRemote_of_slash _ (Label.text_propertize _ _) (by decide) hline, if_neg hne, if_neg hne,
      Label.text_propertize, originHead_source hopen, if_pos rfl, if_neg (hresponse b hline), hgit,
      hdoc.origin_head, if_pos htarget] at hmark
    simp [Label.propertize] at hmark
  · intro h
    refine markRemote_eq_of fun r b hr hb hne => ?_
    rw [originHead_source hopen, hgit]
    split
    · rename_i horigin
      subst horigin
      rw [hdoc.origin_head]
      exact iff_of_false (hresponse b hb) fun htarget => hne (h b htarget)
    · exact Iff.rfl

/-! ## When the labels are the same -/

/-- The labels of every decoration are the same from both sources, and so is the branch of a remote
that is marked as the one its `HEAD` points to. -/
structure LabelsAgree (src src' : RefSource) (fold : Char → Char)
    (refAbbrev : Text → Option Text) (current : Option Text) (pushBranch : Text → Option Text) :
    Prop where
  labels : ∀ string, magitFormatRefLabels src fold refAbbrev current pushBranch string
    = magitFormatRefLabels src' fold refAbbrev current pushBranch string
  marked : markRemote src = markRemote src'

/-- Nothing is asked that the response does not answer as git does: the `HEAD` of `origin` is none
of its branches, and the current branch is not `master` with an upstream. -/
structure NothingAsked (lg : Libgit2 δ) (g : GitRefs) (current : Option Text) : Prop where
  origin : ∀ b, originTarget lg = some ("refs/remotes/origin/".toList ++ b) → b = "HEAD".toList
  upstream : current = some "master".toList → g.upstreamBranch current = none

variable {pushBranch : Text → Option Text}

/-- A decoration that is a local branch becomes one label. -/
theorem sortRefs_heads (hfold : FoldsCase fold) {src : RefSource} {refAbbrev : Text → Option Text}
    {name : Text} (hname : IsWord name) (htag : src.verifyTagMaster name = false) :
    sortRefs src fold refAbbrev (decorationRefs fold ("refs/heads/".toList ++ name)) {}
      = some { branches := [.propertize name [.branchLocal]] } := by
  have hword : ' ' ∉ "refs/heads/".toList ++ name := by simp [hname.2.1]
  rw [decorationRefs_singleton hfold hword (by simp), sortRefs, refNamespace_heads hfold hname]
  simp only [Option.bind_eq_bind, Option.bind_some, refLabel, htag, Bool.false_eq_true, and_false,
    if_false, sortRefs]

/-- A decoration that is a remote-tracking branch becomes one label. -/
theorem sortRefs_remotes (hfold : FoldsCase fold) {src : RefSource}
    {refAbbrev : Text → Option Text} {name : Text} (hname : IsWord name)
    (htag : src.verifyTagMaster name = false) :
    sortRefs src fold refAbbrev (decorationRefs fold ("refs/remotes/".toList ++ name)) {}
      = some { remotes := [.propertize name [.branchRemote]] } := by
  have hword : ' ' ∉ "refs/remotes/".toList ++ name := by simp [hname.2.1]
  rw [decorationRefs_singleton hfold hword (by simp), sortRefs, refNamespace_remotes hfold hname]
  simp only [Option.bind_eq_bind, Option.bind_some, refLabel, htag, Bool.false_eq_true, and_false,
    if_false, sortRefs]

/-- Labels that are not empty differ when their faces do. -/
theorem propertize_ne {text : Text} (h : text ≠ []) {faces faces' : List RefFace}
    (hfaces : faces ≠ faces') : Label.propertize text faces ≠ Label.propertize text faces' := by
  cases text with
  | nil => exact absurd rfl h
  | cons c text => exact fun heq => hfaces (Prod.mk.inj (List.cons.inj heq).1).2

/-- The label of one local branch, by itself, that is not the current one. -/
theorem format_heads (hfold : FoldsCase fold) {src : RefSource} {refAbbrev : Text → Option Text}
    {current : Option Text} {name : Text} (hname : IsWord name)
    (htag : src.verifyTagMaster name = false) (hcurrent : some name ≠ current) {target : Label}
    (htarget : src.upstreamBranchMaster current = some target) :
    magitFormatRefLabels src fold refAbbrev current pushBranch ("refs/heads/".toList ++ name)
      = some (.propertize name
          (if name = target.text then [.branchUpstream, .branchLocal] else [.branchLocal])) := by
  rw [magitFormatRefLabels, sortRefs_heads hfold hname htag, htarget]
  by_cases hup : name = target.text
  · simp [arrangeBranch, arrangeUpstream, hcurrent, ← hup, joinLabels]
  · simp [arrangeBranch, arrangeUpstream, hcurrent, hup, joinLabels]

/-- The label of one remote branch without a remote in its name, by itself. -/
theorem format_remotes (hfold : FoldsCase fold) {src : RefSource} {refAbbrev : Text → Option Text}
    {current : Option Text} {name : Text} (hname : IsWord name) (hslash : '/' ∉ name)
    (htag : src.verifyTagMaster name = false) {target : Label}
    (htarget : src.upstreamBranchMaster current = some target) :
    magitFormatRefLabels src fold refAbbrev current pushBranch ("refs/remotes/".toList ++ name)
      = some (if name = target.text then target.addFace .branchUpstream
          else .propertize name [.branchRemote]) := by
  have htake : name.takeWhile (· ≠ '/') = name :=
    List.takeWhile_eq_self_iff.mpr fun c hc => decide_eq_true fun h => hslash (h ▸ hc)
  have hmark : markRemote src (.propertize name [.branchRemote])
      = some (.propertize name [.branchRemote]) := by
    rw [markRemote, Label.text_propertize, htake, List.drop_length]
  rw [magitFormatRefLabels, sortRefs_remotes hfold hname htag, htarget]
  simp only [Option.bind_eq_bind, Option.bind_some, List.foldl_nil, List.filterMap_cons, hmark,
    List.filterMap_nil]
  by_cases hup : name = target.text
  · simp [arrangeUpstream, ← hup, joinLabels, deleteLabel]
  · simp [arrangeUpstream, hup, joinLabels]

/-- An upstream of `master` makes a difference to the label of that branch. -/
theorem exists_labels_ne (hfold : FoldsCase fold) {src src' : RefSource}
    {refAbbrev : Text → Option Text} (htag : src.verifyTagMaster = src'.verifyTagMaster)
    {label : Label} (hlabel : IsWord label.text) (hno : src'.verifyTagMaster label.text = false)
    {current : Option Text} (hcurrent : current = some "master".toList)
    (hempty : src.upstreamBranchMaster current = some [])
    (hupstream : src'.upstreamBranchMaster current = some label) :
    ∃ string, magitFormatRefLabels src fold refAbbrev current pushBranch string
      ≠ magitFormatRefLabels src' fold refAbbrev current pushBranch string := by
  have hno' : src.verifyTagMaster label.text = false := by rw [htag, hno]
  have hne : label.text ≠ Label.text [] := hlabel.1
  by_cases hmaster : some label.text = current
  -- Of a branch that is its own upstream, a remote branch of the same name shows it.
  · have hslash : '/' ∉ label.text := by
      rw [hcurrent, Option.some_inj] at hmaster
      rw [hmaster]
      decide
    refine ⟨"refs/remotes/".toList ++ label.text, fun h => ?_⟩
    rw [format_remotes hfold hlabel hslash hno' hempty,
      format_remotes hfold hlabel hslash hno hupstream, if_neg hne, if_pos rfl,
      Option.some_inj] at h
    rcases label with _ | ⟨⟨c, faces⟩, label⟩
    · exact hlabel.1 rfl
    · simp [Label.propertize, Label.addFace, Label.text] at h
  · refine ⟨"refs/heads/".toList ++ label.text, fun h => ?_⟩
    rw [format_heads hfold hlabel hno' hmaster hempty, format_heads hfold hlabel hno hmaster hupstream,
      if_neg hne, if_pos rfl, Option.some_inj] at h
    exact propertize_ne hlabel.1 (by decide) h

/-- **The labels do not depend on where the values come from** if and only if the `HEAD` of `origin`
is none of its branches, and the current branch is not `master` with an upstream: the response has
the former with a newline that no ref has, and of the latter an empty field. -/
theorem labels_agree_iff (hfold : FoldsCase fold) (hdoc : GitRefsDocumented lg g fold)
    (hopen : 0 ≤ lg.openExt) (data : GitRootReqT) (current : Option Text)
    (pushBranch : Text → Option Text) :
    LabelsAgree (g.source (responseInfo lg data)) (g.source []) fold (magitRefAbbrev g.git) current
        pushBranch
      ↔ NothingAsked lg g current := by
  have htag := verifyTagMaster_source hdoc hopen data
  have hmark := markRemote_source_iff hdoc hopen data
  have hgit : (g.source []).upstreamBranchMaster current = g.upstreamBranch current := by
    simp [GitRefs.source]
  constructor
  · intro h
    refine ⟨hmark.mp h.marked, fun hmaster => ?_⟩
    by_contra hsome
    obtain ⟨label, hlabel⟩ := Option.ne_none_iff_exists'.mp hsome
    have hempty : (g.source (responseInfo lg data)).upstreamBranchMaster current = some [] := by
      rw [upstreamBranchMaster_source, if_pos hmaster]
    obtain ⟨hword, hno⟩ := hdoc.upstream label (by rw [← hmaster]; exact hlabel)
    obtain ⟨string, hne⟩ := exists_labels_ne hfold htag hword hno hmaster hempty
      (hgit.trans hlabel)
    exact hne (h.labels string)
  · intro h
    have hmarked := hmark.mpr h.origin
    refine ⟨magitFormatRefLabels_congr hdoc.abbrev_ne_nil htag hmarked pushBranch ?_, hmarked⟩
    rw [upstreamBranchMaster_source, hgit]
    split
    · rename_i hmaster
      exact .inr ⟨rfl, h.upstream hmaster⟩
    · exact .inl rfl

end

/-! ## A clone with and without a `HEAD` of its remote -/

/-- The clone of the headers; no tag exists. -/
def cloneRefs : GitRefs where
  git := cloneGit
  revVerify _ := false
  branchRemote _ := some "origin".toList

theorem cloneGit_abbrevRef (refname : Text) : cloneGit (abbrevRefArgs refname) = []
    ∨ cloneGit (abbrevRefArgs refname) = "origin/master".toList ++ ['\n'] := by
  rw [cloneGit]
  split_ifs with h1 h2 h3 h4 h5
  · simp [abbrevRefArgs, symbolicRefArgs] at h1
  · exact .inr rfl
  · simp [abbrevRefArgs, logArgs] at h3
  · simp [abbrevRefArgs, logArgs] at h4
  · simp [abbrevRefArgs, logArgs] at h5
  · exact .inl rfl

/-- In the example only `origin/master` is an abbreviation. -/
theorem magitRefAbbrev_clone {refname name : Text}
    (h : magitRefAbbrev cloneGit refname = some name) : name = "origin/master".toList := by
  rcases cloneGit_abbrevRef refname with hgit | hgit
  · rw [magitRefAbbrev, gitString_of_nothing hgit] at h
    simp at h
  · rw [magitRefAbbrev, gitString_of_line hgit (by decide)] at h
    exact (Option.some.inj h).symm

theorem refs_tag_clone (name : Text) : cloneStore.refs ("refs/tags/".toList ++ name) = none := by
  rw [cloneStore]
  dsimp only
  rw [if_neg, if_neg, if_neg]
  · simp
  · simp
  · simp [RefStore.headName]

theorem referenceNameToId_tag_clone (name : Text) :
    cloneLibgit2.referenceNameToId ("refs/tags/".toList ++ name) = .error gitEnotfound := by
  have hclone : cloneLibgit2.referenceNameToId = cloneStore.libgit2.referenceNameToId := rfl
  rw [hclone, RefStore.libgit2]
  dsimp only
  rw [refs_tag_clone]

/-- The clone behaves as Git's documentation says. -/
theorem gitRefsDocumented_clone (fold : Char → Char) :
    GitRefsDocumented cloneLibgit2 cloneRefs fold where
  tag name _ := by
    refine iff_of_false Bool.false_ne_true fun h => ?_
    obtain ⟨oid, hoid⟩ := h
    rw [referenceNameToId_tag_clone] at hoid
    exact nomatch hoid
  origin_head := by decide
  origin_line target h := by
    have hnone : originTarget cloneLibgit2 = none := by decide
    simp [hnone] at h
  abbrev_ne_nil _ h := by
    rw [magitRefAbbrev_clone h]
    decide
  upstream label h := by
    have hup : cloneRefs.upstreamBranch (some "master".toList)
        = some (.propertize "origin/master".toList [.branchRemote]) := by decide
    rw [hup, Option.mem_def, Option.some_inj] at h
    rw [← h, Label.text_propertize]
    exact ⟨by decide, rfl⟩

/-- In the clone both sources give the same labels. -/
theorem labels_agree_clone :
    LabelsAgree (cloneRefs.source (responseInfo cloneLibgit2 { id := 1 })) (cloneRefs.source []) id
      (magitRefAbbrev cloneGit) (some "topic".toList) fun _ => none :=
  (labels_agree_iff ⟨fun _ _ => rfl, fun _ h => h⟩ (gitRefsDocumented_clone id) (by decide) _ _
    _).mpr
    ⟨fun b h => absurd h (by
      have hnone : originTarget cloneLibgit2 = none := by decide
      simp [hnone]), fun h => absurd h (by decide)⟩

/-- The clone, with a `HEAD` of `origin` that names its `master`. -/
def headLibgit2 : Libgit2 Unit :=
  { cloneLibgit2 with
    referenceLookup := fun name =>
      if name = "refs/remotes/origin/HEAD".toList then
        .ok ⟨name, .symbolic "refs/remotes/origin/master".toList⟩
      else cloneLibgit2.referenceLookup name }

/-- A repository in which `HEAD` of `origin` stands for `origin/master`. -/
def headRefs : GitRefs :=
  { cloneRefs with
    git := fun args =>
      if args = ["symbolic-ref".toList, "refs/remotes/origin/HEAD".toList] then
        "refs/remotes/origin/master\n".toList
      else cloneGit args }

/-- The branch that `HEAD` of `origin` names is marked from git and not from the response. -/
theorem origin_head_not_marked :
    let response := headRefs.source (responseInfo headLibgit2 { id := 1 })
    let git := headRefs.source []
    let format src := magitFormatRefLabels src id (magitRefAbbrev headRefs.git)
      (some "topic".toList) (fun _ => none) "refs/remotes/origin/master".toList
    format response = some (.propertize "origin/master".toList [.branchRemote])
      ∧ format git = some (.propertize "origin/master".toList [.branchRemoteHead])
      ∧ ¬ LabelsAgree response git id (magitRefAbbrev headRefs.git) (some "topic".toList)
          fun _ => none := by
  intro response git format
  have hresponse : format response
      = some (.propertize "origin/master".toList [.branchRemote]) := by decide
  have hgit : format git = some (.propertize "origin/master".toList [.branchRemoteHead]) := by
    decide
  refine ⟨hresponse, hgit, fun h => ?_⟩
  exact absurd ((hresponse.symm.trans (h.labels _)).trans hgit) (by decide)

end Magit.Client
