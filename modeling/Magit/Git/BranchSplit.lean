import Magit.Emacs.Unquoted
import Mathlib.Data.List.TakeWhile

/-!
# Git/BranchSplit — which remote a branch is on, and its name there

`magit-split-branch-name` puts the names of the remotes into a regular expression as they are,
`magit-branch-delete` takes the first component of the first name as the remote of all of them, and
`magit-branch-checkout` takes what is behind the first component as the name.  `usesSplit_iff` is
when all three come to the same.
-/

namespace Magit.BranchSplit

open Emacs

/-- The name of a branch or a remote. -/
abbrev Name := List Char

/-! ## `magit-split-branch-name` -/

section

variable (fold : Char → Char)

/-- What stands in the first group, the name of a remote as it is; Git allows neither a backslash
nor any of `[*?^` in it.  A dollar sign in front of the group's end is not itself. -/
def remoteRegexp (remote : Name) : Regexp :=
  if remote.getLast? = some '$' then
    .seq (Piece.sequence (unquoted fold 3 none remote.dropLast)) .eol
  else Piece.sequence (unquoted fold 3 none remote)

/-- ``\`\(%s\)/\(.+\)\'`` -/
def branchRegexp (remote : Name) : Regexp :=
  .seq (.group 1 (remoteRegexp fold remote))
    (.seq (.char (· == '/')) (.group 2 (.plus (· != '\n'))))

/-- The two groups of a match of the whole name. -/
def matchBranch (branch remote : Name) : Option (Name × Name) :=
  ((branchRegexp fold remote).matchWhole branch).map fun g => ((g 1).getD [], (g 2).getD [])

/-- `magit-split-branch-name`; a branch without a slash that is not a local one gives nil. -/
def magitSplitBranchName (localNames remotes : List Name) (branch : Name) :
    Except (List Char) (Option (Name × Name)) :=
  if localNames.contains branch then .ok (some (['.'], branch))
  else if branch.contains '/' then
    match remotes.findSome? (matchBranch fold branch) with
    | some split => .ok (some split)
    | none => .error ("Invalid branch name ".toList ++ branch)
  else .ok none

end

/-! ## `magit-branch-delete` -/

/-- What is done in the end. -/
inductive Deletion
  /-- `git push`, to a remote. -/
  | push (noVerify : Bool) (remote : Name) (refspecs : List Name)
  /-- `git update-ref -d`, for each. -/
  | updateRefs (refs : List Name)
  /-- What is done to local branches. -/
  | branches (names : List Name)

/-- What a command signals. -/
inductive Signal
  | userError (message : List Char)
  | argsOutOfRange (text : Name) (offset : ℕ)

/-- ``^refs/remotes/\([^/]+\)`` -/
def remoteOf (ref : Name) : Option Name :=
  if "refs/remotes/".toList.isPrefixOf ref then
    let remote := (ref.drop "refs/remotes/".toList.length).takeWhile (· ≠ '/')
    if remote = [] then none else some remote
  else none

/-- `(substring text offset)` -/
def substring (text : Name) (offset : ℕ) : Except Signal Name :=
  if offset ≤ text.length then .ok (text.drop offset) else .error (.argsOutOfRange text offset)

section

variable (fullname : Name → Option Name)

/-- The message about names that are ambiguous. -/
def ambiguousMessage (branches : List Name) : List Char :=
  let refs := branches.map fullname
  let len := (refs.filter Option.isNone).length
  let which := if len = 1 then
      ((branches.find? fun branch => (fullname branch).isNone).getD []) ++ " is".toList
    else if len = refs.length then "These ".toList ++ Nat.toDigits 10 len ++ " names are".toList
    else Nat.toDigits 10 len ++ " of these names are".toList
  which ++ " ambiguous.  Please cleanup using git directly.".toList

/-- `magit-branch-delete`, once it is known what to delete; `confirmed` is whether to do so on the
remote, too. -/
def magitBranchDelete (neverVerify confirmed force : Bool) (branches : List Name) :
    Except Signal Deletion :=
  let refs := branches.map fullname
  if refs.any Option.isNone then .error (.userError (ambiguousMessage fullname branches))
  else match (refs.head?.bind id).bind remoteOf with
    | some remote =>
      let offset := 1 + remote.length
      if confirmed then
        (branches.mapM fun branch => (substring branch offset).map (':' :: ·)).map
          (.push (force || neverVerify) remote)
      else .ok (.updateRefs (refs.filterMap id))
    | none => .ok (.branches branches)

end

/-! ## `magit-branch-checkout` -/

/-- `(and (string-match "[^/]+/" branch) (substring branch (match-end 0)))` -/
def behindComponent (branch : Name) : Option Name :=
  match (branch.dropWhile (· = '/')).dropWhile (· ≠ '/') with
  | [] => none
  | _ :: rest => some rest

/-- The remote branches that are offered. -/
def offered (localNames remoteNames : List Name) : List Name :=
  remoteNames.filter fun it =>
    (behindComponent it).any fun name => !("HEAD".toList :: localNames).contains name

/-- The arguments of `magit-branch-checkout`, once a choice is made. -/
def checkoutArguments (localNames remoteNames : List Name) (startingPoint choice : Name) :
    Option Name × Option Name :=
  if (offered localNames remoteNames).contains choice then (behindComponent choice, some choice)
  else if localNames.contains choice then (some choice, none)
  else (some choice, some startingPoint)

/-- What the process sentinel sets `branch.BRANCH.pushRemote` to, if the starting point is a remote
branch. -/
def checkoutPushRemote (split : Option (Name × Name)) (pushDefault : Option Name) (branch : Name) :
    Option Name :=
  match split with
  | some (remote, remoteBranch) =>
    if branch = remoteBranch ∧ pushDefault ≠ some remote then some remote else none
  | none => none

/-! ## How a remote is recognized -/

/-- The name of a remote fits a beginning of a branch, up to a slash that something follows. -/
structure FitsUpTo (fold : Char → Char) (remote branch beginning rest : Name) : Prop where
  branch : branch = beginning ++ '/' :: rest
  ne_nil : rest ≠ []
  dollar : remote.getLast? ≠ some '$'
  fits : Fits fold remote beginning

/-- It fits this one, and none that is longer. -/
structure SplitsAt (fold : Char → Char) (remote branch beginning rest : Name) : Prop where
  fits : FitsUpTo fold remote branch beginning rest
  longest : ∀ beginning' rest', FitsUpTo fold remote branch beginning' rest' →
    beginning'.length ≤ beginning.length

section

variable {fold : Char → Char} {remote branch : Name}

/-- What `.+` matches, to its end. -/
def onLine (text : Name) : Bool := !text.isEmpty && text.all (· != '\n')

theorem onLine_iff {text : Name} : onLine text = true ↔ text ≠ [] ∧ ∀ c ∈ text, c ≠ '\n' := by
  rw [onLine, Bool.and_eq_true, List.all_eq_true, Bool.not_eq_true', List.isEmpty_eq_false_iff]
  simp only [bne_iff_ne]

/-- What the second group matches, behind the first one. -/
def behindSlash : Name → Option Name
  | '/' :: rest => if onLine rest then some rest else none
  | _ => none

/-- What is behind a slash at the front, if it is on one line. -/
theorem behindSlash_eq_some {text rest : Name} : behindSlash text = some rest ↔
    text = '/' :: rest ∧ onLine rest = true := by
  unfold behindSlash
  split
  · next rest' =>
    rw [Option.ite_none_right_eq_some, Option.some_inj, List.cons.injEq]
    constructor
    · rintro ⟨hline, rfl⟩
      exact ⟨⟨rfl, rfl⟩, hline⟩
    · rintro ⟨⟨-, rfl⟩, hline⟩
      exact ⟨hline, rfl⟩
  · next hnot =>
    refine iff_of_false (Option.some_ne_none _).symm ?_
    rintro ⟨rfl, -⟩
    exact hnot rest rfl

/-- The rest of a line is taken as a whole. -/
theorem find?_plus (g : Groups) (text : Name) :
    ((Regexp.plus (· != '\n')).ways text g).find? (·.1 = [])
      = if onLine text = true then some ([], g) else none := by
  cases text with
  | nil => rfl
  | cons c rest =>
    rw [Regexp.plus, Regexp.ways_seq, Regexp.ways_char_cons]
    by_cases hline : onLine (c :: rest) = true
    · obtain ⟨hc, hrest⟩ := List.forall_mem_cons.mp (onLine_iff.mp hline).2
      have hstop : ∀ d ∈ ([] : Name).head?, (d != '\n') = false :=
        fun _ hd => absurd hd (Option.not_mem_none _)
      obtain ⟨others, hothers, -⟩ := Regexp.afterMany_append
        (fun d hd => (bne_iff_ne (a := d) (b := '\n')).mpr (hrest d hd)) hstop
      rw [List.append_nil] at hothers
      rw [if_pos (bne_iff_ne.mpr hc), List.flatMap_singleton, Regexp.ways_many, List.find?_map,
        hothers, List.find?_cons_of_pos (by simp), if_pos hline]
      rfl
    · rw [if_neg hline]
      refine List.find?_eq_none.mpr fun way hway => ?_
      rw [decide_eq_true_eq]
      intro hnil
      obtain ⟨text', hchar, hmany⟩ := List.mem_flatMap.mp hway
      split at hchar
      · next hc =>
        obtain rfl := List.mem_singleton.mp hchar
        obtain ⟨⟨run, hrun, hall⟩, -⟩ :=
          Regexp.mem_ways_many.mp (show (way.1, way.2) ∈ _ from hmany)
        rw [hnil, List.append_nil] at hrun
        subst hrun
        refine hline (onLine_iff.mpr ⟨List.cons_ne_nil _ _, ?_⟩)
        exact List.forall_mem_cons.mpr ⟨bne_iff_ne.mp hc, fun d hd => bne_iff_ne.mp (hall d hd)⟩
      · exact absurd hchar List.not_mem_nil

/-- The rest of the expression, to the end of the text. -/
theorem find?_tail (g : Groups) (text : Name) :
    (((Regexp.char (· == '/')).seq (.group 2 (.plus (· != '\n')))).ways text g).find? (·.1 = [])
      = (behindSlash text).map fun rest => ([], Function.update g 2 (some rest)) := by
  unfold behindSlash
  split
  · next rest =>
    have hplus := find?_plus g rest
    rw [Regexp.ways_seq, Regexp.ways_char_cons, if_pos (beq_self_eq_true '/'),
      List.flatMap_singleton, Regexp.ways_group, List.find?_map]
    refine (congrArg (Option.map _) hplus).trans ?_
    split
    · simp
    · rfl
  · next hnot =>
    refine List.find?_eq_none.mpr fun way hway => ?_
    obtain ⟨⟨rest, g'⟩, hslash, -⟩ := List.mem_flatMap.mp hway
    obtain ⟨c, hc, rfl, -⟩ := Regexp.mem_ways_char.mp hslash
    exact absurd (by rw [eq_of_beq hc]) (hnot rest)

/-- The first way to match the first group from which the rest of the expression goes on. -/
theorem matchBranch_eq :
    matchBranch fold branch remote =
      ((remoteRegexp fold remote).ways branch fun _ => none).findSome? fun way =>
        (behindSlash way.1).map fun rest =>
        (branch.take (branch.length - way.1.length), rest) := by
  rw [matchBranch, branchRegexp, Regexp.matchWhole, Regexp.ways_seq, List.find?_flatMap,
    Regexp.ways_group, List.findSome?_map, Option.map_map, List.map_findSome?]
  congr 1
  funext way
  rw [Function.comp_apply, Function.comp_apply, find?_tail, Option.map_map]
  rfl

/-- A remote fits a branch up to a slash exactly if its pieces match what is in front. -/
theorem fitsUpTo_iff (hbranch : ∀ c ∈ branch, c ≠ '\n') {p n : Name} :
    FitsUpTo fold remote branch p n ↔ remote.getLast? ≠ some '$' ∧
      ∃ text, (branch = p ++ text ∧ Piece.Matches (unquoted fold 3 none remote) p) ∧
        behindSlash text = some n := by
  simp only [behindSlash_eq_some, onLine_iff, matches_unquoted]
  constructor
  · rintro ⟨rfl, hne, hdollar, hfits⟩
    refine ⟨hdollar, _, ⟨rfl, hfits⟩, rfl, hne, fun c hc => hbranch c ?_⟩
    exact List.mem_append_right _ (List.mem_cons_of_mem _ hc)
  · rintro ⟨hdollar, text, ⟨hbranch, hfits⟩, rfl, hne, -⟩
    exact ⟨hbranch, hne, hdollar, hfits⟩

/-- **Which remote is recognized** — one whose name fits a beginning of the branch; the longest one
is taken. -/
theorem matchBranch_eq_some {p n : Name} (hbranch : ∀ c ∈ branch, c ≠ '\n') :
    matchBranch fold branch remote = some (p, n) ↔ SplitsAt fold remote branch p n := by
  rw [matchBranch_eq, remoteRegexp]
  by_cases hdollar : remote.getLast? = some '$'
  · rw [if_pos hdollar]
    refine iff_of_false ?_ fun h => h.fits.dollar hdollar
    rw [List.findSome?_eq_none_iff.mpr fun way hway => ?_]
    · exact (Option.some_ne_none _).symm
    · obtain ⟨⟨text, g⟩, -, hend⟩ := List.mem_flatMap.mp hway
      rw [Regexp.ways_eol] at hend
      split at hend
      · next hhead =>
        obtain rfl := List.mem_singleton.mp hend
        rw [Option.map_eq_none_iff, Option.eq_none_iff_forall_ne_some]
        intro rest hrest
        obtain ⟨rfl, -⟩ := behindSlash_eq_some.mp hrest
        exact absurd (show decide ('/' = '\n') = true from hhead) (by decide)
      · exact absurd hend List.not_mem_nil
  · rw [if_neg hdollar, Piece.findSome?_ways_shortest (f := fun text =>
      (behindSlash text).map fun rest => (branch.take (branch.length - text.length), rest))]
    have htake : ∀ {run text : Name}, branch = run ++ text →
        branch.take (branch.length - text.length) = run := by
      rintro run text rfl
      exact Regexp.take_length_sub run text
    constructor
    · rintro ⟨run, text, ⟨hrun, hmatches⟩, hpn, hlongest⟩
      obtain ⟨rest, hrest, heq⟩ := Option.map_eq_some_iff.mp hpn
      rw [htake hrun] at heq
      obtain ⟨rfl, rfl⟩ := Prod.mk.inj heq
      refine ⟨(fitsUpTo_iff hbranch).mpr ⟨hdollar, text, ⟨hrun, hmatches⟩, hrest⟩, ?_⟩
      intro p' n' hfits'
      obtain ⟨-, text', ⟨hrun', hmatches'⟩, hrest'⟩ := (fitsUpTo_iff hbranch).mp hfits'
      refine hlongest p' text' hrun' hmatches' ?_
      rw [hrest']
      exact Option.some_ne_none _
    · rintro ⟨hfits, hlongest⟩
      obtain ⟨-, text, ⟨hrun, hmatches⟩, hrest⟩ := (fitsUpTo_iff hbranch).mp hfits
      refine ⟨p, text, ⟨hrun, hmatches⟩, by rw [hrest, Option.map_some, htake hrun], ?_⟩
      intro run' text' hrun' hmatches' hne
      obtain ⟨way, hway⟩ := Option.ne_none_iff_exists'.mp hne
      obtain ⟨rest', hrest', -⟩ := Option.map_eq_some_iff.mp hway
      exact hlongest run' rest'
        ((fitsUpTo_iff hbranch).mpr ⟨hdollar, text', ⟨hrun', hmatches'⟩, hrest'⟩)

/-- A remote that is not recognized fits no beginning of the branch. -/
theorem matchBranch_eq_none (hbranch : ∀ c ∈ branch, c ≠ '\n') :
    matchBranch fold branch remote = none ↔ ∀ p n, ¬FitsUpTo fold remote branch p n := by
  constructor
  · intro hnone p n hfits
    obtain ⟨hdollar, text, ⟨hrun, hmatches⟩, hrest⟩ := (fitsUpTo_iff hbranch).mp hfits
    obtain ⟨runs, hreads, -⟩ := hmatches.reads text
    rw [← hrun] at hreads
    rw [matchBranch_eq, remoteRegexp, if_neg hdollar, Piece.ways_sequence,
      List.findSome?_eq_none_iff] at hnone
    have hway := hnone _ (List.mem_map_of_mem (Piece.mem_readings.mpr hreads))
    rw [hrest] at hway
    cases hway
  · intro hnone
    refine Option.eq_none_iff_forall_ne_some.mpr fun split hsplit => ?_
    exact hnone _ _ ((matchBranch_eq_some (n := split.2) hbranch).mp hsplit).fits

/-- An ordinary name of a remote is looked for as it is, whatever the case. -/
theorem splitsAt_iff_of_plain {p n : Name} (hplain : ∀ c ∈ remote, c ∉ ['.', '+', '*', '$']) :
    SplitsAt fold remote branch p n ↔
      branch = p ++ '/' :: n ∧ n ≠ [] ∧ p.map fold = remote.map fold := by
  have hfits : ∀ p, Fits fold remote p ↔ p.map fold = remote.map fold := fun p =>
    fits_iff_of_plain fun c hc hmem => hplain c hc (List.mem_append_left ['$'] hmem)
  have hdollar : remote.getLast? ≠ some '$' := fun hlast =>
    hplain _ (List.mem_of_getLast? hlast) (by decide)
  constructor
  · rintro ⟨⟨hbranch, hne, -, hp⟩, -⟩
    exact ⟨hbranch, hne, (hfits p).mp hp⟩
  · rintro ⟨hbranch, hne, hp⟩
    refine ⟨⟨hbranch, hne, hdollar, (hfits p).mpr hp⟩, fun p' n' h' => ?_⟩
    have hlength := congrArg List.length (((hfits p').mp h'.fits).trans hp.symm)
    rw [List.length_map, List.length_map] at hlength
    exact hlength.le

end

/-! ## Remote-tracking branches -/

/-- Characters that Git does not allow in a name of a remote and that are special in a regular
expression, and the end of a line. -/
def forbidden : List Char := ['\\', '[', '*', '?', '^', '\n']

/-- A name that Git allows for a remote. -/
structure RemoteName where
  name : Name
  ne_nil : name ≠ []
  slash : name.head? ≠ some '/'
  allowed : ∀ c ∈ name, c ∉ forbidden

/-- A remote-tracking branch. -/
structure Tracking where
  remote : RemoteName
  branch : Name
  ne_nil : branch ≠ []
  line : ∀ c ∈ branch, c ≠ '\n'

/-- The name of a remote-tracking branch. -/
def Tracking.name (b : Tracking) : Name := b.remote.name ++ '/' :: b.branch

/-- **What is asked for** — `magit-split-branch-name` splits every branch where it should, deleting
them all pushes that to the one remote that they are on, and checking one out creates the branch
that is called as on the remote, and sets where to push to. -/
structure UsesSplit (fold : Char → Char) (localNames remoteNames : List Name)
    (remotes : List RemoteName) (fullname : Name → Option Name) (bs : List Tracking) : Prop where
  split : ∀ b ∈ bs, magitSplitBranchName fold localNames (remotes.map RemoteName.name) b.name
    = .ok (some (b.remote.name, b.branch))
  delete : ∀ neverVerify force, ∃ noVerify remote, (∀ b ∈ bs, b.remote.name = remote) ∧
    magitBranchDelete fullname neverVerify true force (bs.map Tracking.name)
      = .ok (.push noVerify remote (bs.map fun b => ':' :: b.branch))
  checkout : ∀ b ∈ bs, b.name ∈ remoteNames → b.branch ∉ "HEAD".toList :: localNames →
    ∀ startingPoint, checkoutArguments localNames remoteNames startingPoint b.name
      = (some b.branch, some b.name)
  pushRemote : ∀ b ∈ bs, ∀ pushDefault, ∃ split,
    magitSplitBranchName fold localNames (remotes.map RemoteName.name) b.name = .ok split ∧
      checkoutPushRemote split pushDefault b.branch
        = if pushDefault = some b.remote.name then none else some b.remote.name

/-- When it is like that. -/
structure Splittable (fold : Char → Char) (localNames : List Name) (remotes : List RemoteName)
    (bs : List Tracking) : Prop where
  notLocal : ∀ b ∈ bs, b.name ∉ localNames
  recognized : ∀ b ∈ bs, ∃ before remote after, remotes = before ++ remote :: after ∧
    (∀ remote' ∈ before, ∀ p n, ¬FitsUpTo fold remote'.name b.name p n) ∧
      SplitsAt fold remote.name b.name b.remote.name b.branch
  oneComponent : ∀ b ∈ bs, '/' ∉ b.remote.name
  oneRemote : ∀ b ∈ bs, ∀ b' ∈ bs, b.remote.name = b'.remote.name

section

variable {fold : Char → Char} {localNames remoteNames : List Name} {remotes : List RemoteName}
  {fullname : Name → Option Name} {b : Tracking} {bs : List Tracking}

/-- The name of a branch is on one line. -/
theorem Tracking.name_line (b : Tracking) : ∀ c ∈ b.name, c ≠ '\n' := by
  intro c hc
  rcases List.mem_append.mp hc with hc | hc
  · rintro rfl
    exact b.remote.allowed _ hc (by decide)
  · rcases List.mem_cons.mp hc with rfl | hc
    · decide
    · exact b.line c hc

/-- **The split itself.** -/
theorem magitSplitBranchName_iff :
    magitSplitBranchName fold localNames (remotes.map RemoteName.name) b.name
        = .ok (some (b.remote.name, b.branch)) ↔
      b.name ∉ localNames ∧ ∃ before remote after, remotes = before ++ remote :: after ∧
        (∀ remote' ∈ before, ∀ p n, ¬FitsUpTo fold remote'.name b.name p n) ∧
          SplitsAt fold remote.name b.name b.remote.name b.branch := by
  unfold magitSplitBranchName
  by_cases hlocal : b.name ∈ localNames
  · rw [if_pos (List.contains_iff_mem.mpr hlocal)]
    refine iff_of_false (fun heq => ?_) fun h => h.1 hlocal
    simp only [Except.ok.injEq, Option.some_inj, Prod.mk.injEq] at heq
    have hlength := congrArg List.length heq.2
    rw [Tracking.name, List.length_append, List.length_cons] at hlength
    omega
  · have hslash : b.name.contains '/' = true :=
      List.contains_iff_mem.mpr (List.mem_append_right _ List.mem_cons_self)
    rw [if_neg (fun h => hlocal (List.contains_iff_mem.mp h)), if_pos hslash, List.findSome?_map,
      and_iff_right hlocal]
    have hfound : ∀ split : Name × Name,
        remotes.findSome? (matchBranch fold b.name ∘ RemoteName.name) = some split ↔
          ∃ before remote after, remotes = before ++ remote :: after ∧
            (∀ remote' ∈ before, ∀ p n, ¬FitsUpTo fold remote'.name b.name p n) ∧
              SplitsAt fold remote.name b.name split.1 split.2 := by
      intro split
      rw [List.findSome?_eq_some_iff]
      simp only [Function.comp_apply, matchBranch_eq_none b.name_line]
      constructor
      · rintro ⟨before, remote, after, hremotes, hsplit, hbefore⟩
        exact ⟨before, remote, after, hremotes, hbefore,
          (matchBranch_eq_some (n := split.2) b.name_line).mp hsplit⟩
      · rintro ⟨before, remote, after, hremotes, hbefore, hsplit⟩
        exact ⟨before, remote, after, hremotes, (matchBranch_eq_some b.name_line).mpr hsplit,
          hbefore⟩
    rw [← hfound (b.remote.name, b.branch)]
    cases remotes.findSome? (matchBranch fold b.name ∘ RemoteName.name) with
    | none => refine ⟨fun h => ?_, fun h => ?_⟩ <;> cases h
    | some split => simp only [Except.ok.injEq, Option.some_inj]

/-! ## Deleting and checking out -/

/-- A loop without a failing step returns the list of its results. -/
theorem mapM_ok {α β ε : Type*} {f : α → Except ε β} {g : α → β} {l : List α}
    (h : ∀ a ∈ l, f a = .ok (g a)) : l.mapM f = .ok (l.map g) := by
  induction l with
  | nil => rfl
  | cons a l ih =>
    obtain ⟨ha, hl⟩ := List.forall_mem_cons.mp h
    rw [List.mapM_cons, ha, ih hl]
    rfl

/-- The first component of a name that does not begin with a slash. -/
theorem remoteOf_append {name : Name} (hne : name ≠ []) (hslash : name.head? ≠ some '/') :
    remoteOf ("refs/remotes/".toList ++ name) = some (name.takeWhile (· ≠ '/')) := by
  obtain ⟨c, rest, rfl⟩ := List.exists_cons_of_ne_nil hne
  have hc : c ≠ '/' := fun hc => hslash (congrArg some hc)
  rw [remoteOf, if_pos (List.isPrefixOf_iff_prefix.mpr (List.prefix_append _ _)), List.drop_left]
  have hcons : (c :: rest).takeWhile (· ≠ '/') = c :: rest.takeWhile (· ≠ '/') :=
    List.takeWhile_cons_of_pos (p := (· ≠ '/')) (decide_eq_true hc)
  dsimp only
  rw [hcons, if_neg (List.cons_ne_nil _ _)]

/-- The first component of a name with a slash in it. -/
theorem takeWhile_append_slash (name rest : Name) :
    (name ++ '/' :: rest).takeWhile (· ≠ '/') = name.takeWhile (· ≠ '/') := by
  induction name with
  | nil => rfl
  | cons c name ih =>
    rw [List.cons_append, List.takeWhile_cons, List.takeWhile_cons, ih]

/-- What is left behind the first component of a name. -/
theorem dropWhile_append_slash {name : Name} (hname : '/' ∉ name) (rest : Name) :
    (name ++ '/' :: rest).dropWhile (· ≠ '/') = '/' :: rest := by
  induction name with
  | nil => rfl
  | cons c name ih =>
    rw [List.mem_cons, not_or] at hname
    obtain ⟨hc, hname⟩ := hname
    rw [List.cons_append, List.dropWhile_cons, if_pos (decide_eq_true (Ne.symm hc)), ih hname]

/-- The remote's own name and the slash are skipped. -/
theorem substring_name (b : Tracking) :
    substring b.name (1 + b.remote.name.length) = .ok b.branch := by
  have hlength : (b.remote.name ++ ['/']).length = 1 + b.remote.name.length := by
    rw [List.length_append, List.length_singleton, Nat.add_comm]
  rw [substring, Tracking.name, List.append_cons, ← hlength, List.drop_left,
    if_pos (by simp only [List.length_append]; omega)]

/-- What is pushed to is the remote of the group. -/
theorem eq_of_map_push {pushed : Except Signal (List Name)} {noVerify noVerify' : Bool}
    {remote remote' : Name} {refspecs : List Name}
    (h : pushed.map (Deletion.push noVerify remote)
      = .ok (.push noVerify' remote' refspecs)) :
    remote = remote' := by
  cases pushed with
  | error => cases h
  | ok => exact (Deletion.push.inj (Except.ok.inj h)).2.1

/-- **Deleting** is right if all branches are on one remote, whose name has one component. -/
theorem magitBranchDelete_iff (hbs : bs ≠ [])
    (hfullname : ∀ b ∈ bs, fullname b.name = some ("refs/remotes/".toList ++ b.name))
    (neverVerify force : Bool) :
    (∃ noVerify remote, (∀ b ∈ bs, b.remote.name = remote) ∧
      magitBranchDelete fullname neverVerify true force (bs.map Tracking.name)
        = .ok (.push noVerify remote (bs.map fun b => ':' :: b.branch))) ↔
      (∀ b ∈ bs, '/' ∉ b.remote.name) ∧ ∀ b ∈ bs, ∀ b' ∈ bs, b.remote.name = b'.remote.name := by
  obtain ⟨b₀, bs, rfl⟩ := List.exists_cons_of_ne_nil hbs
  have hrefs : (((b₀ :: bs).map Tracking.name).map fullname).any Option.isNone = false := by
    rw [List.any_eq_false]
    intro ref href
    obtain ⟨name, hname, rfl⟩ := List.mem_map.mp href
    obtain ⟨b, hb, rfl⟩ := List.mem_map.mp hname
    rw [hfullname b hb]
    exact Bool.false_ne_true
  -- the remote that is taken
  have hremote : (((((b₀ :: bs).map Tracking.name).map fullname).head?.bind id).bind remoteOf)
      = some (b₀.remote.name.takeWhile (· ≠ '/')) := by
    rw [List.map_cons, List.map_cons, List.head?_cons, hfullname b₀ List.mem_cons_self,
      ← takeWhile_append_slash b₀.remote.name b₀.branch]
    refine remoteOf_append (List.append_ne_nil_of_left_ne_nil b₀.remote.ne_nil _) ?_
    rw [Tracking.name, List.head?_append_of_ne_nil _ b₀.remote.ne_nil]
    exact b₀.remote.slash
  rw [magitBranchDelete, if_neg (by rw [hrefs]; exact Bool.false_ne_true), hremote]
  dsimp only
  rw [if_pos rfl]
  constructor
  · rintro ⟨noVerify, remote, hall, heq⟩
    have htaken : b₀.remote.name.takeWhile (· ≠ '/') = b₀.remote.name := by
      exact (eq_of_map_push heq).trans (hall b₀ List.mem_cons_self).symm
    have hslash : '/' ∉ b₀.remote.name := by
      intro hmem
      rw [← htaken] at hmem
      have hne := List.mem_takeWhile_imp hmem
      simp at hne
    have hsame : ∀ b ∈ b₀ :: bs, b.remote.name = b₀.remote.name := fun b hb =>
      (hall b hb).trans (hall b₀ List.mem_cons_self).symm
    exact ⟨fun b hb => hsame b hb ▸ hslash, fun b hb b' hb' =>
      (hsame b hb).trans (hsame b' hb').symm⟩
  · rintro ⟨hslash, hsame⟩
    refine ⟨force || neverVerify, b₀.remote.name, fun b hb => hsame b hb b₀ List.mem_cons_self, ?_⟩
    have htaken : b₀.remote.name.takeWhile (· ≠ '/') = b₀.remote.name :=
      List.takeWhile_eq_self_iff.mpr fun c hc => decide_eq_true fun heq =>
        hslash b₀ List.mem_cons_self (heq ▸ hc)
    rw [htaken, List.mapM_map, mapM_ok (g := fun b => ':' :: b.branch) fun b hb => ?_]
    · rfl
    · rw [Function.comp_apply, hsame b₀ List.mem_cons_self b hb, substring_name]
      rfl

/-- Behind a remote without slashes there is the branch. -/
theorem behindComponent_name (hslash : '/' ∉ b.remote.name) :
    behindComponent b.name = some b.branch := by
  have hdrop : b.name.dropWhile (· = '/') = b.name := by
    obtain ⟨c, rest, hname⟩ := List.exists_cons_of_ne_nil b.remote.ne_nil
    have hc : c ≠ '/' := fun hc => b.remote.slash (by rw [hname, hc]; rfl)
    rw [Tracking.name, hname, List.cons_append,
      List.dropWhile_cons_of_neg (p := (· = '/')) (by simpa using hc)]
  rw [behindComponent, hdrop, Tracking.name, dropWhile_append_slash hslash]

/-- **Remote branch names are split at the remote** — by all three commands exactly if no branch has
the name of a local one, of the remotes that fit a beginning of it the first one fits its remote
and nothing longer, no remote's name has a slash, and all branches are on the same remote. -/
theorem usesSplit_iff (hbs : bs ≠ [])
    (hfullname : ∀ b ∈ bs, fullname b.name = some ("refs/remotes/".toList ++ b.name)) :
    UsesSplit fold localNames remoteNames remotes fullname bs ↔
      Splittable fold localNames remotes bs := by
  constructor
  · rintro ⟨hsplit, hdelete, -, -⟩
    obtain ⟨hslash, hsame⟩ := (magitBranchDelete_iff hbs hfullname true true).mp (hdelete true true)
    exact ⟨fun b hb => (magitSplitBranchName_iff.mp (hsplit b hb)).1,
      fun b hb => (magitSplitBranchName_iff.mp (hsplit b hb)).2, hslash, hsame⟩
  · rintro ⟨hlocal, hrecognized, hslash, hsame⟩
    have hsplit : ∀ b ∈ bs,
        magitSplitBranchName fold localNames (remotes.map RemoteName.name) b.name
          = .ok (some (b.remote.name, b.branch)) := fun b hb =>
      magitSplitBranchName_iff.mpr ⟨hlocal b hb, hrecognized b hb⟩
    refine ⟨hsplit, fun neverVerify force =>
      (magitBranchDelete_iff hbs hfullname neverVerify force).mpr ⟨hslash, hsame⟩, ?_, ?_⟩
    · intro b hb hname hbranch startingPoint
      have hbehind := behindComponent_name (hslash b hb)
      have hoffered : b.name ∈ offered localNames remoteNames := by
        refine List.mem_filter.mpr ⟨hname, ?_⟩
        rw [hbehind, Option.any_some, Bool.not_eq_true', Bool.eq_false_iff]
        exact fun h => hbranch (List.contains_iff_mem.mp h)
      rw [checkoutArguments, if_pos (List.contains_iff_mem.mpr hoffered), hbehind]
    · intro b hb pushDefault
      refine ⟨_, hsplit b hb, ?_⟩
      rw [checkoutPushRemote]
      by_cases hdefault : pushDefault = some b.remote.name
      · rw [if_neg fun h => h.2 hdefault, if_pos hdefault]
      · rw [if_pos ⟨rfl, hdefault⟩, if_neg hdefault]

end

/-! ## Three remotes -/

/-- A remote. -/
def origin : Name := ['o', 'r']

theorem origin_ne_nil : origin ≠ [] := by decide

theorem origin_slash : origin.head? ≠ some '/' := by decide

theorem origin_allowed : ∀ c ∈ origin, c ∉ forbidden := by simp [origin, forbidden]

/-- A remote whose name has characters that are special in a regexp. -/
def cxx : Name := ['c', '+', '+']

theorem cxx_ne_nil : cxx ≠ [] := by decide

theorem cxx_slash : cxx.head? ≠ some '/' := by decide

theorem cxx_allowed : ∀ c ∈ cxx, c ∉ forbidden := by simp [cxx, forbidden]

/-- A remote whose name has a slash. -/
def team : Name := ['t', '/', 'x']

theorem team_ne_nil : team ≠ [] := by decide

theorem team_slash : team.head? ≠ some '/' := by decide

theorem team_allowed : ∀ c ∈ team, c ∉ forbidden := by simp [team, forbidden]

/-- A branch. -/
def topic : Name := ['m']

theorem topic_ne_nil : topic ≠ [] := by decide

theorem topic_line : ∀ c ∈ topic, c ≠ '\n' := by simp [topic]

/-- The branch on the first remote. -/
def onOrigin : Tracking :=
  ⟨⟨origin, origin_ne_nil, origin_slash, origin_allowed⟩, topic, topic_ne_nil, topic_line⟩

/-- The branch on the second remote. -/
def onCxx : Tracking :=
  ⟨⟨cxx, cxx_ne_nil, cxx_slash, cxx_allowed⟩, topic, topic_ne_nil, topic_line⟩

/-- The branch on the third remote. -/
def onTeam : Tracking :=
  ⟨⟨team, team_ne_nil, team_slash, team_allowed⟩, topic, topic_ne_nil, topic_line⟩

/-- Every name is one of a remote-tracking branch. -/
def fullnameOf (name : Name) : Option Name := some ("refs/remotes/".toList ++ name)

/-- A branch on an ordinary remote, another one being configured, too. -/
theorem usesSplit_iff_onOrigin : UsesSplit Char.toLower [topic] [onOrigin.name]
    [onCxx.remote, onOrigin.remote] fullnameOf [onOrigin] := by
  refine (usesSplit_iff (List.cons_ne_nil _ _) fun _ _ => rfl).mpr ⟨?_, ?_, ?_, ?_⟩
  · decide
  · intro b hb
    rw [List.mem_singleton.mp hb]
    refine ⟨[onCxx.remote], onOrigin.remote, [], rfl, ?_, ?_⟩
    · rintro remote' hremote' p n ⟨hbranch, -, -, hfits⟩
      rw [List.mem_singleton.mp hremote'] at hfits
      -- what `c++` fits begins with a `c`
      obtain ⟨_ | ⟨d, run⟩, rest, rfl, ⟨hne, -, hrun⟩, -⟩ := fits_cons.mp hfits
      · exact hne rfl
      · obtain rfl : 'o' = d := (List.cons.inj hbranch).1
        exact absurd (hrun 'o' List.mem_cons_self) (by decide)
    · refine (splitsAt_iff_of_plain ?_).mpr ⟨rfl, topic_ne_nil, rfl⟩
      simp [onOrigin, origin]
  · decide
  · intro b hb b' hb'
    rw [List.mem_singleton.mp hb, List.mem_singleton.mp hb']

/-- The name of a remote is not what it matches, and deleting a branch goes to another remote. -/
theorem not_usesSplit :
    ¬UsesSplit Char.toLower [] [onCxx.name] [onCxx.remote] fullnameOf [onCxx] ∧
      ¬UsesSplit Char.toLower [] [onTeam.name] [onTeam.remote] fullnameOf [onTeam] := by
  constructor
  · intro h
    have hsplit := h.split onCxx List.mem_cons_self
    have herror : magitSplitBranchName Char.toLower [] [cxx] onCxx.name
        = .error ("Invalid branch name ".toList ++ onCxx.name) := rfl
    cases herror.symm.trans hsplit
  · intro h
    obtain ⟨noVerify, remote, hremote, hdelete⟩ := h.delete false false
    have hpush : magitBranchDelete fullnameOf false true false [onTeam.name]
        = .ok (.push false ['t'] [[':', 'x', '/', 'm']]) := rfl
    have heq := (Deletion.push.inj (Except.ok.inj (hpush.symm.trans hdelete))).2.1
    have hteam := (hremote onTeam List.mem_cons_self).trans heq.symm
    exact absurd hteam (by decide)

end Magit.BranchSplit
