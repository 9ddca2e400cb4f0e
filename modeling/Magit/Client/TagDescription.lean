import Mathlib.Data.List.TakeWhile
import Magit.Git.Worker

/-!
# Client/TagDescription — the tag before `HEAD` and its distance

`get_tag_desc` looks up the tags of a repository by the names that `git_tag_list` gives, which lack
`refs/tags/`, as if they were full ones: it finds a tag only if another one is named like its full
name.  What it finds at `HEAD` it writes as it is, and what it finds further back with the distance
and the commit's id behind it.  `magit-get-current-tag-v2` reads this back with a regexp, as
`git describe --long` writes it, and so not what is at `HEAD` (`tag_round_trip_iff`).
-/

namespace Magit.Client

open Git

/-! ## The regexp

`\(.+\)-\(?:0[0-9]*\|\([0-9]+\)\)-g[0-9a-z]+\(-dirty\)?$`, where `fold` is what `case-fold-search`
makes of a character before it is compared. -/

/-- The groups of a match. -/
structure TagMatch where
  name : Text
  distance : Option Text
  dirty : Bool

section

variable (fold : Char → Char)

/-- The characters of the abbreviated hash in a description. -/
def isHashChar (c : Char) : Bool := c.isDigit || c.isLower

/-- `$`. -/
def atLineEnd (text : Text) : Bool := text.head?.all (· = '\n')

/-- What follows the first group, and its groups.  Each piece ends where the next begins with a
character that it cannot have, so that there is nothing to try again. -/
def matchTail (text : Text) : Option (Option Text × Bool) :=
  match text with
  | [] => none
  | c :: text =>
    let digits := text.takeWhile fun d => (fold d).isDigit
    match text.drop digits.length with
    | c' :: g :: text =>
      let hash := text.takeWhile fun d => isHashChar (fold d)
      let text := text.drop hash.length
      if fold c = '-' ∧ digits ≠ [] ∧ fold c' = '-' ∧ fold g = 'g' ∧ hash ≠ [] then
        let distance := if (digits.head?.map fold) = some '0' then none else some digits
        if (text.take 6).map fold = "-dirty".toList ∧ atLineEnd (text.drop 6) then
          some (distance, true)
        else if atLineEnd text then some (distance, false)
        else none
      else none
    | _ => none

/-- A match at the front of the text, the longest name first. -/
def matchTag : Text → Option TagMatch
  | [] => none
  | c :: text =>
    if c = '\n' then none
    else
      match matchTag text with
      | some m => some { m with name := c :: m.name }
      | none => (matchTail fold text).map fun groups => ⟨[c], groups.1, groups.2⟩

/-- `string-match`. -/
def searchTag : Text → Option TagMatch
  | [] => none
  | c :: text => (matchTag fold (c :: text)).or (searchTag text)

/-- `(TAG COMMITS DIRTY)`, or only the tag. -/
inductive CurrentTag
  | tag (name : Text)
  | withDistance (name : Text) (distance : ℕ) (dirty : Bool)
  deriving DecidableEq

/-- `string-to-number` of digits. -/
def stringToNumber (digits : Text) : ℕ := Nat.ofDigitChars 10 (digits.takeWhile Char.isDigit) 0

/-- `magit-get-current-tag-v2` on the field `tag_desc`. -/
def magitGetCurrentTagV2 (str : Text) (withDistance : Bool) : Option CurrentTag :=
  if str = [] then none
  else
    (searchTag fold str).map fun m =>
      if withDistance then .withDistance m.name (stringToNumber (m.distance.getD "0".toList)) m.dirty
      else .tag m.name

/-! ## Names end before the last description -/

/-- What is relied on of `fold`: it leaves digits, small letters and dashes alone. -/
def FixesSmall (fold : Char → Char) : Prop := ∀ c, isHashChar c = true ∨ c = '-' → fold c = c

variable {fold}

theorem matchTag_cons_eq_none {c : Char} {text : Text} (h : matchTag fold text = none)
    (htail : matchTail fold text = none) : matchTag fold (c :: text) = none := by
  rw [matchTag, h, htail]
  exact ite_self none

theorem matchTail_eq_none_of_head {c : Char} {text : Text} (h : fold c ≠ '-') :
    matchTail fold (c :: text) = none := by
  rw [matchTail]
  dsimp only
  split
  · rw [if_neg fun hc => h hc.1]
  · rfl

theorem isHashChar_ne_dash {c : Char} (h : isHashChar c = true) : c ≠ '-' := by
  rintro rfl
  exact absurd h (by decide)

/-- In an id nothing matches. -/
theorem matchTag_hash (hfold : FixesSmall fold) {hash : Text}
    (h : ∀ c ∈ hash, isHashChar c = true) :
    matchTag fold hash = none ∧ matchTail fold hash = none := by
  induction hash with
  | nil => exact ⟨rfl, rfl⟩
  | cons c hash ih =>
    have hc := h c List.mem_cons_self
    obtain ⟨htag, htail⟩ := ih fun d hd => h d (List.mem_cons_of_mem _ hd)
    refine ⟨matchTag_cons_eq_none htag htail, matchTail_eq_none_of_head ?_⟩
    rw [hfold c (.inl hc)]
    exact isHashChar_ne_dash hc

/-- A dash before an id is no name's end: there is no distance between them. -/
theorem matchTag_dash_hash (hfold : FixesSmall fold) {hash : Text}
    (h : ∀ c ∈ hash, isHashChar c = true) : matchTag fold ('-' :: 'g' :: hash) = none := by
  have hg : ∀ c ∈ 'g' :: hash, isHashChar c = true := List.forall_mem_cons.mpr ⟨by decide, h⟩
  obtain ⟨htag, htail⟩ := matchTag_hash hfold hg
  exact matchTag_cons_eq_none htag htail

/-- The hash with its `g` is no count of commits. -/
theorem matchTail_dash_hash (hfold : FixesSmall fold) (hash : Text) :
    matchTail fold ('-' :: 'g' :: hash) = none := by
  have hdigits : ('g' :: hash).takeWhile (fun d => (fold d).isDigit) = [] := by
    rw [List.takeWhile_cons, hfold 'g' (.inl (by decide)), if_neg (by decide)]
  rw [matchTail, hdigits]
  dsimp only
  split
  · rw [if_neg fun hc => hc.2.1 rfl]
  · rfl

/-- In what stands behind a name's dash nothing matches either. -/
theorem matchTag_digits (hfold : FixesSmall fold) {digits hash : Text}
    (hdigits : ∀ c ∈ digits, c.isDigit = true) (h : ∀ c ∈ hash, isHashChar c = true) :
    matchTag fold (digits ++ '-' :: 'g' :: hash) = none
      ∧ matchTail fold (digits ++ '-' :: 'g' :: hash) = none := by
  induction digits with
  | nil => exact ⟨matchTag_dash_hash hfold h, matchTail_dash_hash hfold hash⟩
  | cons c digits ih =>
    have hc : isHashChar c = true := by
      rw [isHashChar, hdigits c List.mem_cons_self, Bool.true_or]
    obtain ⟨htag, htail⟩ := ih fun d hd => hdigits d (List.mem_cons_of_mem _ hd)
    refine ⟨matchTag_cons_eq_none htag htail, matchTail_eq_none_of_head ?_⟩
    rw [hfold c (.inl hc)]
    exact isHashChar_ne_dash hc

/-- A distance and an id as `git describe --long` writes them are read back. -/
theorem matchTail_described (hfold : FixesSmall fold) {digits hash : Text}
    (hdigits : ∀ c ∈ digits, c.isDigit = true) (hne : digits ≠ []) (hzero : digits.head? ≠ some '0')
    (h : ∀ c ∈ hash, isHashChar c = true) (hhash : hash ≠ []) :
    matchTail fold ('-' :: (digits ++ '-' :: 'g' :: hash)) = some (some digits, false) := by
  have hdash : fold '-' = '-' := hfold '-' (.inr rfl)
  have hg : fold 'g' = 'g' := hfold 'g' (.inl (by decide))
  have htake : (digits ++ '-' :: 'g' :: hash).takeWhile (fun d => (fold d).isDigit) = digits := by
    rw [List.takeWhile_append_of_pos, List.takeWhile_cons, hdash, if_neg (by decide),
      List.append_nil]
    intro c hc
    rw [hfold c (.inl (by rw [isHashChar, hdigits c hc, Bool.true_or])), hdigits c hc]
  have hid : hash.takeWhile (fun d => isHashChar (fold d)) = hash := by
    refine List.takeWhile_eq_self_iff.mpr fun c hc => ?_
    rw [hfold c (.inl (h c hc)), h c hc]
  have hhead : digits.head?.map fold ≠ some '0' := by
    cases digits with
    | nil => exact absurd rfl hne
    | cons c digits =>
      rw [List.head?_cons, Option.map_some,
        hfold c (.inl (by rw [isHashChar, hdigits c List.mem_cons_self, Bool.true_or]))]
      exact hzero
  rw [matchTail]
  dsimp only
  rw [htake, List.drop_left]
  dsimp only
  rw [hid, if_pos ⟨hdash, hne, hdash, hg, hhash⟩, List.drop_length, if_neg (by simp), if_neg hhead]
  rfl

/-- If nothing matches behind the name, the whole name is the longest. -/
theorem matchTag_append {name rest : Text} {groups : Option Text × Bool} (hname : name ≠ [])
    (hline : '\n' ∉ name) (htag : matchTag fold rest = none)
    (htail : matchTail fold rest = some groups) :
    matchTag fold (name ++ rest) = some ⟨name, groups.1, groups.2⟩ := by
  induction name with
  | nil => exact absurd rfl hname
  | cons c name ih =>
    rw [List.mem_cons, not_or] at hline
    obtain ⟨hc, hrest⟩ := hline
    rw [List.cons_append, matchTag, if_neg (Ne.symm hc)]
    rcases eq_or_ne name [] with rfl | hne
    · rw [List.nil_append, htag, htail]
      rfl
    · rw [ih hne hrest]

/-- Nothing matches where no rest of the text does. -/
theorem matchTag_eq_none_iff {text : Text} (hline : '\n' ∉ text) :
    matchTag fold text = none
      ↔ ∀ name rest, name ≠ [] → text = name ++ rest → matchTail fold rest = none := by
  induction text with
  | nil =>
    refine iff_of_true rfl fun name rest hne h => ?_
    exact absurd (List.append_eq_nil_iff.mp h.symm).1 hne
  | cons c text ih =>
    rw [List.mem_cons, not_or] at hline
    obtain ⟨hc, hrest⟩ := hline
    rw [matchTag, if_neg (Ne.symm hc)]
    constructor
    · intro h name rest hne hname
      rcases hmatch : matchTag fold text with _ | m
      · rw [hmatch, Option.map_eq_none_iff] at h
        obtain ⟨d, name, rfl⟩ := List.exists_cons_of_ne_nil hne
        rw [List.cons_append, List.cons.injEq] at hname
        rcases eq_or_ne name [] with rfl | hne'
        · rwa [← List.nil_append rest, ← hname.2]
        · exact (ih hrest).mp hmatch name rest hne' hname.2
      · simp [hmatch] at h
    · intro h
      have hmatch : matchTag fold text = none := (ih hrest).mpr fun name rest _ hname =>
        h (c :: name) rest (List.cons_ne_nil _ _) (by rw [hname, List.cons_append])
      rw [hmatch, h [c] text (List.cons_ne_nil _ _) rfl, Option.map_none]

/-- **A text reads as the description of a tag**: it is the name, a dash, a distance and an id, where
the name is the longest that leaves such a rest. -/
structure ReadsAs (fold : Char → Char) (text : Text) (m : TagMatch) : Prop where
  name : m.name ≠ []
  rest : ∃ rest, text = m.name ++ rest ∧ matchTail fold rest = some (m.distance, m.dirty)
  longest : ∀ name rest, text = name ++ rest → m.name.length < name.length →
    matchTail fold rest = none

/-- A reading of a text whose name is longer than one character reads the text behind its first
character. -/
theorem ReadsAs.tail {c : Char} {text : Text} {m : TagMatch} (h : ReadsAs fold (c :: text) m) {d : Char}
    {name : Text} (hname : m.name = d :: name) (hne : name ≠ []) :
    d = c ∧ ReadsAs fold text { m with name := name } := by
  obtain ⟨rest, hrest, htail⟩ := h.rest
  rw [hname, List.cons_append, List.cons.injEq] at hrest
  refine ⟨hrest.1.symm, hne, ⟨rest, hrest.2, htail⟩, fun other rest' hother hlt => ?_⟩
  refine h.longest (c :: other) rest' (by rw [hother, List.cons_append]) ?_
  rw [hname]
  exact Nat.succ_lt_succ hlt

/-- **The match is the description that the text reads as.** -/
theorem matchTag_eq_some_iff {text : Text} {m : TagMatch} (hline : '\n' ∉ text) :
    matchTag fold text = some m ↔ ReadsAs fold text m := by
  induction text generalizing m with
  | nil =>
    refine iff_of_false (by simp [matchTag]) fun h => ?_
    obtain ⟨rest, hrest, -⟩ := h.rest
    exact h.name (List.append_eq_nil_iff.mp hrest.symm).1
  | cons c text ih =>
    have hline' := hline
    rw [List.mem_cons, not_or] at hline'
    obtain ⟨hc, hrest⟩ := hline'
    rw [matchTag, if_neg (Ne.symm hc)]
    constructor
    · intro h
      rcases hmatch : matchTag fold text with _ | m'
      · rw [hmatch] at h
        obtain ⟨groups, hgroups, rfl⟩ := Option.map_eq_some_iff.mp h
        refine ⟨List.cons_ne_nil _ _, ⟨text, rfl, hgroups⟩, fun name rest hname hlt => ?_⟩
        obtain ⟨d, name, rfl⟩ := List.exists_cons_of_ne_nil
          (List.ne_nil_of_length_pos (Nat.zero_lt_of_lt hlt))
        rw [List.cons_append, List.cons.injEq] at hname
        refine (matchTag_eq_none_iff hrest).mp hmatch name rest ?_ hname.2
        rintro rfl
        simp at hlt
      · rw [hmatch] at h
        obtain ⟨rest, htext, htail⟩ := ((ih hrest).mp hmatch).rest
        rw [← Option.some.inj h]
        refine ⟨List.cons_ne_nil _ _, ⟨rest, by rw [htext, List.cons_append], htail⟩, ?_⟩
        intro name rest' hname hlt
        obtain ⟨d, name, rfl⟩ := List.exists_cons_of_ne_nil
          (List.ne_nil_of_length_pos (Nat.zero_lt_of_lt hlt))
        rw [List.cons_append, List.cons.injEq] at hname
        exact ((ih hrest).mp hmatch).longest name rest' hname.2 (Nat.lt_of_succ_lt_succ hlt)
    · intro h
      obtain ⟨d, name, hname⟩ := List.exists_cons_of_ne_nil h.name
      rcases eq_or_ne name [] with rfl | hne
      · have hnone : matchTag fold text = none :=
          (matchTag_eq_none_iff hrest).mpr fun name rest hne htext =>
            h.longest (c :: name) rest (by rw [htext, List.cons_append]) (by
              rw [hname]
              simpa using List.length_pos_of_ne_nil hne)
        obtain ⟨rest, htext, htail⟩ := h.rest
        rw [hname, List.singleton_append, List.cons.injEq] at htext
        rw [hnone, htext.2, htail, Option.map_some, htext.1, ← hname]
      · obtain ⟨rfl, htail⟩ := h.tail hname hne
        rw [(ih hrest).mpr htail]
        exact congrArg some (by rw [← hname])

/-- The search begins where the text does. -/
theorem searchTag_eq_matchTag {text : Text} (hline : '\n' ∉ text) :
    searchTag fold text = matchTag fold text := by
  induction text with
  | nil => rfl
  | cons c text ih =>
    rw [searchTag, ih (List.not_mem_of_not_mem_cons hline)]
    rcases hmatch : matchTag fold (c :: text) with _ | m
    · rw [Option.none_or, matchTag_eq_none_iff (List.not_mem_of_not_mem_cons hline)]
      intro name rest _ hname
      exact (matchTag_eq_none_iff hline).mp hmatch (c :: name) rest (List.cons_ne_nil _ _)
        (by rw [hname, List.cons_append])
    · rw [Option.some_or]

end

/-! ## What the server writes -/

theorem head?_decimal_ne_zero {n : ℕ} (h : 0 < n) : (decimal n).head? ≠ some '0' := by
  induction n using Nat.strong_induction_on with
  | _ n ih =>
    rw [decimal, Nat.toDigits_eq_if (by decide)]
    split
    · have : n = 1 ∨ n = 2 ∨ n = 3 ∨ n = 4 ∨ n = 5 ∨ n = 6 ∨ n = 7 ∨ n = 8 ∨ n = 9 := by omega
      rcases this with rfl | rfl | rfl | rfl | rfl | rfl | rfl | rfl | rfl <;> decide
    · rw [List.head?_append_of_ne_nil _ Nat.toDigits_ne_nil]
      exact ih (n / 10) (by omega) (by omega)

theorem stringToNumber_decimal (n : ℕ) : stringToNumber (decimal n) = n := by
  rw [stringToNumber, List.takeWhile_eq_self_iff.mpr fun c => isDigit_of_mem_decimal]
  exact Nat.ofDigitChars_ten_toDigits

/-- What `get_tag_desc` writes for a tag it finds. -/
def tagDesc (tag : Text) (n : ℕ) (oid : Oid) : Text :=
  if n = 0 then tag else tag ++ '-' :: (decimal n ++ '-' :: 'g' :: oid)

/-- **What the server writes is read back**: the tag and the count of commits. -/
theorem matchTag_tagDesc {fold : Char → Char} (hfold : FixesSmall fold) {tag : Text} {n : ℕ}
    {oid : Oid} (hn : 0 < n) (htag : tag ≠ []) (hline : '\n' ∉ tag) (hoid : oid ≠ [])
    (hhash : ∀ c ∈ oid, isHashChar c = true) :
    matchTag fold (tagDesc tag n oid) = some ⟨tag, some (decimal n), false⟩ := by
  have hdigits : ∀ c ∈ decimal n, c.isDigit = true := fun c => isDigit_of_mem_decimal
  obtain ⟨hnone, htail⟩ := matchTag_digits hfold hdigits hhash
  rw [tagDesc, if_neg hn.ne']
  exact matchTag_append htag hline (matchTag_cons_eq_none hnone htail)
    (matchTail_described hfold hdigits Nat.toDigits_ne_nil (head?_decimal_ne_zero hn) hhash hoid)

/-- The tag before `HEAD` is read as this one at this distance. -/
def DecodesTo (fold : Char → Char) (text tag : Text) (n : ℕ) : Prop :=
  magitGetCurrentTagV2 fold text false = some (.tag tag)
    ∧ magitGetCurrentTagV2 fold text true = some (.withDistance tag n false)

theorem not_decodesTo_nil (fold : Char → Char) (tag : Text) (n : ℕ) : ¬ DecodesTo fold [] tag n :=
  fun h => by simp [DecodesTo, magitGetCurrentTagV2] at h

/-- What a line decodes to is what it reads as, with its count as a number. -/
theorem decodesTo_iff {fold : Char → Char} {text tag : Text} {n : ℕ} (hline : '\n' ∉ text) :
    DecodesTo fold text tag n
      ↔ ∃ distance, ReadsAs fold text ⟨tag, distance, false⟩
        ∧ stringToNumber (distance.getD "0".toList) = n := by
  rcases eq_or_ne text [] with rfl | hne
  · refine iff_of_false (not_decodesTo_nil fold tag n) ?_
    rintro ⟨distance, h, -⟩
    obtain ⟨rest, hrest, -⟩ := h.rest
    exact h.name (List.append_eq_nil_iff.mp hrest.symm).1
  · simp only [DecodesTo, magitGetCurrentTagV2, if_neg hne, searchTag_eq_matchTag hline,
      Bool.false_eq_true, if_false, if_true]
    rcases hmatch : matchTag fold text with _ | ⟨name, distance, dirty⟩
    · refine iff_of_false (by simp) ?_
      rintro ⟨distance, h, -⟩
      rw [(matchTag_eq_some_iff hline).mpr h] at hmatch
      cases hmatch
    · have hreads := (matchTag_eq_some_iff hline).mp hmatch
      simp only [Option.map_some, Option.some.injEq, CurrentTag.tag.injEq,
        CurrentTag.withDistance.injEq]
      constructor
      · rintro ⟨rfl, -, rfl, rfl⟩
        exact ⟨distance, hreads, rfl⟩
      · rintro ⟨distance', h, rfl⟩
        obtain ⟨rfl, rfl, rfl⟩ : name = tag ∧ distance = distance' ∧ dirty = false := by
          have hsame := hmatch.symm.trans ((matchTag_eq_some_iff hline).mpr h)
          simpa using hsame
        exact ⟨rfl, rfl, rfl, rfl⟩

/-- A description with a distance is read as what it was made of. -/
theorem decodesTo_tagDesc_iff {fold : Char → Char} (hfold : FixesSmall fold) {found tag : Text}
    {m n : ℕ} {oid : Oid} (hm : 0 < m) (hfound : found ≠ []) (hline : '\n' ∉ found) (hoid : oid ≠ [])
    (hhash : ∀ c ∈ oid, isHashChar c = true) :
    DecodesTo fold (tagDesc found m oid) tag n ↔ found = tag ∧ m = n := by
  have hmatch := matchTag_tagDesc hfold hm hfound hline hoid hhash
  have hid : '\n' ∉ oid := fun h => absurd (hhash _ h) (by decide)
  have hdecimal : '\n' ∉ decimal m := notMem_decimal (by decide) m
  have htext : '\n' ∉ tagDesc found m oid := by
    rw [tagDesc, if_neg hm.ne']
    simp [hline, hid, hdecimal]
  rw [decodesTo_iff htext]
  simp only [← matchTag_eq_some_iff htext, hmatch, Option.some.injEq, TagMatch.mk.injEq]
  constructor
  · rintro ⟨distance, ⟨rfl, rfl, -⟩, rfl⟩
    exact ⟨rfl, (stringToNumber_decimal m).symm⟩
  · rintro ⟨rfl, rfl⟩
    exact ⟨some (decimal m), ⟨rfl, rfl, trivial⟩, stringToNumber_decimal m⟩

/-! ## Which tag the server finds -/

section

variable {δ : Type} (lg : Libgit2 δ) (s : RefStore)

/-- The full name of a reference to a tag object of the commit. -/
def NamesTagOf (name : Text) (oid : Oid) : Prop :=
  ∃ tagOid, s.refs name = some (.direct tagOid) ∧ lg.tagLookup tagOid = .ok oid

/-- Of the names that `git_tag_list` gives this is the first that is itself a full one, as it stands,
of a tag of the `n`-th commit before `HEAD`, and none is one of a commit before that. -/
structure ListedInFull (name : Text) (n : ℕ) (oid : Oid) : Prop where
  walked : ∃ before after, lg.revwalk.items = before ++ oid :: after ∧ before.length = n
    ∧ ∀ earlier ∈ before, ∀ other, (s.refs ("refs/tags/".toList ++ other)).isSome →
      ¬ NamesTagOf lg s other earlier
  listed : ∃ front back, lg.tagList = .ok (front ++ name :: back)
    ∧ ∀ other ∈ front, ¬ NamesTagOf lg s other oid
  full : NamesTagOf lg s name oid

/-- The repository can be walked from `HEAD` on. -/
structure WalksHead : Prop where
  head : ∃ ref commit, lg.repositoryHead.head = .ok ref ∧ lg.referencePeelCommit ref = .ok commit
  revwalk : 0 ≤ lg.revwalkNew ∧ 0 ≤ lg.revwalkPushHead
  id : ∀ oid ∈ lg.revwalk.items, oid ≠ [] ∧ ∀ c ∈ oid, isHashChar c = true

variable {lg s}

/-- A listed name points to a commit exactly if it names a tag of it. -/
theorem tagPointsTo_iff (hrefs : Refs lg s) {name : Text} {oid : Oid}
    (hcommit : ∃ commit, lg.commitLookup oid = .ok commit) :
    tagPointsTo lg oid name = true ↔ NamesTagOf lg s name oid := by
  obtain ⟨commit, hcommit⟩ := hcommit
  rw [tagPointsTo, NamesTagOf]
  rcases htarget : s.refs name with _ | tagOid | target
  · obtain ⟨e, -, hlookup⟩ := hrefs.lookup_none htarget
    simp [hlookup]
  · rw [hrefs.lookup_some htarget]
    simp only [Reference.oid, Option.some.injEq, RefTarget.direct.injEq, exists_eq_left']
    rcases lg.tagLookup tagOid with e | tagTarget
    · simp
    · dsimp only
      rw [Except.ok.injEq]
      constructor
      · intro h
        split at h
        · exact absurd h Bool.false_ne_true
        · exact of_decide_eq_true h
      · rintro rfl
        simp [hcommit]
  · rw [hrefs.lookup_some htarget]
    simp [Reference.oid]

/-- The walk stops at the first commit that a listed name finds a tag of. -/
theorem findTag_eq_some_iff {names : List Text} (hnames : lg.tagList = .ok names) {items : List Oid}
    (hcommit : ∀ oid ∈ items, ∃ commit, lg.commitLookup oid = .ok commit) {start n : ℕ} {tag : Text}
    {oid : Oid} :
    findTag lg items start = some (tag, n, oid)
      ↔ ∃ before after name, items = before ++ oid :: after ∧ n = start + before.length ∧ n < 1000
        ∧ (∀ earlier ∈ before, ∀ other ∈ names, ¬ tagPointsTo lg earlier other = true)
        ∧ names.find? (tagPointsTo lg oid) = some name
        ∧ stripPrefix "refs/tags/".toList name = tag := by
  induction items generalizing start with
  | nil => simp [findTag]
  | cons first items ih =>
    obtain ⟨commit, hfirst⟩ := hcommit first List.mem_cons_self
    rw [findTag]
    split
    · next hlt =>
      rw [hfirst, hnames]
      dsimp only
      rcases hfind : names.find? (tagPointsTo lg first) with _ | name
      · have hnone : ∀ other ∈ names, ¬ tagPointsTo lg first other = true :=
          List.find?_eq_none.mp hfind
        dsimp only
        rw [ih fun oid hoid => hcommit oid (List.mem_cons_of_mem _ hoid)]
        constructor
        · rintro ⟨before, after, name, rfl, hn, hlt', hpassed, hfound, htag⟩
          exact ⟨first :: before, after, name, rfl, by rw [hn, List.length_cons]; omega, hlt',
            List.forall_mem_cons.mpr ⟨hnone, hpassed⟩, hfound, htag⟩
        · rintro ⟨before, after, name, hitems, hn, hlt', hpassed, hfound, htag⟩
          cases before with
          | nil =>
            obtain ⟨rfl, -⟩ := List.cons.inj hitems
            rw [hfind] at hfound
            cases hfound
          | cons earlier before =>
            obtain ⟨rfl, rfl⟩ := List.cons.inj hitems
            exact ⟨before, after, name, rfl, by rw [hn, List.length_cons]; omega, hlt',
              fun oid hoid => hpassed oid (List.mem_cons_of_mem _ hoid), hfound, htag⟩
      · dsimp only
        constructor
        · intro h
          obtain ⟨rfl, rfl, rfl⟩ : stripPrefix "refs/tags/".toList name = tag ∧ start = n
            ∧ first = oid := by simpa using h
          exact ⟨[], items, name, rfl, rfl, hlt, by simp, hfind, rfl⟩
        · rintro ⟨before, after, name', hitems, hn, -, hpassed, hfound, htag⟩
          cases before with
          | nil =>
            obtain ⟨rfl, -⟩ := List.cons.inj hitems
            rw [hfind] at hfound
            rw [Option.some.inj hfound, htag, hn]
            rfl
          | cons earlier before =>
            obtain ⟨rfl, -⟩ := List.cons.inj hitems
            exact absurd (List.find?_some hfind)
              (hpassed first List.mem_cons_self name (List.mem_of_find?_eq_some hfind))
    · next hlt =>
      refine iff_of_false (by simp) ?_
      rintro ⟨before, after, name, -, hn, hlt', -⟩
      omega

/-- What is found is a tag whose full name is that of another one. -/
theorem findTag_iff_listedInFull (hrefs : Refs lg s) (htags : Tags lg s) {n : ℕ} {tag : Text}
    {oid : Oid} :
    findTag lg lg.revwalk.items 0 = some (tag, n, oid)
      ↔ n < 1000 ∧ ∃ name, ListedInFull lg s name n oid
        ∧ stripPrefix "refs/tags/".toList name = tag := by
  obtain ⟨names, hnames, hlisted⟩ := htags.list
  rw [findTag_eq_some_iff hnames htags.commit]
  constructor
  · rintro ⟨before, after, name, hitems, hn, hlt, hpassed, hfound, htag⟩
    have hpoints {other : Text} {earlier : Oid} (hearlier : earlier ∈ lg.revwalk.items) :
        tagPointsTo lg earlier other = true ↔ NamesTagOf lg s other earlier :=
      tagPointsTo_iff hrefs (htags.commit earlier hearlier)
    have hoid : oid ∈ lg.revwalk.items := by simp [hitems]
    obtain ⟨front, back, hsplit, hfront⟩ := (List.find?_eq_some_iff_append.mp hfound).2
    refine ⟨hlt, name, ⟨⟨before, after, hitems, by omega, ?_⟩, ⟨front, back, hsplit ▸ hnames, ?_⟩,
      (hpoints hoid).mp (List.find?_some hfound)⟩, htag⟩
    · intro earlier hearlier other hother hnames'
      refine hpassed earlier hearlier other ((hlisted other).mpr hother) ((hpoints ?_).mpr hnames')
      rw [hitems]
      exact List.mem_append_left _ hearlier
    · intro other hother hnames'
      simpa [(hpoints hoid).mpr hnames'] using hfront other hother
  · rintro ⟨hlt, name, hfull, htag⟩
    obtain ⟨before, after, hitems, hn, hpassed⟩ := hfull.walked
    obtain ⟨front, back, hsplit, hfront⟩ := hfull.listed
    have hpoints {other : Text} {earlier : Oid} (hearlier : earlier ∈ lg.revwalk.items) :
        tagPointsTo lg earlier other = true ↔ NamesTagOf lg s other earlier :=
      tagPointsTo_iff hrefs (htags.commit earlier hearlier)
    have hoid : oid ∈ lg.revwalk.items := by simp [hitems]
    refine ⟨before, after, name, hitems, by omega, hlt, ?_, ?_, htag⟩
    · intro earlier hearlier other hother hpointed
      refine hpassed earlier hearlier other ((hlisted other).mp hother) ((hpoints ?_).mp hpointed)
      rw [hitems]
      exact List.mem_append_left _ hearlier
    · rw [Except.ok.inj (hnames.symm.trans hsplit), List.find?_eq_some_iff_append]
      refine ⟨(hpoints hoid).mpr hfull.full, front, back, rfl, fun other hother => ?_⟩
      rw [Bool.not_eq_true', ← Bool.not_eq_true, hpoints hoid]
      exact hfront other hother

/-- No other tag is listed in full: the walk finds one. -/
theorem ListedInFull.unique (hrefs : Refs lg s) (htags : Tags lg s) {name name' : Text} {n n' : ℕ}
    {oid oid' : Oid} (h : ListedInFull lg s name n oid) (h' : ListedInFull lg s name' n' oid')
    (hlt : n < 1000) (hlt' : n' < 1000) :
    stripPrefix "refs/tags/".toList name' = stripPrefix "refs/tags/".toList name ∧ n' = n := by
  have hfound := (findTag_iff_listedInFull hrefs htags).mpr ⟨hlt, name, h, rfl⟩
  rw [(findTag_iff_listedInFull hrefs htags).mpr ⟨hlt', name', h', rfl⟩] at hfound
  simp only [Option.some.injEq, Prod.mk.injEq] at hfound
  exact ⟨hfound.1, hfound.2.1⟩

/-- Where no tag is named like the full name of another, none is found. -/
theorem findTag_eq_none (hrefs : Refs lg s) (htags : Tags lg s)
    (hnone : ∀ name, (s.refs ("refs/tags/".toList ++ name)).isSome → s.refs name = none) :
    findTag lg lg.revwalk.items 0 = none := by
  rcases hfound : findTag lg lg.revwalk.items 0 with _ | ⟨found, m, oid⟩
  · rfl
  · obtain ⟨-, name, hfull, -⟩ := (findTag_iff_listedInFull hrefs htags).mp hfound
    obtain ⟨names, hnames, hlisted⟩ := htags.list
    obtain ⟨front, back, hsplit, -⟩ := hfull.listed
    obtain ⟨tagOid, hstored, -⟩ := hfull.full
    have hmem : name ∈ names := by
      rw [Except.ok.inj (hnames.symm.trans hsplit)]
      simp
    rw [hnone name ((hlisted name).mp hmem)] at hstored
    cases hstored

/-- When `HEAD` can be walked, the description is that of the first commit with a tag, or empty. -/
theorem getTagDesc_of_walksHead (h : WalksHead lg) :
    (getTagDesc lg []).2 = match findTag lg lg.revwalk.items 0 with
      | some (tag, n, oid) => tagDesc tag n oid
      | none => [] := by
  obtain ⟨ref, commit, hhead, hpeel⟩ := h.head
  rw [getTagDesc, hhead]
  dsimp only
  rw [hpeel]
  dsimp only
  rw [if_neg (not_lt.mpr h.revwalk.1), if_neg (not_lt.mpr h.revwalk.2)]
  rcases findTag lg lg.revwalk.items 0 with _ | ⟨tag, _ | n, oid⟩
  · rfl
  · rfl
  · simp [tagDesc, gitOidTostr, List.append_assoc]

/-! ## When it is read back -/

/-- When the tag is read back: what the server finds is this tag, before `HEAD` and not at it, or it
is at `HEAD` and its name looks like the description of this one. -/
def ReadBack (fold : Char → Char) (lg : Libgit2 δ) (s : RefStore) (tag : Text) (n : ℕ) : Prop :=
  ∃ name m oid, m < 1000 ∧ ListedInFull lg s name m oid
    ∧ (0 < m ∧ stripPrefix "refs/tags/".toList name = tag ∧ m = n
      ∨ m = 0 ∧ ∃ distance, ReadsAs fold (stripPrefix "refs/tags/".toList name) ⟨tag, distance, false⟩
        ∧ stringToNumber (distance.getD "0".toList) = n)

/-- The description is read back as the tag and, if asked for, its distance. -/
def RoundTrips (fold : Char → Char) (lg : Libgit2 δ) (tag : Text) (n : ℕ) : Prop :=
  DecodesTo fold (getTagDesc lg []).2 tag n

/-- A shortened name is one line as well. -/
theorem stripPrefix_ok {name : Text}
    (h : name ≠ [] ∧ '\n' ∉ name ∧ name.getLast? ≠ some '/') :
    stripPrefix "refs/tags/".toList name ≠ [] ∧ '\n' ∉ stripPrefix "refs/tags/".toList name := by
  rw [stripPrefix]
  split
  · next hpre =>
    obtain ⟨rest, rfl⟩ := List.isPrefixOf_iff_prefix.mp hpre
    rw [List.drop_left]
    refine ⟨?_, fun hmem => h.2.1 (List.mem_append_right _ hmem)⟩
    rintro rfl
    exact h.2.2 (by decide)
  · exact ⟨h.1, h.2.1⟩

/-- **A tag is read back if and only if it is before `HEAD`, and a tag is named like its full name**,
so that this is found under the name it is listed by.  In a repository without such a tag nothing is
written, wherever its tags are, and an empty description is no tag. -/
theorem tag_round_trip_iff {fold : Char → Char} (hfold : FixesSmall fold) (hrefs : Refs lg s)
    (htags : Tags lg s) (hwalks : WalksHead lg) (tag : Text) (n : ℕ) :
    (RoundTrips fold lg tag n ↔ ReadBack fold lg s tag n)
      ∧ ((∀ name, (s.refs ("refs/tags/".toList ++ name)).isSome → s.refs name = none) →
        (getTagDesc lg []).2 = [])
      ∧ ∀ withDistance, magitGetCurrentTagV2 fold [] withDistance = none := by
  have htext := getTagDesc_of_walksHead hwalks
  refine ⟨?_, fun hnone => ?_, fun withDistance => rfl⟩
  · rw [RoundTrips, ReadBack, htext]
    rcases hfound : findTag lg lg.revwalk.items 0 with _ | ⟨found, m, oid⟩
    · refine iff_of_false (not_decodesTo_nil fold tag n) ?_
      rintro ⟨name, m, oid, hlt, hfull, -⟩
      rw [(findTag_iff_listedInFull hrefs htags).mpr ⟨hlt, name, hfull, rfl⟩] at hfound
      cases hfound
    · obtain ⟨hlt, name, hfull, rfl⟩ := (findTag_iff_listedInFull hrefs htags).mp hfound
      obtain ⟨before, after, hitems, -⟩ := hfull.walked
      obtain ⟨tagOid, hstored, -⟩ := hfull.full
      obtain ⟨hne, hline⟩ := stripPrefix_ok (htags.name hstored)
      obtain ⟨hoid, hhash⟩ := hwalks.id oid (by simp [hitems])
      dsimp only
      rcases Nat.eq_zero_or_pos m with rfl | hm
      · rw [tagDesc, if_pos rfl, decodesTo_iff hline]
        constructor
        · intro h
          exact ⟨name, 0, oid, hlt, hfull, .inr ⟨rfl, h⟩⟩
        · rintro ⟨name', m', oid', hlt', hfull', h⟩
          obtain ⟨hsame, rfl⟩ := hfull.unique hrefs htags hfull' hlt hlt'
          rcases h with ⟨hpos, -⟩ | ⟨-, h⟩
          · exact absurd hpos (lt_irrefl 0)
          · rwa [hsame] at h
      · rw [decodesTo_tagDesc_iff hfold hm hne hline hoid hhash]
        constructor
        · rintro ⟨htag, hn⟩
          exact ⟨name, m, oid, hlt, hfull, .inl ⟨hm, htag, hn⟩⟩
        · rintro ⟨name', m', oid', hlt', hfull', h⟩
          obtain ⟨hsame, rfl⟩ := hfull.unique hrefs htags hfull' hlt hlt'
          rcases h with ⟨-, htag, hn⟩ | ⟨hzero, -⟩
          · exact ⟨hsame ▸ htag, hn⟩
          · exact absurd hm (by omega)
  · rw [htext, findTag_eq_none hrefs htags hnone]

end

/-! ## Repositories with tags -/

/-- A repository with these tags, all of one tag object. -/
def taggedStore (names : List Text) : RefStore where
  refs name :=
    if name = RefStore.headName then some (.symbolic "refs/heads/master".toList)
    else if name = "refs/heads/master".toList then some (.direct "c0ffee".toList)
    else if names.any fun tag => name = "refs/tags/".toList ++ tag then some (.direct "7a6".toList)
    else none
  commits _ := some ⟨none, none, []⟩

/-- The answers of libgit2 there, if the commits are these, from `HEAD` on, and the object is of this
one. -/
def taggedLibgit2 (names : List Text) (commits : List Oid) (oid : Oid) : Libgit2 Unit :=
  { (taggedStore names).libgit2 with
    tagList := .ok names
    tagLookup := fun tagOid => if tagOid = "7a6".toList then .ok oid else .error gitEnotfound
    revwalk := ⟨commits, gitIterover⟩ }

theorem refs_taggedStore (names : List Text) (name : Text) :
    (taggedStore names).refs ("refs/tags/".toList ++ name)
      = if name ∈ names then some (.direct "7a6".toList) else none := by
  have hmem : names.any (fun tag => "refs/tags/".toList ++ name = "refs/tags/".toList ++ tag) = true
      ↔ name ∈ names := by
    simp
  rw [taggedStore]
  dsimp only
  rw [if_neg (by simp [RefStore.headName]), if_neg (by simp)]
  simp only [hmem]

theorem refs_tagged (names : List Text) (commits : List Oid) (oid : Oid) :
    Refs (taggedLibgit2 names commits oid) (taggedStore names) :=
  have h := (taggedStore names).refs_libgit2
  ⟨h.lookup_some, h.lookup_none, h.head_ok, h.head_unborn, h.peel_ok, h.peel_unborn, h.revparse_ok⟩

/-- The tags of the example are listed as libgit2 does. -/
theorem tags_tagged {names : List Text} {commits : List Oid} {oid : Oid}
    (hnames : ∀ name ∈ names, name ≠ [] ∧ '\n' ∉ name ∧ name.getLast? ≠ some '/') :
    Tags (taggedLibgit2 names commits oid) (taggedStore names) where
  list := ⟨names, rfl, fun name => by rw [refs_taggedStore]; split <;> simp [*]⟩
  name {name target} h := by
    rw [taggedStore] at h
    dsimp only at h
    split_ifs at h with hhead hmaster htag
    · rw [hhead]
      decide
    · rw [hmaster]
      decide
    · obtain ⟨tag, hmem, heq⟩ := List.any_eq_true.mp htag
      obtain rfl := of_decide_eq_true heq
      obtain ⟨hne, hline, hlast⟩ := hnames tag hmem
      refine ⟨by simp, ?_, ?_⟩
      · simp [hline]
      · rwa [List.getLast?_append_of_ne_nil _ hne]
  commit _ _ := ⟨⟨none, none, []⟩, rfl⟩

/-- The example walks from `HEAD`. -/
theorem walksHead_tagged {names : List Text} {commits : List Oid} {oid : Oid}
    (hids : ∀ oid ∈ commits, oid ≠ [] ∧ ∀ c ∈ oid, isHashChar c = true) :
    WalksHead (taggedLibgit2 names commits oid) where
  head := ⟨⟨RefStore.headName, .direct "c0ffee".toList⟩, ⟨none, none, []⟩, rfl, rfl⟩
  revwalk := ⟨le_refl 0, le_refl 0⟩
  id := hids

/-- Every name of the example is a tag of its commit. -/
theorem namesTagOf_tagged {names : List Text} {commits : List Oid} {oid : Oid} {tag : Text}
    (h : tag ∈ names) :
    NamesTagOf (taggedLibgit2 names commits oid) (taggedStore names) ("refs/tags/".toList ++ tag)
      oid :=
  ⟨"7a6".toList, by rw [refs_taggedStore, if_pos h], rfl⟩

theorem hashChars_tagged : ∀ oid ∈ ["c0ffee".toList, "ab1e".toList],
    oid ≠ [] ∧ ∀ c ∈ oid, isHashChar c = true := by
  simp only [List.forall_mem_cons]
  exact ⟨⟨by decide, List.all_eq_true.mp rfl⟩, ⟨by decide, List.all_eq_true.mp rfl⟩, by simp⟩

/-- The tag `v1-2-g3` before `HEAD`, in a repository with a tag `refs/tags/v1-2-g3`. -/
theorem tag_round_trip_adversarial :
    RoundTrips id (taggedLibgit2 ["refs/tags/v1-2-g3".toList, "v1-2-g3".toList]
      ["c0ffee".toList, "ab1e".toList] "ab1e".toList) "v1-2-g3".toList 1 := by
  refine (tag_round_trip_iff (fun _ _ => rfl) (refs_tagged _ _ _) (tags_tagged (by decide))
    (walksHead_tagged hashChars_tagged) _ _).1.mpr ?_
  refine ⟨"refs/tags/v1-2-g3".toList, 1, "ab1e".toList, by decide,
    ⟨⟨["c0ffee".toList], [], rfl, rfl, ?_⟩, ⟨[], ["v1-2-g3".toList], rfl, by simp⟩,
      namesTagOf_tagged (by decide)⟩, .inl ⟨by decide, by decide, rfl⟩⟩
  intro earlier hearlier other _
  rintro ⟨tagOid, -, hlookup⟩
  rw [List.mem_singleton.mp hearlier, taggedLibgit2] at hlookup
  dsimp only at hlookup
  split_ifs at hlookup
  exact absurd (Except.ok.inj hlookup) (by decide)

/-- **A tag is not found by the name it is listed by**, one commit before `HEAD` as little as at
`HEAD`; and at `HEAD` its bare name would not be read back. -/
theorem tag_lost :
    let names := ["v1".toList]
    let both := ["refs/tags/v1".toList, "v1".toList]
    let lg := taggedLibgit2 names ["c0ffee".toList, "ab1e".toList] "ab1e".toList
    let atHead := taggedLibgit2 names ["c0ffee".toList, "ab1e".toList] "c0ffee".toList
    let bareName := taggedLibgit2 both ["c0ffee".toList, "ab1e".toList] "c0ffee".toList
    (Refs lg (taggedStore names) ∧ Tags lg (taggedStore names) ∧ WalksHead lg
        ∧ NamesTagOf lg (taggedStore names) "refs/tags/v1".toList "ab1e".toList
        ∧ (getTagDesc lg []).2 = [] ∧ ¬ RoundTrips id lg "v1".toList 1)
      ∧ (NamesTagOf atHead (taggedStore names) "refs/tags/v1".toList "c0ffee".toList
        ∧ (getTagDesc atHead []).2 = [] ∧ ¬ RoundTrips id atHead "v1".toList 0)
      ∧ (getTagDesc bareName []).2 = "v1".toList ∧ ¬ RoundTrips id bareName "v1".toList 0 := by
  intro names both lg atHead bareName
  have hdesc : (getTagDesc lg []).2 = [] := by decide
  have hhead : (getTagDesc atHead []).2 = [] := by decide
  have hbare : (getTagDesc bareName []).2 = "v1".toList := by decide
  refine ⟨⟨refs_tagged _ _ _, tags_tagged (by decide), walksHead_tagged hashChars_tagged,
    namesTagOf_tagged (by decide), hdesc, ?_⟩, ⟨namesTagOf_tagged (by decide), hhead, ?_⟩, hbare, ?_⟩
  · rw [RoundTrips, hdesc]
    exact not_decodesTo_nil _ _ _
  · rw [RoundTrips, hhead]
    exact not_decodesTo_nil _ _ _
  · rw [RoundTrips, hbare]
    exact fun h => absurd h.1 (by decide)

end Magit.Client
