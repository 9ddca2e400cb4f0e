import Magit.Git.BranchSplit

/-!
# Git/Tracked — which branch of a remote a remote-tracking branch tracks

`magit-get-tracked` takes remotes and refspecs from the lines of `git config --list` with a regular
expression, and makes another one of the destination.  `magitGetTracked_iff` is when that comes to
the first refspec whose destination is the ref, in terms of the remotes and refspecs
(`Entry.Recognized`).
-/

namespace Magit.Tracked

open Emacs BranchSplit

/-! ## `magit-get-tracked` -/

section

variable (fold : Char → Char)

/-- ``\([^:]+\):\(.+\)`` -/
def refspecParts (text : Name) : Option (Name × Name) :=
  (upTo ':' text).bind fun (src, rest) =>
    let dst := rest.takeWhile (· ≠ '\n')
    if dst = [] then none else some (src, dst)

/-- ``\`remote\.\([^.]+\)\.fetch=\+?\([^:]+\):\(.+\)`` -/
def fetchParts (line : Name) : Option (Name × Name × Name) :=
  (skip fold "remote.".toList line).bind fun text => (upTo '.' text).bind fun (remote, text) =>
    (skip fold "fetch=".toList text).bind fun value =>
      (((skip id ['+'] value).bind refspecParts).or (refspecParts value)).map (remote, ·)

/-- `(string-replace "*" text src)`; the text is nil only if there is no asterisk. -/
def replaceWildcard (text src : Name) : Name :=
  src.flatMap fun c => if c = '*' then text else [c]

/-- What a line of the configuration says about a ref; the destination is put into an expression as
it is, with ``\(.+\)`` for an asterisk. -/
def trackedBy (ref line : Name) : Option (Name × Name) :=
  (fetchParts fold line).bind fun (remote, src, dst) =>
    ((Piece.sequence (unquoted fold 1 none dst)).matchWhole ref).map fun g =>
      (remote, replaceWildcard ((g 1).getD []) src)

/-- `magit-get-tracked`; `fullname` is `magit-ref-fullname`, and the lines are those of
`git config --local --list`. -/
def magitGetTracked (fullname : Name → Option Name) (lines : List Name) (refname : Name) :
    Option (Name × Name) :=
  (fullname refname).bind fun ref => lines.findSome? (trackedBy fold ref)

end

/-! ## How a line is read -/

/-- A value is read as a source and a destination.  A plus in front is not part of the source, unless
nothing else is. -/
def ValueRead (value src dst : Name) : Prop :=
  ∃ plus behind, value = plus ++ (src ++ ':' :: (dst ++ behind)) ∧
    (plus = ['+'] ∨ plus = [] ∧ (src.head? = some '+' → src = ['+'])) ∧
    (src ≠ [] ∧ ':' ∉ src) ∧ dst ≠ [] ∧ '\n' ∉ dst ∧ ∀ c ∈ behind.head?, c = '\n'

/-- A line is read as one about a remote, whose name ends at the first dot. -/
def LineRead (fold : Char → Char) (line remote src dst : Name) : Prop :=
  ∃ start key value, line = start ++ (remote ++ '.' :: (key ++ value)) ∧
    start.map fold = "remote.".toList.map fold ∧ key.map fold = "fetch=".toList.map fold ∧
    (remote ≠ [] ∧ '.' ∉ remote) ∧ ValueRead value src dst

/-- A destination fits a ref, its first asterisk standing for a part. -/
def DstFits (fold : Char → Char) (dst ref part : Name) : Prop :=
  ('*' ∉ dst ∧ Fits fold dst ref ∧ part = []) ∨
    ∃ before behind, dst = before ++ '*' :: behind ∧ '*' ∉ before ∧
      StandsIn fold before behind ref part

/-- A line is read as one about a refspec whose destination fits the ref. -/
def Recognizes (fold : Char → Char) (ref line : Name) (x : Name × Name) : Prop :=
  ∃ source dst part, LineRead fold line x.1 source dst ∧ DstFits fold dst ref part ∧
    x.2 = replaceWildcard part source

/-! ## The configuration -/

/-- Characters that Git does not allow in either side of a refspec; an asterisk is a case of its
own. -/
def refused : List Char := ':' :: forbidden

/-- A part of a side. -/
structure Part where
  text : Name
  allowed : ∀ c ∈ text, c ∉ refused

/-- A refspec with a destination.  A plus in front says that it is forced. -/
inductive Refspec
  | exact (forced : Bool) (src dst : Part) (plus : forced = false → src.text.head? ≠ some '+')
    (ne_nil : dst.text ≠ [])
  /-- Each side has an asterisk. -/
  | star (forced : Bool) (srcBefore srcBehind dstBefore dstBehind : Part)
    (plus : forced = false → srcBefore.text.head? ≠ some '+')

/-- What stands behind the equal sign. -/
def Refspec.value : Refspec → Name
  | exact forced src dst _ _ => (if forced then ['+'] else []) ++ (src.text ++ ':' :: dst.text)
  | star forced srcBefore srcBehind dstBefore dstBehind _ =>
    (if forced then ['+'] else []) ++ ((srcBefore.text ++ '*' :: srcBehind.text) ++
      ':' :: (dstBefore.text ++ '*' :: dstBehind.text))

/-- The source for a ref that the destination matches. -/
def Refspec.source (ref : Name) : Refspec → Option Name
  | exact _ src dst _ _ => if dst.text = ref then some src.text else none
  | star _ srcBefore srcBehind dstBefore dstBehind _ =>
    if dstBefore.text <+: ref ∧ dstBehind.text <:+ ref ∧
        dstBefore.text.length + dstBehind.text.length ≤ ref.length then
      some (srcBefore.text ++ (ref.drop dstBefore.text.length).take
        (ref.length - dstBefore.text.length - dstBehind.text.length) ++ srcBehind.text)
    else none

/-- An entry of the configuration. -/
inductive Entry (fold : Char → Char)
  /-- `remote.REMOTE.fetch` -/
  | fetch (remote : RemoteName) (spec : Refspec)
  /-- Anything else, a line of a value that has several, too.  If it reads like the one above, the
  characters that Git does not allow are not in what reads like a destination. -/
  | other (line : Name) (allowed : ∀ remote src dst, LineRead fold line remote src dst →
      ∀ c ∈ dst, c ∉ ['\\', '[', '?', '^'])

section

variable {fold : Char → Char}

/-- How it is listed. -/
def Entry.line : Entry fold → Name
  | fetch remote spec => "remote.".toList ++ (remote.name ++ '.' :: ("fetch=".toList ++ spec.value))
  | other line _ => line

/-- The remote, and what of it is fetched into a ref. -/
def Entry.target (ref : Name) : Entry fold → Option (Name × Name)
  | fetch remote spec => (spec.source ref).map (remote.name, ·)
  | other _ _ => none

end

/-! ## What is recognized -/

/-- What a refspec gives for a ref: a destination without an asterisk has to fit it as an
expression, and one with an asterisk, which stands for one or more characters.  An empty source is
not there; the plus is taken for it. -/
def Refspec.Gives (fold : Char → Char) (ref : Name) : Refspec → Name → Prop
  | exact forced src dst _ _, x =>
    Fits fold dst.text ref ∧ (src.text ≠ [] ∧ x = src.text ∨ src.text = [] ∧ forced ∧ x = ['+'])
  | star _ srcBefore srcBehind dstBefore dstBehind _, x =>
    ∃ part, StandsIn fold dstBefore.text dstBehind.text ref part ∧
      x = srcBefore.text ++ part ++ srcBehind.text

/-- **What is recognized** — a refspec of a remote without a dot in its name, if it gives something;
anything else only if it happens to read like that. -/
def Entry.Recognized {fold : Char → Char} (ref : Name) : Entry fold → Name × Name → Prop
  | fetch remote spec, x =>
    if '.' ∈ remote.name then Recognizes fold ref (fetch remote spec : Entry fold).line x
    else x.1 = remote.name ∧ spec.Gives fold ref x.2
  | other line _, x => Recognizes fold ref line x

section

variable {fold : Char → Char} {ref refname line text src dst : Name} {x : Name × Name}
  {config : List (Entry fold)} {fullname : Name → Option Name}

/-! ### Reading a line -/

/-- **The two parts of a refspec** are what the regexp matches, up to the end of a line. -/
theorem refspecParts_eq_some_iff : refspecParts text = some (src, dst) ↔
    ∃ behind, text = src ++ ':' :: (dst ++ behind) ∧ (src ≠ [] ∧ ':' ∉ src) ∧ dst ≠ [] ∧
      '\n' ∉ dst ∧ ∀ c ∈ behind.head?, c = '\n' := by
  rw [refspecParts, Option.bind_eq_some_iff]
  constructor
  · rintro ⟨⟨src', rest⟩, hupTo, hdst⟩
    obtain ⟨rfl, hsrc⟩ := upTo_eq_some_iff.mp hupTo
    obtain ⟨hne, heq⟩ := Option.ite_none_left_eq_some.mp hdst
    obtain ⟨rfl, rfl⟩ := Prod.mk.inj (Option.some.inj heq)
    refine ⟨rest.dropWhile (· ≠ '\n'), by rw [List.takeWhile_append_dropWhile], hsrc, hne, ?_, ?_⟩
    · exact fun hmem => by simpa using List.mem_takeWhile_imp hmem
    · intro c hc
      have hhead := List.head?_dropWhile_not (· ≠ '\n') rest
      rw [Option.mem_def.mp hc] at hhead
      simpa using hhead
  · rintro ⟨behind, rfl, ⟨hne, hcolon⟩, hdst, hline, hbehind⟩
    refine ⟨_, upTo_append hne hcolon _, ?_⟩
    have hall : ∀ d ∈ dst, decide (d ≠ '\n') = true := fun d hd =>
      decide_eq_true fun heq => hline (heq ▸ hd)
    have htake : (dst ++ behind).takeWhile (· ≠ '\n') = dst := by
      rw [List.takeWhile_append_of_pos hall]
      cases behind with
      | nil => rw [List.takeWhile_nil, List.append_nil]
      | cons c behind =>
        rw [List.takeWhile_cons_of_neg (by simpa using hbehind c rfl), List.append_nil]
    dsimp only
    rw [htake, if_neg hdst]

/-- The plus is taken if what is behind it reads like a source and a destination. -/
theorem valueRead_iff {value : Name} :
    ((skip id ['+'] value).bind refspecParts).or (refspecParts value) = some (src, dst) ↔
      ValueRead value src dst := by
  have hskip : ∀ {rest : Name}, skip id ['+'] value = some rest ↔ value = '+' :: rest := by
    intro rest
    simp only [skip_eq_some_iff, List.map_id]
    constructor
    · rintro ⟨front, rfl, rfl⟩
      rfl
    · rintro rfl
      exact ⟨['+'], rfl, rfl⟩
  rw [Option.or_eq_some_iff, Option.bind_eq_some_iff]
  constructor
  · rintro (⟨rest, hplus, hparts⟩ | ⟨hnone, hparts⟩)
    · obtain ⟨behind, rfl, hread⟩ := refspecParts_eq_some_iff.mp hparts
      exact ⟨['+'], behind, hskip.mp hplus, .inl rfl, hread⟩
    · obtain ⟨behind, rfl, ⟨hne, hcolon⟩, hread⟩ := refspecParts_eq_some_iff.mp hparts
      refine ⟨[], behind, rfl, .inr ⟨rfl, fun hhead => ?_⟩, ⟨hne, hcolon⟩, hread⟩
      obtain ⟨c, src, rfl⟩ := List.exists_cons_of_ne_nil hne
      obtain rfl := Option.some.inj hhead
      by_contra hmore
      have hsrc : src ≠ [] := fun hnil => hmore (congrArg (List.cons '+') hnil)
      have htaken : skip id ['+'] ('+' :: src ++ ':' :: (dst ++ behind))
          = some (src ++ ':' :: (dst ++ behind)) := hskip.mpr rfl
      rw [htaken, Option.bind_some, refspecParts_eq_some_iff.mpr
        ⟨behind, rfl, ⟨hsrc, fun h => hcolon (List.mem_cons_of_mem _ h)⟩, hread⟩] at hnone
      cases hnone
  · rintro ⟨plus, behind, rfl, rfl | ⟨rfl, hplus⟩, hread⟩
    · exact .inl ⟨_, hskip.mpr rfl, refspecParts_eq_some_iff.mpr ⟨behind, rfl, hread⟩⟩
    · refine .inr ⟨?_, refspecParts_eq_some_iff.mpr ⟨behind, rfl, hread⟩⟩
      refine Option.eq_none_iff_forall_ne_some.mpr fun way hway => ?_
      obtain ⟨rest, hrest, hparts⟩ := Option.bind_eq_some_iff.mp hway
      obtain ⟨c, src, rfl⟩ := List.exists_cons_of_ne_nil hread.1.1
      have heq := hskip.mp hrest
      rw [List.nil_append, List.cons_append] at heq
      obtain ⟨hc, hrest⟩ := List.cons.inj heq
      have hsrc := (List.cons.inj (hplus (congrArg some hc))).2
      -- there is no source behind the plus
      obtain ⟨_, htext, ⟨hne, hcolon⟩, -⟩ := refspecParts_eq_some_iff.mp hparts
      obtain ⟨d, src', hsrc'⟩ := List.exists_cons_of_ne_nil hne
      rw [← hrest, hsrc, hsrc', List.nil_append, List.cons_append] at htext
      rw [hsrc', ← (List.cons.inj htext).1] at hcolon
      exact hcolon List.mem_cons_self

/-- The regexp reads a line exactly as `LineRead` says. -/
theorem lineRead_iff {remote : Name} :
    fetchParts fold line = some (remote, src, dst) ↔ LineRead fold line remote src dst := by
  rw [fetchParts, Option.bind_eq_some_iff]
  constructor
  · rintro ⟨text, hsection, hparts⟩
    obtain ⟨⟨remote', text'⟩, hremote, hparts⟩ := Option.bind_eq_some_iff.mp hparts
    obtain ⟨value, hkey, hparts⟩ := Option.bind_eq_some_iff.mp hparts
    obtain ⟨parts, hvalue, heq⟩ := Option.map_eq_some_iff.mp hparts
    obtain ⟨rfl, rfl⟩ := Prod.mk.inj heq
    obtain ⟨front, rfl, hfront⟩ := skip_eq_some_iff.mp hsection
    obtain ⟨rfl, hname⟩ := upTo_eq_some_iff.mp hremote
    obtain ⟨key, rfl, hkey'⟩ := skip_eq_some_iff.mp hkey
    exact ⟨front, key, value, rfl, hfront, hkey', hname, valueRead_iff.mp hvalue⟩
  · rintro ⟨front, key, value, rfl, hfront, hkey, ⟨hne, hdot⟩, hvalue⟩
    refine ⟨_, skip_eq_some_iff.mpr ⟨front, rfl, hfront⟩, Option.bind_eq_some_iff.mpr
      ⟨_, upTo_append hne hdot _, Option.bind_eq_some_iff.mpr
        ⟨value, skip_eq_some_iff.mpr ⟨key, rfl, hkey⟩, ?_⟩⟩⟩
    rw [valueRead_iff.mpr hvalue, Option.map_some]

/-! ### What a line says -/

/-- There is one first asterisk only. -/
theorem append_cons_inj {c : Char} {before before' behind behind' : Name} (h : c ∉ before)
    (h' : c ∉ before') (heq : before ++ c :: behind = before' ++ c :: behind') :
    before = before' ∧ behind = behind' := by
  induction before generalizing before' with
  | nil =>
    cases before' with
    | nil => exact ⟨rfl, (List.cons.inj heq).2⟩
    | cons d before' => exact absurd (List.cons.inj heq).1 (List.ne_of_not_mem_cons h')
  | cons d before ih =>
    cases before' with
    | nil => exact absurd (List.cons.inj heq).1.symm (List.ne_of_not_mem_cons h)
    | cons e before' =>
      obtain ⟨rfl, htail⟩ := List.cons.inj heq
      obtain ⟨rfl, rfl⟩ :=
        ih (List.not_mem_of_not_mem_cons h) (List.not_mem_of_not_mem_cons h') htail
      exact ⟨rfl, rfl⟩

/-- A destination without a star fits the references that it spells. -/
theorem dstFits_of_not_mem {part : Name} (hstar : '*' ∉ dst) :
    DstFits fold dst ref part ↔ Fits fold dst ref ∧ part = [] := by
  refine or_iff_left (fun h => ?_) |>.trans (and_iff_right hstar)
  obtain ⟨before, behind, heq, -⟩ := h
  exact hstar (heq ▸ List.mem_append_right _ List.mem_cons_self)

/-- A destination with a star fits the references that have something in its place. -/
theorem dstFits_star {before behind part : Name} (hbefore : '*' ∉ before) :
    DstFits fold (before ++ '*' :: behind) ref part ↔ StandsIn fold before behind ref part := by
  constructor
  · rintro (⟨hwithout, -⟩ | ⟨before', behind', heq, hbefore', hstands⟩)
    · exact absurd (List.mem_append_right _ List.mem_cons_self) hwithout
    · obtain ⟨rfl, rfl⟩ := append_cons_inj hbefore hbefore' heq
      exact hstands
  · exact fun hstands => .inr ⟨_, _, rfl, hbefore, hstands⟩

/-- The destination, as an expression. -/
theorem dstFits_iff {part : Name} :
    (∃ g, (Piece.sequence (unquoted fold 1 none dst)).matchWhole ref = some g ∧
      (g 1).getD [] = part) ↔ DstFits fold dst ref part := by
  have hgroup : (∃ g, (Piece.sequence (unquoted fold 1 none dst)).matchWhole ref = some g ∧
      (g 1).getD [] = part) ↔ ∃ o : Option Name, o.getD [] = part ∧
        ∃ g, (Piece.sequence (unquoted fold 1 none dst)).matchWhole ref = some g ∧ g 1 = o := by
    constructor
    · rintro ⟨g, hg, hpart⟩
      exact ⟨g 1, hpart, g, hg, rfl⟩
    · rintro ⟨_, hpart, g, hg, rfl⟩
      exact ⟨g, hg, hpart⟩
  rw [hgroup]
  by_cases hstar : '*' ∈ dst
  · obtain ⟨before, behind, rfl, hbefore⟩ := List.eq_append_cons_of_mem hstar
    simp only [matchWhole_star hbefore, dstFits_star hbefore]
    constructor
    · rintro ⟨_, rfl, part, rfl, hstands⟩
      exact hstands
    · exact fun hstands => ⟨some part, rfl, part, rfl, hstands⟩
  · simp only [matchWhole_of_not_mem hstar, dstFits_of_not_mem hstar]
    constructor
    · rintro ⟨_, rfl, rfl, hfits⟩
      exact ⟨hfits, rfl⟩
    · rintro ⟨hfits, rfl⟩
      exact ⟨none, rfl, rfl, hfits⟩

/-- **A line tracks a reference** exactly if it recognizes it. -/
theorem trackedBy_eq_some_iff :
    trackedBy fold ref line = some x ↔ Recognizes fold ref line x := by
  rw [trackedBy, Option.bind_eq_some_iff]
  constructor
  · rintro ⟨⟨remote, source, dst⟩, hparts, hmatch⟩
    obtain ⟨g, hg, rfl⟩ := Option.map_eq_some_iff.mp hmatch
    exact ⟨source, dst, _, lineRead_iff.mp hparts, dstFits_iff.mp ⟨g, hg, rfl⟩, rfl⟩
  · rintro ⟨source, dst, part, hread, hfits, hx⟩
    obtain ⟨g, hg, rfl⟩ := dstFits_iff.mpr hfits
    exact ⟨_, lineRead_iff.mpr hread, Option.map_eq_some_iff.mpr ⟨g, hg, Prod.ext rfl hx.symm⟩⟩

/-! ### What an entry says -/

theorem Part.not_mem (part : Part) {c : Char} (hc : c ∈ refused) : c ∉ part.text :=
  fun hmem => part.allowed c hmem hc

/-- The line of a `fetch` entry: the remote, and the parts of its refspec, with or without its plus
sign. -/
theorem fetchParts_fetch {remote : RemoteName} {spec : Refspec} (hdot : '.' ∉ remote.name) :
    fetchParts fold (Entry.fetch remote spec : Entry fold).line =
      (((skip id ['+'] spec.value).bind refspecParts).or (refspecParts spec.value)).map
        (remote.name, ·) := by
  unfold fetchParts Entry.line
  generalize "remote.".toList = start
  generalize "fetch=".toList = key
  rw [skip_append, Option.bind_some, upTo_append remote.ne_nil hdot, Option.bind_some]
  dsimp only
  rw [skip_append, Option.bind_some]

/-- The line of a `fetch` entry is read as its remote and what its value is read as. -/
theorem lineRead_fetch {remote : RemoteName} {spec : Refspec} {r : Name}
    (hdot : '.' ∉ remote.name) :
    LineRead fold (Entry.fetch remote spec : Entry fold).line r src dst ↔
      r = remote.name ∧ ValueRead spec.value src dst := by
  rw [← lineRead_iff, fetchParts_fetch hdot, Option.map_eq_some_iff]
  constructor
  · rintro ⟨parts, hparts, heq⟩
    obtain ⟨rfl, rfl⟩ := Prod.mk.inj heq
    exact ⟨rfl, valueRead_iff.mp hparts⟩
  · rintro ⟨rfl, hvalue⟩
    exact ⟨(src, dst), valueRead_iff.mpr hvalue, rfl⟩

/-- A refspec's value is read as its two sides, unless the source is empty. -/
theorem valueRead_sides {forced : Bool} {source dest : Name} (hcolon : ':' ∉ src)
    (hplus : forced = false → src.head? ≠ some '+') (hne : dst ≠ []) (hline : '
' ∉ dst) :
    ValueRead ((if forced then ['+'] else []) ++ (src ++ ':' :: dst)) source dest ↔
      dest = dst ∧ (src ≠ [] ∧ source = src ∨ src = [] ∧ forced ∧ source = ['+']) := by
  have hparts : ∀ {text : Name}, text ≠ [] → ':' ∉ text →
      refspecParts (text ++ ':' :: dst) = some (text, dst) := fun htext hmem =>
    refspecParts_eq_some_iff.mpr ⟨[], by rw [List.append_nil], ⟨htext, hmem⟩, hne, hline, by simp⟩
  have hnil : refspecParts ([] ++ ':' :: dst) = none := by
    simp [refspecParts, upTo]
  have hskip : (skip id ['+'] (src ++ ':' :: dst)).bind refspecParts = none ∨ forced = true := by
    cases forced with
    | true => exact .inr rfl
    | false =>
      refine .inl (Option.bind_eq_none_iff.mpr fun rest hrest => ?_)
      obtain ⟨front, htext, hfront⟩ := skip_eq_some_iff.mp hrest
      rw [List.map_id, List.map_id] at hfront
      subst hfront
      cases src with
      | nil => cases htext
      | cons c src => exact absurd (congrArg some (List.cons.inj htext).1) (hplus rfl)
  rw [← valueRead_iff]
  cases forced with
  | true =>
    rw [if_pos rfl, skip_append, Option.bind_some]
    by_cases hsrc : src = []
    · have htaken : refspecParts (['+'] ++ ([] ++ ':' :: dst)) = some (['+'], dst) :=
        hparts (List.cons_ne_nil _ _) (by decide)
      rw [hsrc, hnil, Option.none_or, htaken]
      simp [eq_comm, and_comm]
    · rw [hparts hsrc hcolon, Option.some_or]
      simp [hsrc, eq_comm, and_comm]
  | false =>
    have hskip := hskip.resolve_right Bool.false_ne_true
    rw [if_neg Bool.false_ne_true, List.nil_append, hskip, Option.none_or]
    by_cases hsrc : src = []
    · rw [hsrc, hnil]
      simp
    · rw [hparts hsrc hcolon]
      simp [hsrc, eq_comm, and_comm]

theorem replaceWildcard_append (part text text' : Name) :
    replaceWildcard part (text ++ text') = replaceWildcard part text ++ replaceWildcard part text' :=
  List.flatMap_append

/-- A text without a star is left as it is. -/
theorem replaceWildcard_of_not_mem (part : Name) (h : '*' ∉ text) :
    replaceWildcard part text = text := by
  induction text with
  | nil => rfl
  | cons c text ih =>
    obtain ⟨hc, h⟩ := List.ne_and_not_mem_of_not_mem_cons h
    rw [replaceWildcard, List.flatMap_cons, if_neg (Ne.symm hc)]
    exact congrArg (c :: ·) (ih h)

/-- The one star of a text is replaced. -/
theorem replaceWildcard_star (part : Name) {before behind : Name} (hbefore : '*' ∉ before)
    (hbehind : '*' ∉ behind) :
    replaceWildcard part (before ++ '*' :: behind) = before ++ part ++ behind := by
  rw [replaceWildcard_append, replaceWildcard_of_not_mem part hbefore, replaceWildcard,
    List.flatMap_cons, if_pos rfl, List.append_assoc]
  exact congrArg (fun text => before ++ (part ++ text)) (replaceWildcard_of_not_mem part hbehind)

/-- Refspecs of a remote without a dot in its name. -/
theorem recognizes_fetch {remote : RemoteName} {spec : Refspec} (hdot : '.' ∉ remote.name) :
    Recognizes fold ref (Entry.fetch remote spec : Entry fold).line x ↔
      x.1 = remote.name ∧ spec.Gives fold ref x.2 := by
  unfold Recognizes
  simp only [lineRead_fetch hdot]
  cases spec with
  | exact forced src dst plus ne_nil =>
    have hvalue : ∀ {source dest : Name}, ValueRead (Refspec.exact forced src dst plus ne_nil).value
        source dest ↔ _ := valueRead_sides (src.not_mem (by decide)) plus ne_nil
      (dst.not_mem (by decide))
    have hsource : ∀ {source : Name},
        (src.text ≠ [] ∧ source = src.text ∨ src.text = [] ∧ forced ∧ source = ['+']) →
        replaceWildcard [] source = source := by
      rintro source (⟨-, rfl⟩ | ⟨-, -, rfl⟩)
      · exact replaceWildcard_of_not_mem [] (src.not_mem (by decide))
      · rfl
    simp only [hvalue]
    constructor
    · rintro ⟨source, _, _, ⟨hremote, rfl, hside⟩, hdst, hx⟩
      obtain ⟨hfits, rfl⟩ := (dstFits_of_not_mem (dst.not_mem (by decide))).mp hdst
      rw [hsource hside] at hx
      exact ⟨hremote, hfits, hx ▸ hside⟩
    · rintro ⟨hremote, hfits, hside⟩
      exact ⟨x.2, dst.text, [], ⟨hremote, rfl, hside⟩,
        (dstFits_of_not_mem (dst.not_mem (by decide))).mpr ⟨hfits, rfl⟩, (hsource hside).symm⟩
  | star forced srcBefore srcBehind dstBefore dstBehind plus =>
    have hvalue : ∀ {source dest : Name},
        ValueRead (Refspec.star forced srcBefore srcBehind dstBefore dstBehind plus).value
          source dest ↔ dest = dstBefore.text ++ '*' :: dstBehind.text ∧
            source = srcBefore.text ++ '*' :: srcBehind.text := by
      intro source dest
      refine (valueRead_sides ?_ ?_ ?_ ?_).trans (and_congr_right fun _ => ?_)
      · simp [srcBefore.not_mem (c := ':') (by decide), srcBehind.not_mem (c := ':') (by decide)]
      · intro hforced hhead
        cases hbefore : srcBefore.text with
        | nil => simp [hbefore] at hhead
        | cons c text => exact plus hforced (by simpa [hbefore] using hhead)
      · simp
      · simp [dstBefore.not_mem (c := '
') (by decide), dstBehind.not_mem (c := '
') (by decide)]
      · simp
    have hsource := fun part : Name => replaceWildcard_star part (srcBefore.not_mem (by decide))
      (srcBehind.not_mem (by decide))
    simp only [hvalue]
    constructor
    · rintro ⟨_, _, part, ⟨hremote, rfl, rfl⟩, hdst, hx⟩
      exact ⟨hremote, part, (dstFits_star (dstBefore.not_mem (by decide))).mp hdst,
        hx.trans (hsource part)⟩
    · rintro ⟨hremote, part, hstands, hx⟩
      exact ⟨_, _, part, ⟨hremote, rfl, rfl⟩,
        (dstFits_star (dstBefore.not_mem (by decide))).mpr hstands, hx.trans (hsource part).symm⟩

/-- What an entry recognizes, said of its parts, is what its line recognizes. -/
theorem recognized_iff {e : Entry fold} : e.Recognized ref x ↔ Recognizes fold ref e.line x := by
  cases e with
  | fetch remote spec =>
    rw [Entry.Recognized]
    split
    · exact Iff.rfl
    · next hdot => exact (recognizes_fetch hdot).symm
  | other line _ => exact Iff.rfl

theorem trackedBy_eq_none_iff :
    trackedBy fold ref line = none ↔ ∀ x, ¬Recognizes fold ref line x := by
  rw [Option.eq_none_iff_forall_ne_some]
  exact forall_congr' fun x => not_congr trackedBy_eq_some_iff

/-! ### The first entry -/

/-- The first entry of which something holds. -/
def First {α β : Type*} (l : List α) (P : α → β → Prop) (y : β) : Prop :=
  ∃ before a after, l = before ++ a :: after ∧ P a y ∧ ∀ a' ∈ before, ∀ y', ¬P a' y'

/-- What `findSome?` returns is what the first element yields for which there is something. -/
theorem findSome?_iff_first {α β : Type*} {l : List α} {f : α → Option β} {P : α → β → Prop}
    (hf : ∀ a y, f a = some y ↔ P a y) {y : β} : l.findSome? f = some y ↔ First l P y := by
  rw [List.findSome?_eq_some_iff]
  constructor
  · rintro ⟨before, a, after, hl, ha, hbefore⟩
    refine ⟨before, a, after, hl, (hf a y).mp ha, fun a' ha' y' h => ?_⟩
    rw [← hf, hbefore a' ha'] at h
    cases h
  · rintro ⟨before, a, after, hl, ha, hbefore⟩
    refine ⟨before, a, after, hl, (hf a y).mpr ha, fun a' ha' => ?_⟩
    exact Option.eq_none_iff_forall_ne_some.mpr fun y' h => hbefore a' ha' y' ((hf a' y').mp h)

/-- What the code makes of an entry. -/
theorem trackedBy_line {e : Entry fold} :
    trackedBy fold ref e.line = some x ↔ e.Recognized ref x :=
  trackedBy_eq_some_iff.trans recognized_iff.symm

/-- **The first refspec whose destination is the ref** — `magit-get-tracked` returns its remote and
source, or nil if there is none, exactly if the first entry that is recognized gives the same as that
one, or there is neither. -/
theorem magitGetTracked_iff (hfullname : fullname refname = some ref) :
    magitGetTracked fold fullname (config.map Entry.line) refname
        = config.findSome? (Entry.target ref) ↔
      (∀ e ∈ config, e.target ref = none ∧ ∀ x, ¬e.Recognized ref x) ∨
      ∃ x, First config (fun e x => e.target ref = some x) x ∧
        First config (fun e x => e.Recognized ref x) x := by
  have htarget : ∀ {x : Name × Name}, config.findSome? (Entry.target ref) = some x ↔
      First config (fun e x => e.target ref = some x) x := findSome?_iff_first fun _ _ => Iff.rfl
  have hcode : ∀ {x : Name × Name}, config.findSome? (trackedBy fold ref ∘ Entry.line) = some x ↔
      First config (fun e x => e.Recognized ref x) x :=
    findSome?_iff_first fun _ _ => trackedBy_line
  have hnone : ∀ e : Entry fold, trackedBy fold ref e.line = none ↔ ∀ x, ¬e.Recognized ref x :=
    fun e => trackedBy_eq_none_iff.trans (forall_congr' fun x => not_congr recognized_iff.symm)
  rw [magitGetTracked, hfullname, Option.bind_some, List.findSome?_map]
  constructor
  · intro heq
    cases hx : config.findSome? (Entry.target ref) with
    | none =>
      rw [hx] at heq
      refine .inl fun e he => ⟨List.findSome?_eq_none_iff.mp hx e he, ?_⟩
      exact (hnone e).mp (List.findSome?_eq_none_iff.mp heq e he)
    | some x => exact .inr ⟨x, htarget.mp hx, hcode.mp (heq.trans hx)⟩
  · rintro (hneither | ⟨x, hfirst, hrecognized⟩)
    · rw [List.findSome?_eq_none_iff.mpr fun e he => (hneither e he).1]
      exact List.findSome?_eq_none_iff.mpr fun e he => (hnone e).mpr (hneither e he).2
    · rw [htarget.mpr hfirst, hcode.mpr hrecognized]

end

/-! ## Two remotes -/

theorem slash_allowed : '/' ∉ refused := by simp [refused, forbidden]

/-- `+refs/heads/*:refs/remotes/NAME/*`, in short. -/
def mirror (remote : RemoteName) (h : ∀ c ∈ remote.name, c ∉ refused) : Refspec :=
  .star true ⟨['h', '/'], by simp [refused, forbidden]⟩ ⟨[], List.forall_mem_nil _⟩
    ⟨'r' :: '/' :: remote.name ++ ['/'], by
      simp only [List.cons_append, List.forall_mem_cons, List.forall_mem_append]
      exact ⟨by simp [refused, forbidden], slash_allowed, h, slash_allowed, List.forall_mem_nil _⟩⟩
    ⟨[], List.forall_mem_nil _⟩ Bool.noConfusion

/-- A remote. -/
def up : RemoteName := ⟨['u', 'p'], by decide, by decide, by simp [forbidden]⟩

/-- Another one. -/
def origin : RemoteName := ⟨['o', 'r'], by decide, by decide, by simp [forbidden]⟩

/-- A remote whose name has a dot. -/
def dotted : RemoteName := ⟨['a', '.', 'b'], by decide, by decide, by simp [forbidden]⟩

theorem up_allowed : ∀ c ∈ up.name, c ∉ refused := by simp [up, refused, forbidden]

theorem origin_allowed : ∀ c ∈ origin.name, c ∉ refused := by simp [origin, refused, forbidden]

theorem dotted_allowed : ∀ c ∈ dotted.name, c ∉ refused := by simp [dotted, refused, forbidden]

/-- The line of the example has no name of a remote. -/
theorem not_lineRead {remote src dst : Name} :
    ¬LineRead Char.toLower ['u', '=', 'a', ':', 'b'] remote src dst := by
  intro hread
  have hnone : fetchParts Char.toLower ['u', '=', 'a', ':', 'b'] = none := rfl
  cases hnone.symm.trans (lineRead_iff.mpr hread)

/-- The first refspec of a remote is for one branch only, and what follows is no refspec. -/
def twoRemotes : List (Entry Char.toLower) :=
  [.fetch up (.exact false ⟨['h', '/', 'x'], by simp [refused, forbidden]⟩
      ⟨['r', '/', 'x'], by simp [refused, forbidden]⟩ (by simp) (by simp)),
    .other ['u', '=', 'a', ':', 'b'] fun _ _ _ hread => absurd hread not_lineRead,
    .fetch up (mirror up up_allowed), .fetch origin (mirror origin origin_allowed)]

theorem magitGetTracked_iff_twoRemotes :
    magitGetTracked Char.toLower some (twoRemotes.map Entry.line) ['r', '/', 'o', 'r', '/', 'm']
      = some (['o', 'r'], ['h', '/', 'm']) := by
  refine ((magitGetTracked_iff rfl).mpr (.inr ⟨(['o', 'r'], ['h', '/', 'm']), ?_, ?_⟩)).trans rfl
  · exact (findSome?_iff_first fun _ _ => Iff.rfl).mp rfl
  · exact (findSome?_iff_first (f := trackedBy Char.toLower _ ∘ Entry.line) fun _ _ =>
      trackedBy_line).mp rfl

/-- A remote with a dot in its name. -/
theorem not_magitGetTracked :
    magitGetTracked Char.toLower some
        ([(.fetch dotted (mirror dotted dotted_allowed) : Entry Char.toLower)].map Entry.line)
        ['r', '/', 'a', '.', 'b', '/', 'm'] = none ∧
      [(.fetch dotted (mirror dotted dotted_allowed) : Entry Char.toLower)].findSome?
        (Entry.target ['r', '/', 'a', '.', 'b', '/', 'm'])
          = some (['a', '.', 'b'], ['h', '/', 'm']) := by
  constructor
  · rfl
  · rfl

end Magit.Tracked
