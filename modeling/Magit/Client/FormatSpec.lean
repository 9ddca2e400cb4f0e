import Magit.Emacs.Markers
import Magit.Emacs.WhileLoop

/-!
# Client/FormatSpec — substituting values in a format

`magit--format-spec` edits the format in a buffer.  What it has substituted is before point, and
what is behind point is still as the format has it (`run_segments`); so the result is that of
substituting the directives one by one (`magitFormatSpec_spec`).
-/

namespace Magit.FormatSpec

open Emacs

/-- A character of the flags, the width or the precision. -/
def numChar (c : Char) : Bool := c.isDigit || c == '-' || c == '.'

/-- The characters that `[a-zA-Z]` matches; others than the ASCII letters may be, with
`case-fold-search`. -/
structure Letters where
  letter : Char → Bool
  plain : ∀ c, letter c = true → numChar c = false ∧ c ≠ '%'

/-- `error` is called with a text, or `format` signals. -/
inductive FormatError
  | error (text : List Char)
  | conversion
  deriving DecidableEq

/-- The error for a character that the specification does not have. -/
def invalidFormatCharacter (c : Char) : FormatError :=
  .error ("Invalid format character: ".toList ++ ['\x60', '%', c, '\''])

/-- The error for a percent sign before neither a directive nor another one. -/
def invalidFormatString : FormatError := .error "Invalid format string".toList

/-! ## `format` -/

/-- The characters that fit into a number of columns. -/
def truncate (columns : Char → ℕ) : ℕ → List Char → List Char
  | _, [] => []
  | n, c :: text => if columns c ≤ n then c :: truncate columns (n - columns c) text else []

/-- The number a text of digits spells. -/
def digits (text : List Char) : ℕ := text.foldl (fun n c => 10 * n + (c.toNat - '0'.toNat)) 0

/-- `(format "%NUMs" val)`: flags, a width and a precision; none if it signals. -/
def format (columns : Char → ℕ) (num val : List Char) : Option (List Char) :=
  let flags := num.takeWhile fun c => c == '-' || c == '0'
  let rest := num.dropWhile fun c => c == '-' || c == '0'
  let width := digits (rest.takeWhile Char.isDigit)
  let precision := rest.dropWhile Char.isDigit
  let text := if precision = [] then val
    else truncate columns (digits ((precision.drop 1).takeWhile Char.isDigit)) val
  let padding := List.replicate (width - (text.map columns).sum) ' '
  if precision = [] ∨ (precision.head? = some '.' ∧ (precision.drop 1).all Char.isDigit) then
    some (if flags.contains '-' then text ++ padding else padding ++ text)
  else none

/-! ## The loop -/

/-- The buffer, and point. -/
structure Scan where
  text : List Char
  point : ℕ

/-- `(search-forward "%" nil t)` -/
def Scan.searchForward (s : Scan) : Option ℕ :=
  if (textFrom s.text s.point).contains '%' then
    some (s.point + ((textFrom s.text s.point).takeWhile (· ≠ '%')).length + 1)
  else none

/-- `(looking-at "\\([-0-9.]*\\)\\([a-zA-Z]\\)")` -/
def lookingAtDirective (l : Letters) (text : List Char) : Option (List Char × Char) :=
  (text.dropWhile numChar).head?.bind fun c =>
    if l.letter c then some (text.takeWhile numChar, c) else none

/-- The body of the loop, with point behind the percent sign. -/
def substitute (l : Letters) (columns : Char → ℕ) (table : List (Char × List Char))
    (text : List Char) (p : ℕ) : Except FormatError Scan :=
  if (textFrom text p).head? = some '%' then .ok ⟨deleteText text p (p + 1), p⟩
  else
    match lookingAtDirective l (textFrom text p) with
    | some d =>
      match table.lookup d.2 with
      | some val =>
        match format columns d.1 val with
        | some t =>
          let inserted := insertText text p t
          let body := deleteText inserted (p + t.length) (p + d.1.length + 1 + t.length)
          .ok ⟨deleteText body (p - 1) p, p + t.length - 1⟩
        | none => .error .conversion
      | none => .error (invalidFormatCharacter d.2)
    | none => .error invalidFormatString

/-- A round of the loop; nothing happens once no percent sign is left. -/
def Scan.round (l : Letters) (columns : Char → ℕ) (table : List (Char × List Char))
    (s : Scan) : Except FormatError Scan :=
  match s.searchForward with
  | some p => substitute l columns table s.text p
  | none => .ok s

/-- Another percent sign is found. -/
def searching : Except FormatError Scan → Bool
  | .ok s => s.searchForward.isSome
  | .error _ => false

/-- `magit--format-spec`, after a number of rounds. -/
def magitFormatSpec (l : Letters) (columns : Char → ℕ) (fuel : ℕ) (fmt : List Char)
    (table : List (Char × List Char)) : Option (Except FormatError (List Char)) :=
  (whileLoop searching (fun s => s.bind (Scan.round l columns table)) fuel (.ok ⟨fmt, 1⟩)).map
    fun s => s.map Scan.text

/-! ## Reading the format alone -/

/-- What a format is made of. -/
inductive Segment
  | char (c : Char)
  | percent
  | directive (num : List Char) (c : Char)

namespace Segment

/-- What stands in the format. -/
def source : Segment → List Char
  | char c => [c]
  | percent => ['%', '%']
  | directive num c => '%' :: num ++ [c]

/-- What stands for it in the result; none if it is not defined. -/
def value (columns : Char → ℕ) (table : List (Char × List Char)) : Segment → Option (List Char)
  | char c => some [c]
  | percent => some ['%']
  | directive num c => (table.lookup c).bind (format columns num)

/-- A character is no percent sign, and a directive has a letter behind its number. -/
def WellFormed (l : Letters) : Segment → Prop
  | char c => c ≠ '%'
  | percent => True
  | directive num c => num.all numChar = true ∧ l.letter c = true

end Segment

/-- The segments, each with its value. -/
def Reading (l : Letters) (columns : Char → ℕ) (table : List (Char × List Char))
    (segments : List (Segment × List Char)) : Prop :=
  ∀ s ∈ segments, s.1.WellFormed l ∧ s.1.value columns table = some s.2

/-- The format that the segments make. -/
def sources (segments : List (Segment × List Char)) : List Char :=
  segments.flatMap fun s => s.1.source

/-- The result that their values make. -/
def values (segments : List (Segment × List Char)) : List Char := segments.flatMap Prod.snd

/-- What is read next is malformed, or a directive that is not defined. -/
inductive Bad (l : Letters) (columns : Char → ℕ) (table : List (Char × List Char)) :
    FormatError → List Char → Prop
  | malformed (text : List Char) : text.head? ≠ some '%' → lookingAtDirective l text = none →
      Bad l columns table invalidFormatString ('%' :: text)
  | undefined (num : List Char) (c : Char) (text : List Char) : num.all numChar = true →
      l.letter c = true → table.lookup c = none →
      Bad l columns table (invalidFormatCharacter c) ('%' :: num ++ c :: text)
  | conversion (num : List Char) (c : Char) (val text : List Char) : num.all numChar = true →
      l.letter c = true → table.lookup c = some val → format columns num val = none →
      Bad l columns table .conversion ('%' :: num ++ c :: text)

section

variable {l : Letters} {columns : Char → ℕ} {table : List (Char × List Char)}
  {before lits rest num text t tail : List Char} {c : Char} {e : FormatError} {n : ℕ}
  {segments : List (Segment × List Char)}

@[simp] theorem sources_cons (s : Segment × List Char) :
    sources (s :: segments) = s.1.source ++ sources segments := List.flatMap_cons

@[simp] theorem values_nil : values [] = [] := rfl

@[simp] theorem values_cons (s : Segment × List Char) :
    values (s :: segments) = s.2 ++ values segments := List.flatMap_cons

/-! ## One round -/

/-- The search finds the next percent sign and ends behind it. -/
theorem searchForward_append (h : '%' ∉ lits) :
    (Scan.mk (before ++ lits ++ '%' :: rest) (before.length + 1)).searchForward
      = some ((before ++ lits).length + 2) := by
  have hfrom : textFrom (before ++ lits ++ '%' :: rest) (before.length + 1)
      = lits ++ '%' :: rest := by
    rw [textFrom, Nat.add_sub_cancel, List.append_assoc, List.drop_left]
  have hlits : ∀ c ∈ lits, decide (c ≠ '%') = true := fun c hc =>
    decide_eq_true fun heq => h (heq ▸ hc)
  have htake : (lits ++ '%' :: rest).takeWhile (· ≠ '%') = lits := by
    rw [List.takeWhile_append_of_pos hlits, List.takeWhile_cons_of_neg (by simp), List.append_nil]
  have hmem : (lits ++ '%' :: rest).contains '%' = true := by simp
  rw [Scan.searchForward]
  dsimp only
  rw [hfrom, hmem, if_pos rfl, htake, List.length_append]
  congr 1
  omega

/-- Without a percent sign the search fails. -/
theorem searchForward_none (h : '%' ∉ lits) :
    (Scan.mk (before ++ lits) (before.length + 1)).searchForward = none := by
  have hfrom : textFrom (before ++ lits) (before.length + 1) = lits := by
    rw [textFrom, Nat.add_sub_cancel, List.drop_left]
  rw [Scan.searchForward]
  dsimp only
  rw [hfrom, if_neg (by simpa using h)]

/-- The text behind a percent sign. -/
theorem textFrom_percent (before rest : List Char) :
    textFrom (before ++ '%' :: rest) (before.length + 2) = rest := by
  have hlen : before.length + 2 - 1 = (before ++ ['%']).length := by
    rw [List.length_append, List.length_singleton]
    rfl
  have htext : before ++ '%' :: rest = (before ++ ['%']) ++ rest := by
    rw [List.append_assoc]
    rfl
  rw [textFrom, hlen, htext, List.drop_left]

/-- A width and a letter are recognized behind the percent sign. -/
theorem lookingAtDirective_append (hnum : num.all numChar = true) (hc : l.letter c = true)
    (rest : List Char) : lookingAtDirective l (num ++ c :: rest) = some (num, c) := by
  have hall : ∀ d ∈ num, numChar d = true := List.all_eq_true.mp hnum
  have hstop : numChar c = false := (l.plain c hc).1
  have hdrop : (num ++ c :: rest).dropWhile numChar = c :: rest := by
    rw [List.dropWhile_append_of_pos hall, List.dropWhile_cons_of_neg (by simp [hstop])]
  have htake : (num ++ c :: rest).takeWhile numChar = num := by
    rw [List.takeWhile_append_of_pos hall, List.takeWhile_cons_of_neg (by simp [hstop]),
      List.append_nil]
  rw [lookingAtDirective, hdrop, htake, List.head?_cons, Option.bind_some, if_pos hc]

/-- A number and a letter are no second percent sign. -/
theorem head?_directive (hnum : num.all numChar = true) (hc : l.letter c = true)
    (rest : List Char) : (num ++ c :: rest).head? ≠ some '%' := by
  rcases num with _ | ⟨d, num⟩
  · exact fun heq => (l.plain c hc).2 (Option.some.inj heq)
  · intro heq
    obtain rfl : d = '%' := Option.some.inj heq
    rw [List.all_cons] at hnum
    exact absurd (Bool.and_eq_true_iff.mp hnum).1 (by decide)

/-- Two percent signs are replaced by one. -/
theorem substitute_percent :
    substitute l columns table (before ++ '%' :: '%' :: rest) (before.length + 2)
      = .ok ⟨before ++ ['%'] ++ rest, (before ++ ['%']).length + 1⟩ := by
  have htext : before ++ '%' :: '%' :: rest = (before ++ ['%']) ++ ['%'] ++ rest := by
    simp only [List.append_assoc, List.cons_append, List.nil_append]
  have hlen : before.length + 2 = (before ++ ['%']).length + 1 := by
    rw [List.length_append, List.length_singleton]
  rw [substitute, textFrom_percent, List.head?_cons, if_pos rfl, hlen,
    deleteText_append htext rfl (by rw [List.length_singleton])]

/-- A directive that the table has is replaced by its formatted value. -/
theorem substitute_directive {val : List Char} (hnum : num.all numChar = true)
    (hc : l.letter c = true) (hval : table.lookup c = some val)
    (ht : format columns num val = some t) :
    substitute l columns table (before ++ '%' :: (num ++ c :: rest)) (before.length + 2)
      = .ok ⟨before ++ t ++ rest, (before ++ t).length + 1⟩ := by
  have hpercent : before ++ '%' :: (num ++ c :: rest)
      = (before ++ ['%']) ++ (num ++ c :: rest) := by
    simp only [List.append_assoc, List.cons_append, List.nil_append]
  have hlen : before.length + 2 = (before ++ ['%']).length + 1 := by
    rw [List.length_append, List.length_singleton]
  have hinsert : insertText (before ++ '%' :: (num ++ c :: rest)) (before.length + 2) t
      = (before ++ ['%'] ++ t) ++ (num ++ [c]) ++ rest := by
    rw [insertText_append hpercent hlen]
    simp only [List.append_assoc, List.cons_append, List.nil_append]
  have hbody : deleteText ((before ++ ['%'] ++ t) ++ (num ++ [c]) ++ rest)
      (before.length + 2 + t.length) (before.length + 2 + num.length + 1 + t.length)
      = before ++ ['%'] ++ (t ++ rest) := by
    rw [deleteText_append rfl, List.append_assoc]
    · simp only [List.length_append, List.length_singleton]
      omega
    · simp only [List.length_append, List.length_singleton]
      omega
  have hsign : deleteText (before ++ ['%'] ++ (t ++ rest)) (before.length + 2 - 1)
      (before.length + 2) = before ++ t ++ rest := by
    refine (deleteText_append rfl rfl ?_).trans (List.append_assoc _ _ _).symm
    rw [List.length_singleton]
  have hpoint : before.length + 2 + t.length - 1 = (before ++ t).length + 1 := by
    rw [List.length_append]
    omega
  rw [substitute, textFrom_percent, if_neg (head?_directive hnum hc rest),
    lookingAtDirective_append hnum hc]
  dsimp only
  rw [hval]
  dsimp only
  rw [ht]
  dsimp only
  rw [hinsert, hbody, hsign, hpoint]

/-- What is bad signals its error. -/
theorem substitute_bad (before : List Char) (h : Bad l columns table e tail) :
    ∃ rest, tail = '%' :: rest ∧
      substitute l columns table (before ++ '%' :: rest) (before.length + 2) = .error e := by
  cases h with
  | malformed text hhead hnone =>
    refine ⟨text, rfl, ?_⟩
    rw [substitute, textFrom_percent, if_neg hhead, hnone]
  | undefined num c text hnum hc hnone =>
    refine ⟨num ++ c :: text, rfl, ?_⟩
    rw [substitute, textFrom_percent, if_neg (head?_directive hnum hc text),
      lookingAtDirective_append hnum hc]
    dsimp only
    rw [hnone]
  | conversion num c val text hnum hc hval hnone =>
    refine ⟨num ++ c :: text, rfl, ?_⟩
    rw [substitute, textFrom_percent, if_neg (head?_directive hnum hc text),
      lookingAtDirective_append hnum hc]
    dsimp only
    rw [hval]
    dsimp only
    rw [hnone]

/-! ## All rounds -/

/-- Another round, from the percent sign that is found. -/
theorem whileLoop_percent (h : '%' ∉ lits) :
    whileLoop searching (fun s => s.bind (Scan.round l columns table)) (n + 1)
        (.ok ⟨before ++ lits ++ '%' :: rest, before.length + 1⟩)
      = whileLoop searching (fun s => s.bind (Scan.round l columns table)) n
        (substitute l columns table (before ++ lits ++ '%' :: rest)
          ((before ++ lits).length + 2)) := by
  have hfound : (Scan.mk (before ++ lits ++ '%' :: rest) (before.length + 1)).searchForward
      = some ((before ++ lits).length + 2) := searchForward_append h
  have htest : searching (.ok ⟨before ++ lits ++ '%' :: rest, before.length + 1⟩) = true := by
    rw [searching, hfound, Option.isSome_some]
  have hround : Scan.round l columns table ⟨before ++ lits ++ '%' :: rest, before.length + 1⟩
      = substitute l columns table (before ++ lits ++ '%' :: rest)
        ((before ++ lits).length + 2) := by
    rw [Scan.round, hfound]
  rw [whileLoop_of_true htest]
  exact congrArg _ hround

/-- **The segments are replaced with their values**, and what is behind them is as it was. -/
theorem run_segments (before lits : List Char) (h : Reading l columns table segments)
    (hlits : '%' ∉ lits) :
    ∃ k before' lits', '%' ∉ lits' ∧ before' ++ lits' = before ++ lits ++ values segments ∧
      ∀ n rest, whileLoop searching (fun s => s.bind (Scan.round l columns table)) (n + k)
          (.ok ⟨before ++ lits ++ (sources segments ++ rest), before.length + 1⟩)
        = whileLoop searching (fun s => s.bind (Scan.round l columns table)) n
          (.ok ⟨before' ++ lits' ++ rest, before'.length + 1⟩) := by
  induction segments generalizing before lits with
  | nil =>
    refine ⟨0, before, lits, hlits, ?_, fun n rest => rfl⟩
    rw [values_nil, List.append_nil]
  | cons s segments ih =>
    obtain ⟨⟨hform, hvalue⟩, hrest⟩ := List.forall_mem_cons.mp h
    obtain ⟨segment, t⟩ := s
    dsimp only at hform hvalue
    -- a segment that takes a round
    have hround : ∀ body, segment.source = '%' :: body →
        (∀ before rest, substitute l columns table (before ++ '%' :: (body ++ rest))
          (before.length + 2) = .ok ⟨before ++ t ++ rest, (before ++ t).length + 1⟩) →
        ∃ k before' lits', '%' ∉ lits' ∧
          before' ++ lits' = before ++ lits ++ values ((segment, t) :: segments) ∧
          ∀ n rest, whileLoop searching (fun s => s.bind (Scan.round l columns table)) (n + k)
              (.ok ⟨before ++ lits ++ (sources ((segment, t) :: segments) ++ rest),
                before.length + 1⟩)
            = whileLoop searching (fun s => s.bind (Scan.round l columns table)) n
              (.ok ⟨before' ++ lits' ++ rest, before'.length + 1⟩) := by
      intro body hsource hbody
      obtain ⟨k, before', lits', hlits', htext, hrun⟩ :=
        ih (before ++ lits ++ t) [] hrest List.not_mem_nil
      refine ⟨k + 1, before', lits', hlits', ?_, fun n rest => ?_⟩
      · rw [htext, values_cons]
        simp only [List.append_assoc, List.nil_append]
      · have hstate : sources ((segment, t) :: segments) ++ rest
            = '%' :: (body ++ (sources segments ++ rest)) := by
          rw [sources_cons, hsource, List.append_assoc, List.cons_append]
        rw [hstate, ← Nat.add_assoc, whileLoop_percent hlits, hbody, ← hrun n rest,
          List.append_nil]
    cases segment with
    | char c =>
      have hc : '%' ∉ lits ++ [c] := by
        intro hmem
        rcases List.mem_append.mp hmem with hmem | hmem
        · exact hlits hmem
        · exact hform (List.mem_singleton.mp hmem).symm
      obtain rfl : [c] = t := Option.some.inj hvalue
      obtain ⟨k, before', lits', hlits', htext, hrun⟩ := ih before (lits ++ [c]) hrest hc
      refine ⟨k, before', lits', hlits', ?_, fun n rest => ?_⟩
      · rw [htext, values_cons]
        simp only [List.append_assoc]
      · rw [← hrun n rest, sources_cons]
        simp only [Segment.source, List.append_assoc]
    | percent =>
      obtain rfl : ['%'] = t := Option.some.inj hvalue
      exact hround ['%'] rfl fun before rest => substitute_percent
    | directive num c =>
      obtain ⟨val, hval, ht⟩ := Option.bind_eq_some_iff.mp hvalue
      refine hround (num ++ [c]) rfl fun before rest => ?_
      rw [List.append_assoc]
      exact substitute_directive hform.1 hform.2 hval ht

/-- Every format is read to its end, or to what is wrong with it. -/
theorem exists_reading (l : Letters) (columns : Char → ℕ) (table : List (Char × List Char))
    (fmt : List Char) : ∃ segments tail, fmt = sources segments ++ tail ∧
      Reading l columns table segments ∧ (tail = [] ∨ ∃ e, Bad l columns table e tail) := by
  induction hlen : fmt.length using Nat.strong_induction_on generalizing fmt with
  | _ m ih =>
    subst hlen
    -- a segment in front of what is read behind it
    have hcons : ∀ (segment : Segment) (t rest : List Char), fmt = segment.source ++ rest →
        segment.WellFormed l →
        segment.value columns table = some t → rest.length < fmt.length →
        ∃ segments tail, fmt = sources segments ++ tail ∧ Reading l columns table segments ∧
          (tail = [] ∨ ∃ e, Bad l columns table e tail) := by
      intro segment t rest hfmt hform hvalue hlt
      obtain ⟨segments, tail, hrest, hread, htail⟩ := ih _ hlt rest rfl
      refine ⟨(segment, t) :: segments, tail, ?_, ?_, htail⟩
      · rw [hfmt, hrest, sources_cons, List.append_assoc]
      · exact List.forall_mem_cons.mpr ⟨⟨hform, hvalue⟩, hread⟩
    have hend : ∀ e, Bad l columns table e fmt → ∃ segments tail, fmt = sources segments ++ tail ∧
        Reading l columns table segments ∧ (tail = [] ∨ ∃ e, Bad l columns table e tail) :=
      fun e hbad => ⟨[], fmt, rfl, fun s hs => absurd hs List.not_mem_nil, Or.inr ⟨e, hbad⟩⟩
    rcases fmt with _ | ⟨c, rest⟩
    · exact ⟨[], [], rfl, fun s hs => absurd hs List.not_mem_nil, Or.inl rfl⟩
    by_cases hc : c = '%'
    · subst hc
      by_cases hhead : rest.head? = some '%'
      · obtain ⟨rest', rfl⟩ := List.head?_eq_some_iff.mp hhead
        have hlt : rest'.length < ('%' :: '%' :: rest').length := by
          rw [List.length_cons, List.length_cons]
          omega
        exact hcons .percent ['%'] rest' rfl trivial rfl hlt
      rcases hdirective : lookingAtDirective l rest with _ | ⟨num, d⟩
      · exact hend _ (.malformed rest hhead hdirective)
      · obtain ⟨d', hd', hletter⟩ := Option.bind_eq_some_iff.mp hdirective
        split at hletter
        next hl =>
          obtain ⟨rfl, rfl⟩ := Prod.mk.inj (Option.some.inj hletter)
          obtain ⟨rest', hrest'⟩ := List.head?_eq_some_iff.mp hd'
          have hsplit : rest = rest.takeWhile numChar ++ d' :: rest' := by
            rw [← hrest', List.takeWhile_append_dropWhile]
          have hnum : (rest.takeWhile numChar).all numChar = true :=
            List.all_eq_true.mpr fun a ha => List.mem_takeWhile_imp ha
          rcases hval : table.lookup d' with _ | val
          · refine hend (invalidFormatCharacter d') ?_
            rw [hsplit]
            exact .undefined _ d' rest' hnum hl hval
          rcases ht : format columns (rest.takeWhile numChar) val with _ | t
          · refine hend .conversion ?_
            rw [hsplit]
            exact .conversion _ d' val rest' hnum hl hval ht
          · refine hcons (.directive (rest.takeWhile numChar) d') t rest' ?_ ⟨hnum, hl⟩ ?_ ?_
            · rw [Segment.source, List.append_assoc]
              exact congrArg ('%' :: ·) hsplit
            · rw [Segment.value, hval, Option.bind_some, ht]
            · have hlen := congrArg List.length hsplit
              rw [List.length_append, List.length_cons] at hlen
              rw [List.length_cons]
              omega
        · cases hletter
    · exact hcons (.char c) [c] rest rfl hc rfl (Nat.lt_succ_self rest.length)

/-- What the function returns, or signals, once it has read the format. -/
theorem magitFormatSpec_of_reading (h : Reading l columns table segments) :
    (∃ fuel, magitFormatSpec l columns fuel (sources segments) table
        = some (.ok (values segments))) ∧
      ∀ e tail, Bad l columns table e tail → ∃ fuel,
        magitFormatSpec l columns fuel (sources segments ++ tail) table = some (.error e) := by
  obtain ⟨k, before, lits, hlits, htext, hrun⟩ := run_segments [] [] h List.not_mem_nil
  have hstart : ∀ n rest, whileLoop searching (fun s => s.bind (Scan.round l columns table)) (n + k)
      (.ok ⟨sources segments ++ rest, 1⟩)
      = whileLoop searching (fun s => s.bind (Scan.round l columns table)) n
        (.ok ⟨before ++ lits ++ rest, before.length + 1⟩) := hrun
  constructor
  · have hstop : searching (.ok ⟨before ++ lits, before.length + 1⟩) = false := by
      rw [searching, searchForward_none hlits]
      rfl
    have hend := hstart 1 []
    rw [List.append_nil, List.append_nil, whileLoop_of_false hstop] at hend
    refine ⟨1 + k, ?_⟩
    rw [magitFormatSpec, hend, Option.map_some]
    exact congrArg (fun text => some (Except.ok text)) htext
  · intro e tail hbad
    obtain ⟨rest, rfl, hsubstitute⟩ := substitute_bad (before ++ lits) hbad
    refine ⟨2 + k, ?_⟩
    rw [magitFormatSpec, hstart, whileLoop_percent hlits, hsubstitute, whileLoop_of_false rfl]
    rfl

/-- Two runs come to the same. -/
theorem magitFormatSpec_unique {fuel fuel' : ℕ} {r r' : Except FormatError (List Char)}
    (h : magitFormatSpec l columns fuel text table = some r)
    (h' : magitFormatSpec l columns fuel' text table = some r') : r = r' := by
  obtain ⟨s, hs, rfl⟩ := Option.map_eq_some_iff.mp h
  obtain ⟨s', hs', rfl⟩ := Option.map_eq_some_iff.mp h'
  have hmax := whileLoop_mono hs (Nat.le_max_left fuel fuel')
  rw [whileLoop_mono hs' (Nat.le_max_right fuel fuel')] at hmax
  rw [Option.some.inj hmax]

/-- **The result is that of substituting the directives of the format alone**, from left to right;
and the function signals exactly where that finds a directive that is malformed or not defined. -/
theorem magitFormatSpec_spec (l : Letters) (columns : Char → ℕ) (table : List (Char × List Char))
    (fmt : List Char) :
    (∃ fuel r, magitFormatSpec l columns fuel fmt table = some r) ∧
    (∀ text, (∃ fuel, magitFormatSpec l columns fuel fmt table = some (.ok text)) ↔
      ∃ segments, fmt = sources segments ∧ Reading l columns table segments ∧
        text = values segments) ∧
    ∀ e, (∃ fuel, magitFormatSpec l columns fuel fmt table = some (.error e)) ↔
      ∃ segments tail, fmt = sources segments ++ tail ∧ Reading l columns table segments ∧
        Bad l columns table e tail := by
  obtain ⟨segments, tail, hfmt, hread, htail⟩ := exists_reading l columns table fmt
  obtain ⟨hok, herror⟩ := magitFormatSpec_of_reading hread
  rcases htail with rfl | ⟨e, hbad⟩
  · rw [List.append_nil] at hfmt
    subst hfmt
    obtain ⟨fuel, hfuel⟩ := hok
    refine ⟨⟨fuel, _, hfuel⟩, fun text => ⟨?_, ?_⟩, fun e => ⟨?_, ?_⟩⟩
    · rintro ⟨fuel', hfuel'⟩
      have hsame := magitFormatSpec_unique hfuel' hfuel
      exact ⟨segments, rfl, hread, Except.ok.inj hsame⟩
    · rintro ⟨segments', hfmt', hread', rfl⟩
      rw [hfmt']
      exact (magitFormatSpec_of_reading hread').1
    · rintro ⟨fuel', hfuel'⟩
      have hsame := magitFormatSpec_unique hfuel' hfuel
      cases hsame
    · rintro ⟨segments', tail, hfmt', hread', hbad⟩
      rw [hfmt']
      exact (magitFormatSpec_of_reading hread').2 e tail hbad
  · subst hfmt
    obtain ⟨fuel, hfuel⟩ := herror e tail hbad
    refine ⟨⟨fuel, _, hfuel⟩, fun text => ⟨?_, ?_⟩, fun e' => ⟨?_, ?_⟩⟩
    · rintro ⟨fuel', hfuel'⟩
      have hsame := magitFormatSpec_unique hfuel' hfuel
      cases hsame
    · rintro ⟨segments', hfmt', hread', rfl⟩
      rw [hfmt']
      exact (magitFormatSpec_of_reading hread').1
    · rintro ⟨fuel', hfuel'⟩
      have hsame := magitFormatSpec_unique hfuel' hfuel
      obtain rfl := Except.error.inj hsame
      exact ⟨segments, tail, rfl, hread, hbad⟩
    · rintro ⟨segments', tail', hfmt', hread', hbad'⟩
      rw [hfmt']
      exact (magitFormatSpec_of_reading hread').2 e' tail' hbad'

end

end Magit.FormatSpec
