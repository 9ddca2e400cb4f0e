import Magit.Diff.VisitOffset

/-!
# Diff/AdjustStarts — the new line numbers of hunks that are applied without those above them

`magit-apply--adjust-hunk-new-starts` shifts the hunks of a run by how far the two numbers in the
first header are apart.  The number of a side without lines is that of the line before it, so that
the numbers are one further apart, or one less, where one side of the first hunk has no lines; else
they are apart by what the hunks above insert (`adjustedExactly_iff`).
-/

namespace Magit.AdjustStarts

open Diff Emacs UnifiedDiff VisitOffset

/-! ## `magit-apply--adjust-hunk-new-starts` -/

/-- `\(?:,\([0-9]+\)\)?` at the front of a text: what follows it. -/
def behindCount (text : Text) : Text :=
  match literal ",".toList text with
  | none => text
  | some rest =>
    match number rest with
    | none => text
    | some (_, rest) => rest

/-- A match of `diff-hunk-header-re-unified`: the groups 1 and 3, with the text in front of the
latter and behind it. -/
structure HeaderMatch where
  front : Text
  oldStart : ℕ
  newStart : ℕ
  behind : Text

/-- `@@ -\([0-9]+\)\(?:,\([0-9]+\)\)? \+\([0-9]+\)\(?:,\([0-9]+\)\)? @@` at the front of a text. -/
def matchHeader (hunk : Text) : Option HeaderMatch := do
  let text ← literal "@@ -".toList hunk
  let (oldStart, text) ← number text
  let text ← literal " +".toList (behindCount text)
  let (newStart, behind) ← number text
  let _ ← literal " @@".toList (behindCount behind)
  some ⟨hunk.take (hunk.length - text.length), oldStart, newStart, behind⟩

/-- The first match behind a newline. -/
def searchHeader : Text → Option HeaderMatch
  | [] => none
  | c :: text =>
    let found :=
      if c = '\n' then (matchHeader text).or (searchHeader text) else searchHeader text
    found.map fun m => { m with front := c :: m.front }

/-- `(string-match diff-hunk-header-re-unified hunk)`. -/
def stringMatch (hunk : Text) : Option HeaderMatch := (matchHeader hunk).or (searchHeader hunk)

/-- `number-to-string`, in decimal. -/
def numberToString (n : ℤ) : Text :=
  if n < 0 then '-' :: Nat.toDigits 10 n.natAbs else Nat.toDigits 10 n.natAbs

/-- What is done to each hunk; `none` where an error is signaled. -/
def adjustHunk (offset : ℤ) (hunk : Text) : Option Text :=
  (stringMatch hunk).map fun m => m.front ++ (numberToString (m.newStart - offset) ++ m.behind)

/-- `magit-apply--adjust-hunk-new-starts`; none where it signals. -/
def magitApplyAdjustHunkNewStarts (hunks : List Text) : Option (List Text) :=
  match hunks with
  | [] => none
  | firstHunk :: _ =>
    match stringMatch firstHunk with
    | none => none
    | some m =>
      let offset : ℤ := m.newStart - m.oldStart
      if offset = 0 then some hunks else hunks.mapM (adjustHunk offset)

/-! ## The hunks of a run -/

/-- A hunk of a diff as it is given to be applied: all its lines, or what the region makes of
them. -/
structure GivenHunk where
  placed : PlacedHunk
  body : List (Line Content)
  fromLenShown : Bool
  toLenShown : Bool

namespace GivenHunk

variable (g : GivenHunk)

/-- The first number in the header of the hunk. -/
def oldStart : ℕ := beginning g.placed.before g.placed.hunk.fromLen

/-- The second number in the header of the hunk. -/
def newStart : ℕ := beginning g.placed.newBefore g.placed.hunk.toLen

/-- What stands in front of the new-start. -/
def front : Text :=
  "@@ -".toList ++ (Nat.toDigits 10 g.oldStart
    ++ (countText g.fromLenShown (oldSide g.body).length ++ " +".toList))

/-- What stands behind the new-start. -/
def behind : Text :=
  countText g.toLenShown (newSide g.body).length ++ (" @@".toList
    ++ (g.placed.hunk.heading ++ '\n' :: unlines (bodyLines g.body)))

/-- The text of the hunk with a new-start of its own. -/
def textAt (start : Text) : Text := g.front ++ (start ++ g.behind)

/-- The text of the hunk as it is shown. -/
def text : Text := g.textAt (Nat.toDigits 10 g.newStart)

end GivenHunk

/-- All lines of a hunk. -/
def whole (p : PlacedHunk) : GivenHunk where
  placed := p
  body := p.hunk.body
  fromLenShown := p.hunk.fromLenShown
  toLenShown := p.hunk.toLenShown

/-- The text of a whole hunk is its lines. -/
theorem text_whole (p : PlacedHunk) : (whole p).text = unlines p.lines := by
  simp only [whole, GivenHunk.text, GivenHunk.textAt, GivenHunk.front, GivenHunk.behind,
    GivenHunk.oldStart, GivenHunk.newStart, PlacedHunk.lines, PlacedHunk.header, unlines_cons,
    List.append_assoc]
  rfl

/-- The lines at which the new sides of hunks start, each in the file that has only the hunks
`done` before it applied. -/
def exactStarts (above : List DiffHunk) : List DiffHunk → List DiffHunk → List ℕ
  | _, [] => []
  | done, h :: hunks =>
    beginning (oldSide (hunksScript above) ++ newSide (hunksScript done) ++ h.gap).length h.toLen
      :: exactStarts above (done ++ [h]) hunks

/-- What is given to be applied of a diff, with the lines at which the new sides start if nothing
above is applied: hunks that follow one another, or a region of one. -/
inductive Run (d : TwoFileDiff) : List GivenHunk → List ℕ → Prop
  | hunks {above selected below : List DiffHunk} (h : d.hunks = above ++ (selected ++ below))
      (hselected : selected ≠ []) :
    Run d ((placeHunks (oldSide (hunksScript above)).length (newSide (hunksScript above)).length
        selected).map whole)
      (exactStarts above [] selected)
  | region {p : PlacedHunk} (hp : p ∈ d.placed) (op : LineKind)
      (marked : List (Line Content × Bool)) (hmarked : marked.map Prod.fst = p.hunk.body)
      (fromLenShown toLenShown : Bool) :
    Run d [⟨p, restrict op marked, fromLenShown, toLenShown⟩]
      [beginning p.before (newSide (restrict op marked)).length]

/-- The hunks of a run with their new-starts. -/
def textsAt (run : List GivenHunk) (starts : List ℕ) : List Text :=
  List.zipWith (fun g start => g.textAt (Nat.toDigits 10 start)) run starts

/-- The new-starts written are the lines at which the new sides start, and stay these. -/
def AdjustedExactly (run : List GivenHunk) (starts : List ℕ) : Prop :=
  magitApplyAdjustHunkNewStarts (run.map GivenHunk.text) = some (textsAt run starts)
    ∧ magitApplyAdjustHunkNewStarts (textsAt run starts) = some (textsAt run starts)

/-- The first hunk of a run adds to a side without lines only if it leaves it without. -/
def FirstSidesAlike (run : List GivenHunk) : Prop :=
  ∀ g ∈ run.head?, g.placed.hunk.fromLen = 0 ↔ (newSide g.body).length = 0

/-! ## Reading a header and writing it again -/

section

variable {piece : Text} {c : Char}

/-- What may follow a number: a count, or a piece that begins with no digit and no comma. -/
theorem number_countText (n : ℕ) (shown : Bool) (len : ℕ) (rest : Text)
    (hpiece : piece.head? = some c) (hdigit : c.isDigit = false) :
    number (Nat.toDigits 10 n ++ (countText shown len ++ (piece ++ rest)))
      = some (n, countText shown len ++ (piece ++ rest)) := by
  refine number_toDigits n fun c' hc' => ?_
  rw [countText] at hc'
  split_ifs at hc' with homitted
  · rw [List.nil_append, List.head?_append, hpiece] at hc'
    rw [← Option.some.inj hc', hdigit]
  · rw [← Option.some.inj hc']
    rfl

/-- A count is skipped whether it is shown or not. -/
theorem behindCount_countText (shown : Bool) (len : ℕ) (rest : Text)
    (hpiece : piece.head? = some c) (hdigit : c.isDigit = false) (hcomma : c ≠ ',') :
    behindCount (countText shown len ++ (piece ++ rest)) = piece ++ rest := by
  have hhead : (piece ++ rest).head? = some c := by rw [List.head?_append, hpiece]; rfl
  rw [behindCount, countText]
  split_ifs with homitted
  · have hnone : literal ",".toList (piece ++ rest) = none := by
      refine @literal_of_head ',' [] _ ?_
      rw [hhead]
      exact fun h => hcomma (Option.some.inj h)
    rw [List.nil_append, hnone]
  · have hsome : literal ",".toList (',' :: Nat.toDigits 10 len ++ (piece ++ rest))
        = some (Nat.toDigits 10 len ++ (piece ++ rest)) := literal_append [','] _
    rw [hsome]
    dsimp only
    rw [number_append len rest hpiece hdigit]

end

variable {g : GivenHunk}

/-- **A hunk's header is found**, and what stands around its new-start. -/
theorem stringMatch_textAt (n : ℕ) :
    stringMatch (g.textAt (Nat.toDigits 10 n)) = some ⟨g.front, g.oldStart, n, g.behind⟩ := by
  have hmatch : matchHeader (g.textAt (Nat.toDigits 10 n))
      = some ⟨g.front, g.oldStart, n, g.behind⟩ := by
    have hold := number_countText g.oldStart g.fromLenShown (oldSide g.body).length
      (Nat.toDigits 10 n ++ g.behind) (show " +".toList.head? = some ' ' from rfl) rfl
    have holdCount := behindCount_countText g.fromLenShown (oldSide g.body).length
      (Nat.toDigits 10 n ++ g.behind) (show " +".toList.head? = some ' ' from rfl) rfl (by decide)
    have hnew : number (Nat.toDigits 10 n ++ g.behind) = some (n, g.behind) :=
      number_countText n g.toLenShown (newSide g.body).length _
        (show " @@".toList.head? = some ' ' from rfl) rfl
    have hnewCount : behindCount g.behind = " @@".toList
        ++ (g.placed.hunk.heading ++ '\n' :: unlines (bodyLines g.body)) :=
      behindCount_countText g.toLenShown (newSide g.body).length _
        (show " @@".toList.head? = some ' ' from rfl) rfl (by decide)
    have htext : g.textAt (Nat.toDigits 10 n) = "@@ -".toList ++ (Nat.toDigits 10 g.oldStart
        ++ (countText g.fromLenShown (oldSide g.body).length ++ (" +".toList
          ++ (Nat.toDigits 10 n ++ g.behind)))) := by
      simp only [GivenHunk.textAt, GivenHunk.front, List.append_assoc]
    rw [matchHeader, htext, literal_append, Option.bind_eq_bind, Option.bind_some, hold,
      Option.bind_eq_bind, Option.bind_some]
    dsimp only
    rw [holdCount, literal_append, Option.bind_some, hnew, Option.bind_some]
    dsimp only
    rw [hnewCount, literal_append, Option.bind_some, ← htext, GivenHunk.textAt, List.length_append,
      Nat.add_sub_cancel, List.take_left]
  rw [stringMatch, hmatch, Option.some_or]

theorem numberToString_natCast (n : ℕ) : numberToString n = Nat.toDigits 10 n := by
  rw [numberToString, if_neg (by omega), Int.natAbs_natCast]

/-- **Adjusting a hunk** subtracts the offset from its new start. -/
theorem adjustHunk_textAt (offset : ℤ) (n : ℕ) :
    adjustHunk offset (g.textAt (Nat.toDigits 10 n))
      = some (g.textAt (numberToString (n - offset))) := by
  rw [adjustHunk, stringMatch_textAt]
  rfl

/-! ## Runs -/

variable {run : List GivenHunk} {starts exact : List ℕ}

/-- The hunks of a run with new-starts that are further up by `offset`. -/
def shifted (offset : ℤ) (run : List GivenHunk) (starts : List ℕ) : List Text :=
  List.zipWith (fun g start => g.textAt (numberToString (start - offset))) run starts

/-- Every hunk of a run is adjusted by the same offset. -/
theorem mapM_adjustHunk (offset : ℤ) (run : List GivenHunk) (starts : List ℕ) :
    (textsAt run starts).mapM (adjustHunk offset) = some (shifted offset run starts) := by
  induction run generalizing starts with
  | nil => rfl
  | cons g run ih =>
    cases starts with
    | nil => rfl
    | cons start starts =>
      rw [textsAt, List.zipWith_cons_cons, List.mapM_cons, adjustHunk_textAt]
      have hrest := ih starts
      rw [textsAt] at hrest
      rw [hrest]
      rfl

/-- Starts that are off by the same number are all corrected by it. -/
theorem shifted_eq_textsAt {c : ℤ}
    (h : starts.map (fun start : ℕ => (start : ℤ) - c) = exact.map Nat.cast) (run : List GivenHunk) :
    shifted c run starts = textsAt run exact := by
  have hshifted : shifted c run starts
      = List.zipWith (fun g z => g.textAt (numberToString z)) run
        (starts.map fun start : ℕ => (start : ℤ) - c) := by
    rw [List.zipWith_map_right]
    rfl
  rw [hshifted, h, List.zipWith_map_right]
  simp only [numberToString_natCast]
  rfl

theorem shifted_zero (run : List GivenHunk) (starts : List ℕ) :
    shifted 0 run starts = textsAt run starts :=
  shifted_eq_textsAt (List.map_congr_left fun start _ => sub_zero (start : ℤ)) run

/-- **The function shifts all hunks of a run by the same offset**, that of the first header. -/
theorem adjust_textsAt (g : GivenHunk) (run : List GivenHunk) (start : ℕ) (starts : List ℕ) :
    magitApplyAdjustHunkNewStarts (textsAt (g :: run) (start :: starts))
      = some (shifted (start - g.oldStart) (g :: run) (start :: starts)) := by
  have hmap := mapM_adjustHunk (start - g.oldStart) (g :: run) (start :: starts)
  rw [textsAt, List.zipWith_cons_cons] at hmap ⊢
  rw [magitApplyAdjustHunkNewStarts, stringMatch_textAt]
  dsimp only
  split_ifs with hzero
  · rw [hzero, shifted_zero]
    rfl
  · exact hmap

theorem map_text (run : List GivenHunk) :
    run.map GivenHunk.text = textsAt run (run.map GivenHunk.newStart) := by
  rw [textsAt, List.zipWith_map_right, List.zipWith_self]
  rfl

/-- What has been adjusted is not changed again. -/
theorem adjust_oldStart (g : GivenHunk) (texts : List Text) :
    magitApplyAdjustHunkNewStarts (g.textAt (Nat.toDigits 10 g.oldStart) :: texts)
      = some (g.textAt (Nat.toDigits 10 g.oldStart) :: texts) := by
  rw [magitApplyAdjustHunkNewStarts, stringMatch_textAt]
  exact if_pos (sub_self _)

/-- **Applying the function to its own output changes nothing.** -/
theorem adjust_idempotent (g : GivenHunk) (run : List GivenHunk) :
    ∃ out, magitApplyAdjustHunkNewStarts ((g :: run).map GivenHunk.text) = some out
      ∧ magitApplyAdjustHunkNewStarts out = some out := by
  refine ⟨_, (map_text (g :: run)).symm ▸ adjust_textsAt g run _ _, ?_⟩
  rw [shifted, List.zipWith_cons_cons, sub_sub_cancel, numberToString_natCast]
  exact adjust_oldStart g _

theorem textAt_inj {start start' : Text} : g.textAt start = g.textAt start' ↔ start = start' := by
  rw [GivenHunk.textAt, GivenHunk.textAt, List.append_right_inj, List.append_left_inj]

theorem toDigits_inj {m n : ℕ} : Nat.toDigits 10 m = Nat.toDigits 10 n ↔ m = n :=
  ⟨fun h => by rw [← Nat.ofDigitChars_ten_toDigits (n := m), h, Nat.ofDigitChars_ten_toDigits],
    congrArg _⟩

/-- A run whose new sides all have to start the same number of lines further up is adjusted
exactly if the first of them has to start where its old side does. -/
theorem adjustedExactly_iff_oldStart {g : GivenHunk} {c : ℤ} {start : ℕ}
    (h : ((g :: run).map GivenHunk.newStart).map (fun start : ℕ => (start : ℤ) - c)
      = (start :: exact).map Nat.cast) :
    AdjustedExactly (g :: run) (start :: exact) ↔ g.oldStart = start := by
  have hfirst : (g.newStart : ℤ) - c = start := (List.cons.inj h).1
  rw [AdjustedExactly, map_text, List.map_cons, adjust_textsAt]
  constructor
  · rintro ⟨hadjusted, -⟩
    rw [Option.some.injEq, shifted, textsAt, List.zipWith_cons_cons, List.zipWith_cons_cons,
      sub_sub_cancel, numberToString_natCast, List.cons.injEq, textAt_inj, toDigits_inj]
      at hadjusted
    exact hadjusted.1
  · intro hold
    have hoffset : (g.newStart : ℤ) - g.oldStart = c := by omega
    refine ⟨congrArg some ?_, ?_⟩
    · rw [hoffset]
      exact shifted_eq_textsAt h _
    · rw [textsAt, List.zipWith_cons_cons, ← hold]
      exact adjust_oldStart g _

/-! ## Where the new sides start -/

theorem length_newSide_contextLines (lines : List Content) :
    (newSide (contextLines lines)).length = lines.length := by
  induction lines with
  | nil => rfl
  | cons line lines ih => exact congrArg (· + 1) ih

/-- How many lines the first hunk adds to either side. -/
theorem length_sides_hunksScript (h : DiffHunk) (hunks : List DiffHunk) :
    (oldSide (hunksScript (h :: hunks))).length
        = h.gap.length + h.fromLen + (oldSide (hunksScript hunks)).length
      ∧ (newSide (hunksScript (h :: hunks))).length
        = h.gap.length + h.toLen + (newSide (hunksScript hunks)).length := by
  rw [hunksScript_cons]
  simp only [oldSide, newSide, List.filterMap_append, List.length_append, ← Nat.add_assoc]
  exact ⟨congrArg (· + _ + _) (length_oldSide_contextLines _),
    congrArg (· + _ + _) (length_newSide_contextLines _)⟩

/-- The hunks of a run are placed where they are in the diff. -/
theorem placeHunks_append (before newBefore : ℕ) (above hunks : List DiffHunk) :
    placeHunks before newBefore (above ++ hunks)
      = placeHunks before newBefore above
        ++ placeHunks (before + (oldSide (hunksScript above)).length)
          (newBefore + (newSide (hunksScript above)).length) hunks := by
  induction above generalizing before newBefore with
  | nil => rfl
  | cons h above ih =>
    obtain ⟨hold, hnew⟩ := length_sides_hunksScript h above
    rw [List.cons_append, placeHunks, placeHunks, ih, hold, hnew, List.cons_append]
    simp only [Nat.add_assoc]

/-- How many lines one more hunk adds to the new side. -/
theorem newSide_hunksScript_append (done : List DiffHunk) (h : DiffHunk) :
    (newSide (hunksScript (done ++ [h]))).length
      = (newSide (hunksScript done)).length + h.gap.length + h.toLen := by
  have hlast := (length_sides_hunksScript h []).2
  simp only [hunksScript, newSide, List.flatMap_append, List.filterMap_append, List.length_append,
    List.flatMap_nil, List.filterMap_nil, List.length_nil, Nat.add_zero] at hlast ⊢
  omega

theorem beginning_sub {b b' : ℕ} {c : ℤ} (h : (b : ℤ) - c = b') (len : ℕ) :
    (beginning b len : ℤ) - c = beginning b' len := by
  rw [beginning, beginning]
  split_ifs <;> omega

/-- **Without the hunks above, all new sides of a run start further up by what these insert.** -/
theorem newStart_sub {above done selected : List DiffHunk} {before newBefore : ℕ} {c : ℤ}
    (h : (newBefore : ℤ) - c
      = (oldSide (hunksScript above)).length + (newSide (hunksScript done)).length) :
    (((placeHunks before newBefore selected).map whole).map GivenHunk.newStart).map
        (fun start : ℕ => (start : ℤ) - c)
      = (exactStarts above done selected).map Nat.cast := by
  induction selected generalizing before newBefore done with
  | nil => rfl
  | cons hunk selected ih =>
    have hnext := newSide_hunksScript_append done hunk
    rw [placeHunks, exactStarts, List.map_cons, List.map_cons, List.map_cons, List.map_cons,
      @ih (done ++ [hunk]) _ _ (by omega)]
    refine congrArg (· :: _) (beginning_sub ?_ _)
    simp only [whole, List.length_append]
    omega

theorem beginning_inj {before len len' : ℕ} :
    beginning before len = beginning before len' ↔ (len = 0 ↔ len' = 0) := by
  rw [beginning, beginning]
  split_ifs <;> simp [*]

/-- **The new-starts are exact where both sides of the first hunk have lines**, or neither. -/
theorem adjustedExactly_iff {d : TwoFileDiff} {run : List GivenHunk} {exact : List ℕ}
    (h : Run d run exact) : AdjustedExactly run exact ↔ FirstSidesAlike run := by
  cases h with
  | @hunks above selected below h hselected =>
    obtain ⟨hunk, selected, rfl⟩ := List.exists_cons_of_ne_nil hselected
    have hexact := @newStart_sub above [] (hunk :: selected)
      (oldSide (hunksScript above)).length (newSide (hunksScript above)).length
      ((newSide (hunksScript above)).length - (oldSide (hunksScript above)).length)
      (by simp [hunksScript, newSide])
    rw [placeHunks, exactStarts, List.map_cons] at hexact ⊢
    rw [adjustedExactly_iff_oldStart hexact, FirstSidesAlike]
    simp only [List.head?_cons, Option.mem_def, Option.some.injEq, forall_eq']
    have hfront : (oldSide (hunksScript above) ++ newSide (hunksScript []) ++ hunk.gap).length
        = (oldSide (hunksScript above)).length + hunk.gap.length := by
      simp [hunksScript, newSide]
    rw [hfront]
    exact beginning_inj
  | @region p hp op marked hmarked fromLenShown toLenShown =>
    set g : GivenHunk := ⟨p, restrict op marked, fromLenShown, toLenShown⟩ with hg
    have hexact : ([g].map GivenHunk.newStart).map
        (fun start : ℕ => (start : ℤ)
          - (g.newStart - (beginning p.before (newSide (restrict op marked)).length : ℤ)))
        = [beginning p.before (newSide (restrict op marked)).length].map Nat.cast := by simp
    rw [adjustedExactly_iff_oldStart hexact, FirstSidesAlike]
    simp only [List.head?_cons, Option.mem_def, Option.some.injEq, forall_eq']
    exact beginning_inj

theorem newFileLine_line :
    ∀ l ∈ [(⟨.added, "a".toList, false⟩ : Line Content)], '\n' ∉ l.content.text := by
  rintro _ hl
  rw [List.mem_singleton.mp hl]
  decide

/-- A file of one line is new. -/
def newFileHunk : DiffHunk where
  gap := []
  body := [⟨.added, "a".toList, false⟩]
  fromLenShown := true
  toLenShown := true
  heading := []
  body_line := newFileLine_line
  heading_line := List.not_mem_nil

/-- The diff that adds it. -/
def newFileDiff : TwoFileDiff where
  preamble := []
  hunks := [newFileHunk]
  tail := []
  preamble_line := by decide

theorem run_newFile : Run newFileDiff [whole ⟨newFileHunk, 0, 0⟩] [1] :=
  @Run.hunks newFileDiff [] [newFileHunk] [] rfl (by simp)

theorem adjustedExactly_iff_newFile :
    AdjustedExactly [whole ⟨newFileHunk, 0, 0⟩] [1]
      ↔ FirstSidesAlike [whole ⟨newFileHunk, 0, 0⟩] :=
  adjustedExactly_iff run_newFile

/-- Its header `@@ -0,0 +1,1 @@` becomes `@@ -0,0 +0,1 @@`. -/
theorem not_adjustedExactly_newFile :
    Run newFileDiff [whole ⟨newFileHunk, 0, 0⟩] [1]
      ∧ ¬ AdjustedExactly [whole ⟨newFileHunk, 0, 0⟩] [1] := by
  have hwritten : magitApplyAdjustHunkNewStarts ["@@ -0,0 +1,1 @@\n+a\n".toList]
      = some ["@@ -0,0 +0,1 @@\n+a\n".toList] := by decide +kernel
  refine ⟨run_newFile, fun h => ?_⟩
  exact absurd (hwritten.symm.trans h.1) (by decide)

end Magit.AdjustStarts
