import Mathlib.Order.Bounds.Basic
import Magit.Emacs.Markers

/-!
# Client/RegionLines — the lines of the region

`magit-file-region-line-numbers` returns the lines of the region, whose end is behind its last
character.  Where the region goes to the end of the buffer, it looks at the last character instead,
and takes it for what is behind the region if it begins a line (`coversRegion_iff`).
-/

namespace Magit.RegionLines

open Emacs

/-- `(line-number-at-pos p t)` -/
def lineNumberAtPos (text : List Char) (p : ℕ) : ℕ := (text.take (p - 1)).count '\n' + 1

/-- `magit-file-region-line-numbers`, of a buffer that visits a file or a blob, or does not. -/
def magitFileRegionLineNumbers (visiting : Bool) (text : List Char) (region : Option (ℕ × ℕ)) :
    Option (ℕ × ℕ) :=
  region.bind fun r =>
    if visiting = true ∧ ¬(r.1 = r.2 ∧ r.2 = text.length + 1) then
      let fin := min r.2 text.length
      some (lineNumberAtPos text r.1,
        lineNumberAtPos text (if lineBeginning text fin = fin then max r.1 (fin - 1) else fin))
    else none

/-- The option that has `git log` trace lines of a file. -/
def traceOption (beg fin : ℕ) (file : List Char) : List Char :=
  "-L".toList ++ (Nat.repr beg).toList ++ ",".toList ++ (Nat.repr fin).toList ++ ":".toList ++ file

/-- The arguments and the files that `magit-log-buffer-file` sets up the log with. -/
def magitLogBufferFile (args : List (List Char)) (follow : Bool) (file : List Char)
    (lines : Option (ℕ × ℕ)) : List (List Char) × List (List Char) :=
  let args := if follow && !args.contains "--follow".toList then "--follow".toList :: args else args
  match lines with
  | some l => (traceOption l.1 l.2 file :: args.filter (!"-L".toList.isPrefixOf ·), [])
  | none => (args, [file])

/-- The lines with a character of the region. -/
def regionLines (text : List Char) (beg fin : ℕ) : Set ℕ :=
  {n | ∃ p, beg ≤ p ∧ p < fin ∧ lineNumberAtPos text p = n}

/-- The first and the last line of the region are traced, and nothing else is. -/
structure CoversRegion (text : List Char) (beg fin first last : ℕ) (args : List (List Char))
    (follow : Bool) (file : List Char) : Prop where
  lines : magitFileRegionLineNumbers true text (some (beg, fin)) = some (first, last)
  least : IsLeast (regionLines text beg fin) first
  greatest : IsGreatest (regionLines text beg fin) last
  traced : (magitLogBufferFile args follow file
      (magitFileRegionLineNumbers true text (some (beg, fin)))).1.filter ("-L".toList.isPrefixOf ·)
    = [traceOption first last file]
  files : (magitLogBufferFile args follow file
      (magitFileRegionLineNumbers true text (some (beg, fin)))).2 = []

section

variable {text before rest : List Char} {p q beg fin : ℕ}

/-- Further on in the text the line number is no smaller. -/
theorem lineNumberAtPos_mono (text : List Char) (h : p ≤ q) :
    lineNumberAtPos text p ≤ lineNumberAtPos text q := by
  have hle : p - 1 ≤ q - 1 := Nat.sub_le_sub_right h 1
  have hsub : List.Sublist (text.take (p - 1)) (text.take (q - 1)) :=
    (List.take_prefix_take_left hle).sublist
  exact Nat.add_le_add_right (hsub.count_le '\n') 1

/-- Behind a newline the next line begins. -/
theorem lineNumberAtPos_succ (hp : 1 ≤ p) (h : p ≤ text.length) :
    lineNumberAtPos text (p + 1)
      = lineNumberAtPos text p + if lineBeginning text (p + 1) = p + 1 then 1 else 0 := by
  obtain ⟨k, rfl⟩ := Nat.exists_eq_add_of_le' hp
  have hk : k < text.length := h
  have htake : text.take (k + 1) = text.take k ++ [text[k]] :=
    (List.take_append_getElem hk).symm
  have hlen : (text.take k).length = k := List.length_take_of_le hk.le
  rw [lineNumberAtPos, lineNumberAtPos, Nat.add_sub_cancel, Nat.add_sub_cancel, lineBeginning,
    Nat.add_sub_cancel, htake, List.count_append, List.count_singleton]
  by_cases hc : text[k] = '\n'
  · rw [hc, completed_append_newline, List.length_append, hlen, List.length_singleton, if_pos rfl,
      beq_self_eq_true, if_pos rfl]
  · have hnot : '\n' ∉ [text[k]] := by simpa using Ne.symm hc
    have hshort := (completed_prefix_text (text.take k)).length_le
    rw [completed_append_of_not_mem _ hnot, if_neg (by simpa using hc), if_neg (by omega)]

/-- The first line of a region is the one in which it begins. -/
theorem isLeast_regionLines (h : beg < fin) :
    IsLeast (regionLines text beg fin) (lineNumberAtPos text beg) := by
  refine ⟨⟨beg, le_rfl, h, rfl⟩, ?_⟩
  rintro _ ⟨p, hp, -, rfl⟩
  exact lineNumberAtPos_mono text hp

/-- The last line of a region is the one of its last character. -/
theorem isGreatest_regionLines (h : beg < fin) :
    IsGreatest (regionLines text beg fin) (lineNumberAtPos text (fin - 1)) := by
  refine ⟨⟨fin - 1, Nat.le_sub_one_of_lt h, by omega, rfl⟩, ?_⟩
  rintro _ ⟨p, -, hp, rfl⟩
  exact lineNumberAtPos_mono text (Nat.le_sub_one_of_lt hp)

/-- What is traced is what has been asked for, whatever the arguments are. -/
theorem magitLogBufferFile_some (args : List (List Char)) (follow : Bool) (file : List Char)
    (l : ℕ × ℕ) :
    (magitLogBufferFile args follow file (some l)).1.filter ("-L".toList.isPrefixOf ·)
        = [traceOption l.1 l.2 file]
      ∧ (magitLogBufferFile args follow file (some l)).2 = [] := by
  have hoption : "-L".toList.isPrefixOf (traceOption l.1 l.2 file) = true := by
    rw [traceOption]
    simp only [List.append_assoc]
    exact List.isPrefixOf_iff_prefix.mpr (List.prefix_append _ _)
  have hnone : ∀ others : List (List Char),
      (others.filter (!"-L".toList.isPrefixOf ·)).filter ("-L".toList.isPrefixOf ·) = [] := by
    intro others
    refine List.filter_eq_nil_iff.mpr fun a ha hpre => ?_
    have hnot := List.of_mem_filter ha
    rw [hpre] at hnot
    cases hnot
  refine ⟨?_, rfl⟩
  rw [magitLogBufferFile]
  dsimp only
  rw [List.filter_cons_of_pos hoption, hnone]

/-- The region goes to the end of the buffer, and the last character of it begins a line, but is not
all of the region. -/
def EndsInShortLine (text : List Char) (beg fin : ℕ) : Prop :=
  fin = text.length + 1 ∧ beg < text.length ∧ lineBeginning text text.length = text.length

/-- The second number is that of the line of the last character, unless this begins the last line
of the buffer. -/
theorem lastLine_eq_iff (hbeg : 1 ≤ beg) (h : beg < fin) (hfin : fin ≤ text.length + 1) :
    lineNumberAtPos text (if lineBeginning text (min fin text.length) = min fin text.length
        then max beg (min fin text.length - 1) else min fin text.length)
      = lineNumberAtPos text (fin - 1) ↔ ¬EndsInShortLine text beg fin := by
  obtain ⟨p, rfl⟩ := Nat.exists_eq_add_of_le' (Nat.one_le_of_lt h)
  rw [Nat.add_sub_cancel]
  rcases Nat.lt_or_ge p text.length with hlt | hge
  · have hmin : min (p + 1) text.length = p + 1 := Nat.min_eq_left hlt
    refine iff_of_true ?_ fun hshort => by have := hshort.1; omega
    rw [hmin]
    split
    · rw [Nat.add_sub_cancel, Nat.max_eq_right (by omega)]
    next hbol =>
      rw [lineNumberAtPos_succ (by omega) hlt.le, if_neg hbol, Nat.add_zero]
  · obtain rfl : p = text.length := by omega
    rw [Nat.min_eq_right (by omega)]
    by_cases hbol : lineBeginning text text.length = text.length
    · rw [if_pos hbol]
      rcases Nat.lt_or_ge beg text.length with hshort | hone
      · refine iff_of_false (fun heq => ?_) fun hno => hno ⟨rfl, hshort, hbol⟩
        obtain ⟨k, hk⟩ := Nat.exists_eq_add_of_le' (Nat.one_le_of_lt hshort)
        have hnext : lineNumberAtPos text (k + 1) = _ :=
          lineNumberAtPos_succ (by omega) (by omega)
        rw [← hk, if_pos hbol] at hnext
        have hsub : text.length - 1 = k := by omega
        rw [hsub, Nat.max_eq_right (by omega)] at heq
        omega
      · refine iff_of_true ?_ fun hno => by have := hno.2.1; omega
        rw [Nat.max_eq_left (by omega)]
        congr 1
        omega
    · rw [if_neg hbol]
      exact iff_of_true rfl fun hno => hbol hno.2.2

/-- **The lines of the region are traced exactly if it does not end in a last line of one
character.** -/
theorem coversRegion_iff (hbeg : 1 ≤ beg) (h : beg < fin) (hfin : fin ≤ text.length + 1)
    (args : List (List Char)) (follow : Bool) (file : List Char) :
    (∃ first last, CoversRegion text beg fin first last args follow file)
      ↔ ¬EndsInShortLine text beg fin := by
  have hlines : magitFileRegionLineNumbers true text (some (beg, fin))
      = some (lineNumberAtPos text beg, lineNumberAtPos text
        (if lineBeginning text (min fin text.length) = min fin text.length
          then max beg (min fin text.length - 1) else min fin text.length)) :=
    if_pos ⟨rfl, fun heq => Nat.ne_of_lt h heq.1⟩
  rw [← lastLine_eq_iff hbeg h hfin]
  constructor
  · rintro ⟨first, last, hcovers⟩
    have hsome := hcovers.lines
    rw [hlines] at hsome
    obtain ⟨-, rfl⟩ := Prod.mk.inj (Option.some.inj hsome)
    exact hcovers.greatest.unique (isGreatest_regionLines h)
  · intro heq
    refine ⟨_, _, hlines, isLeast_regionLines h, ?_, ?_, ?_⟩
    · rw [heq]
      exact isGreatest_regionLines h
    · rw [hlines]
      exact (magitLogBufferFile_some args follow file _).1
    · rw [hlines]
      exact (magitLogBufferFile_some args follow file _).2

theorem coversRegion_iff_twoLines :
    (∃ first last, CoversRegion "ab\ncd".toList 2 5 first last [] false "f".toList)
      ↔ ¬EndsInShortLine "ab\ncd".toList 2 5 :=
  coversRegion_iff (by decide) (by decide) (by decide) [] false "f".toList

/-- The second line, of one character, is left out. -/
theorem not_coversRegion_shortLine :
    ¬∃ first last, CoversRegion "a\nb".toList 1 4 first last [] false "f".toList := by
  rintro ⟨first, last, hcovers⟩
  have hsome := hcovers.lines
  have hlines : magitFileRegionLineNumbers true "a\nb".toList (some (1, 4)) = some (1, 1) := by
    decide
  rw [hlines] at hsome
  obtain ⟨-, rfl⟩ := Prod.mk.inj (Option.some.inj hsome)
  have hle : lineNumberAtPos "a\nb".toList 3 ≤ 1 :=
    hcovers.greatest.2 ⟨3, by decide, by decide, rfl⟩
  exact absurd hle (by decide)

end

end Magit.RegionLines
