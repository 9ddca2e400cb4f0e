import Magit.Diff.Lines
import Magit.Emacs.Buffer
import Magit.Msgpack.Object

/-!
# Diff/Unified — the lines of a hunk in the unified format

A line begins with the character of its kind, and the last line of a side may be followed by a
marker that says it ends the file without a newline.
-/

namespace Magit.UnifiedDiff

open Diff Emacs

/-- The text of a line, and whether an end-of-file marker follows it. -/
structure Content where
  text : Text
  noEol : Bool
  deriving DecidableEq, Repr

/-- What git prints below a line that ends a file without a newline. -/
def noEolMarker : Text := "\\ No newline at end of file".toList

/-- What a line of a kind begins with. -/
def kindChar : LineKind → Char
  | .context => ' '
  | .removed => '-'
  | .added => '+'

/-- A line without its marker. -/
def mainLine (l : Line Content) : Text := kindChar l.kind :: l.content.text

/-- The marker, if it is there. -/
def markerLines (shown : Bool) : List Text := if shown then [noEolMarker] else []

/-- A line with its marker. -/
def rawLines (l : Line Content) : List Text := mainLine l :: markerLines l.content.noEol

/-- The lines below a header. -/
def bodyLines (body : List (Line Content)) : List Text := body.flatMap rawLines

/-- A line of the body, or a marker. -/
def IsBodyLine (line : Text) : Prop :=
  '\n' ∉ line ∧ ∃ c ∈ [' ', '-', '+', '\\'], ∃ rest, line = c :: rest

theorem not_mem_noEolMarker : '\n' ∉ noEolMarker := by decide

theorem kindChar_ne_newline (kind : LineKind) : kindChar kind ≠ '\n' := by cases kind <;> decide

theorem mainLine_ne_noEolMarker (l : Line Content) : mainLine l ≠ noEolMarker := by
  intro h
  have hchar : kindChar l.kind = '\\' := (List.cons.inj h).1
  generalize l.kind = kind at hchar
  cases kind <;> exact absurd hchar (by decide)

/-- The line of a change is a line of a body. -/
theorem isBodyLine_mainLine {l : Line Content} (h : '\n' ∉ l.content.text) :
    IsBodyLine (mainLine l) := by
  refine ⟨?_, kindChar l.kind, ?_, l.content.text, rfl⟩
  · rw [mainLine, List.mem_cons, not_or]
    exact ⟨(kindChar_ne_newline _).symm, h⟩
  · generalize l.kind = kind
    cases kind <;> decide

/-- A marker is a line of a body. -/
theorem isBodyLine_of_mem_markerLines {shown : Bool} {line : Text} (h : line ∈ markerLines shown) :
    IsBodyLine line := by
  rw [markerLines] at h
  split_ifs at h
  · rw [List.mem_singleton.mp h]
    exact ⟨not_mem_noEolMarker, '\\', by decide, _, rfl⟩
  · exact absurd h List.not_mem_nil

/-- Every line of a body is one. -/
theorem isBodyLine_of_mem_bodyLines {body : List (Line Content)}
    (h : ∀ l ∈ body, '\n' ∉ l.content.text) {line : Text} (hline : line ∈ bodyLines body) :
    IsBodyLine line := by
  obtain ⟨l, hl, hline⟩ := List.mem_flatMap.mp hline
  rcases List.mem_cons.mp hline with rfl | hline
  · exact isBodyLine_mainLine (h l hl)
  · exact isBodyLine_of_mem_markerLines hline

end Magit.UnifiedDiff
