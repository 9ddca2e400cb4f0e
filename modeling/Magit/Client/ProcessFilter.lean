import Magit.Emacs.LineBuffer
import Magit.Emacs.Overwriting

/-!
# Client/ProcessFilter — the output of a subprocess in its process section

`magit-process-filter` looks for a carriage return in each piece of output by itself, and ignores
what is before the last one in the piece.  So what it leaves is the output with its lines overwritten
unless a piece has a newline before its last carriage return (`processText_eq_overwritten_iff`).
-/

namespace Magit.Process

open Emacs

variable (fold : Char → Char)

/-- `string-match` for a regular expression that begins with `^`, and `replace-match`: the first
beginning of a line where something is replaced, which is looked for behind a newline. -/
def replaceAtLine (replace : List Char → Option (List Char)) : Bool → List Char → List Char
  | bol, [] => if bol then (replace []).getD [] else []
  | bol, c :: text =>
    match if bol then replace (c :: text) else none with
    | some replaced => replaced
    | none => c :: replaceAtLine replace (c == '\n') text

/-- Without the first group of `^\(\*ERROR\*: \)Canceled by user`. -/
def canceledByUser (text : List Char) : Option (List Char) :=
  if lookingAt fold "*ERROR*: Canceled by user".toList text then some (text.drop 9) else none

/-- Without `^error: There was a problem with the editor.*\n`. -/
def editorProblem (text : List Char) : Option (List Char) :=
  if lookingAt fold "error: There was a problem with the editor".toList text then
    match text.dropWhile (· ≠ '\n') with
    | [] => none
    | _ :: behind => some behind
  else none

/-- What git prints where an editor gave it no message. -/
def supplyTheMessage : List Char :=
  "Please supply the message using either -m or -F option.\n".toList

/-- Without `supplyTheMessage` at the beginning. -/
def messageMissing (text : List Char) : Option (List Char) :=
  if lookingAt fold supplyTheMessage text then some (text.drop supplyTheMessage.length) else none

/-- `magit-process-remove-bogus-errors` -/
def magitProcessRemoveBogusErrors (string : List Char) : List Char :=
  let string := replaceAtLine (canceledByUser fold) true string
  let string := replaceAtLine (editorProblem fold) true string
  replaceAtLine (messageMissing fold) true string

/-- `magit-process-filter`: the text between where the output begins, at the beginning of a line, and
the process mark. -/
def magitProcessFilter (text string : List Char) : List Char :=
  if '\r' ∈ string then completed text ++ magitProcessRemoveBogusErrors fold (behindReturn string)
  else text ++ magitProcessRemoveBogusErrors fold string

/-- What is left of pieces of output. -/
def processText (chunks : List (List Char)) : List Char :=
  chunks.foldl (magitProcessFilter fold) []

/-- The piece without the bogus errors that are found in it. -/
def withoutBogusErrors (string : List Char) : List Char :=
  upToReturn string ++ magitProcessRemoveBogusErrors fold (behindReturn string)

variable {fold}

/-! ## Bogus errors -/

/-- Replacing at a line only takes characters away. -/
theorem subset_replaceAtLine {replace : List Char → Option (List Char)}
    (h : ∀ text replaced, replace text = some replaced → replaced <:+ text) (bol : Bool)
    (text : List Char) : replaceAtLine replace bol text ⊆ text := by
  induction text generalizing bol with
  | nil =>
    rw [replaceAtLine]
    split
    · rcases hreplace : replace [] with _ | replaced
      · exact List.Subset.refl _
      · exact (h _ _ hreplace).subset
    · exact List.Subset.refl _
  | cons c text ih =>
    rw [replaceAtLine]
    split
    · next replaced hreplace =>
      split at hreplace
      · exact (h _ _ hreplace).subset
      · cases hreplace
    · exact List.cons_subset_cons c (ih (c == '\n'))

/-- Removing bogus errors only takes characters away. -/
theorem magitProcessRemoveBogusErrors_subset (string : List Char) :
    magitProcessRemoveBogusErrors fold string ⊆ string := by
  have hcanceled : ∀ text replaced, canceledByUser fold text = some replaced → replaced <:+ text := by
    intro text replaced h
    rw [canceledByUser] at h
    split at h
    · exact Option.some.inj h ▸ List.drop_suffix 9 text
    · cases h
  have hmissing : ∀ text replaced, messageMissing fold text = some replaced → replaced <:+ text := by
    intro text replaced h
    rw [messageMissing] at h
    split at h
    · exact Option.some.inj h ▸ List.drop_suffix _ text
    · cases h
  have hproblem : ∀ text replaced, editorProblem fold text = some replaced → replaced <:+ text := by
    intro text replaced h
    rw [editorProblem] at h
    split at h
    · split at h
      · cases h
      · next c behind hrest =>
        obtain rfl := Option.some.inj h
        have hsuffix : c :: behind <:+ text := by
          rw [← hrest]
          exact List.dropWhile_suffix _
        exact (List.suffix_cons c behind).trans hsuffix
    · cases h
  exact List.Subset.trans (subset_replaceAtLine hmissing _ _)
    (List.Subset.trans (subset_replaceAtLine hproblem _ _) (subset_replaceAtLine hcanceled _ _))

variable (fold) in
theorem not_mem_removeBogusErrors {string : List Char} (h : '\r' ∉ string) :
    '\r' ∉ magitProcessRemoveBogusErrors fold string :=
  fun hmem => h (magitProcessRemoveBogusErrors_subset string hmem)

theorem withoutBogusErrors_of_not_mem {string : List Char} (h : '\r' ∉ string) :
    withoutBogusErrors fold string = magitProcessRemoveBogusErrors fold string := by
  rw [withoutBogusErrors, upToReturn_of_not_mem h, behindReturn_of_not_mem h, List.nil_append]

/-! ## One piece -/

variable (fold) in
/-- A piece of output is ignored up to its last carriage return. -/
theorem count_magitProcessFilter (text string : List Char) :
    (magitProcessFilter fold text string).count '\n' + (upToReturn string).count '\n'
      = text.count '\n' + (withoutBogusErrors fold string).count '\n' := by
  rw [magitProcessFilter]
  split
  · rw [withoutBogusErrors, List.count_append, List.count_append, count_completed]
    omega
  · next hreturn =>
    rw [withoutBogusErrors_of_not_mem hreturn, upToReturn_of_not_mem hreturn, List.count_append]
    rfl

/-- A chunk is what overwrites the last line, if no line ends in front of its last carriage return.
-/
theorem magitProcessFilter_eq_overwrite {string : List Char} (text : List Char)
    (h : '\n' ∉ upToReturn string) :
    magitProcessFilter fold text string = overwrite text (withoutBogusErrors fold string) := by
  rw [magitProcessFilter]
  split
  · next hreturn =>
    have hbehind := not_mem_removeBogusErrors fold (not_mem_behindReturn string)
    rw [withoutBogusErrors, overwrite_append, overwrite_upToReturn text hreturn h,
      overwrite_of_not_mem _ hbehind]
  · next hreturn =>
    rw [withoutBogusErrors_of_not_mem hreturn,
      overwrite_of_not_mem text (not_mem_removeBogusErrors fold hreturn)]

/-- Lines that are complete are never changed. -/
theorem completed_prefix_magitProcessFilter (text string : List Char) :
    completed text <+: completed (magitProcessFilter fold text string) := by
  rw [magitProcessFilter]
  split
  · conv_lhs => rw [← completed_completed]
    exact completed_prefix_append _ _
  · exact completed_prefix_append _ _

/-! ## All of the output -/

variable (fold) in
/-- The newlines that are lost are those in front of the last carriage return of a chunk. -/
theorem count_processText (text : List Char) (chunks : List (List Char)) :
    (chunks.foldl (magitProcessFilter fold) text).count '\n'
        + (chunks.flatMap upToReturn).count '\n'
      = text.count '\n' + (chunks.flatMap (withoutBogusErrors fold)).count '\n' := by
  induction chunks generalizing text with
  | nil => rfl
  | cons chunk chunks ih =>
    have hchunk := count_magitProcessFilter fold text chunk
    have hchunks := ih (magitProcessFilter fold text chunk)
    rw [List.foldl_cons, List.flatMap_cons, List.flatMap_cons, List.count_append, List.count_append]
    omega

/-- Chunks one after the other overwrite as all of them at once do. -/
theorem processText_eq_overwrite (text : List Char) {chunks : List (List Char)}
    (h : ∀ chunk ∈ chunks, '\n' ∉ upToReturn chunk) :
    chunks.foldl (magitProcessFilter fold) text
      = overwrite text (chunks.flatMap (withoutBogusErrors fold)) := by
  induction chunks generalizing text with
  | nil => rfl
  | cons chunk chunks ih =>
    obtain ⟨hchunk, hchunks⟩ := List.forall_mem_cons.mp h
    rw [List.foldl_cons, List.flatMap_cons, overwrite_append, ih _ hchunks,
      magitProcessFilter_eq_overwrite text hchunk]

/-- Lines that are complete are not changed by any number of chunks. -/
theorem completed_prefix_processText (text : List Char) (chunks : List (List Char)) :
    completed text <+: completed (chunks.foldl (magitProcessFilter fold) text) := by
  induction chunks generalizing text with
  | nil => exact List.prefix_refl _
  | cons chunk chunks ih =>
    exact (completed_prefix_magitProcessFilter text chunk).trans (ih _)

/-- **The lines of the output are overwritten exactly if no piece has a newline before its last
carriage return, and no line that has been completed is removed.** -/
theorem processText_eq_overwritten_iff (fold : Char → Char) (chunks : List (List Char)) :
    (processText fold chunks = overwritten (chunks.flatMap (withoutBogusErrors fold))
        ↔ ∀ chunk ∈ chunks, '\n' ∉ upToReturn chunk) ∧
      ∀ more, completed (processText fold chunks) <+: processText fold (chunks ++ more) := by
  refine ⟨⟨fun heq => ?_, fun h => ?_⟩, fun more => ?_⟩
  · have hcount := count_processText fold [] chunks
    have hzero : (chunks.flatMap upToReturn).count '\n' = 0 := by
      rw [processText] at heq
      rw [heq, ← overwrite_eq_overwritten, count_overwrite] at hcount
      omega
    intro chunk hchunk hmem
    exact List.count_eq_zero.mp hzero (List.mem_flatMap.mpr ⟨chunk, hchunk, hmem⟩)
  · rw [← overwrite_eq_overwritten]
    exact processText_eq_overwrite [] h
  · rw [processText, processText, List.foldl_append]
    exact (completed_prefix_processText _ more).trans (completed_prefix_text _)

/-- A line that is completed in the piece that overwrites the next one is lost. -/
theorem processText_cut :
    processText id ["foo\n".toList, "bar\rbaz".toList] = "foo\nbaz".toList ∧
      overwritten "foo\nbar\rbaz".toList = "foo\nbaz".toList ∧
      processText id ["foo\nbar\rbaz".toList] = "baz".toList := by
  decide

end Magit.Process
