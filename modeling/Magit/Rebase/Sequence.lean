import Magit.Rebase.TodoRun

/-!
# Rebase/Sequence — the sequence that the status buffer shows

`magit-insert-rebase-sequence` shows what is left to do, the last command first, then what has been
done, and last the commit it is done onto.  Of what is left it reads the todo list with the parser
of the mode that edits it, which reads a command that is commented out too.  So editing the list
only rearranges the commits that are shown, even if some of them are killed (`rows_session`).
-/

namespace Magit.GitRebase

open Emacs

/-! ## What is left to do -/

/-- The face of a row. -/
inductive SequenceFace
  | pick
  | stop
  | part
  | head
  | drop
  | done
  | onto
  deriving DecidableEq

/-- What is inserted for a command or a commit. -/
inductive SequenceRow
  | commit (type hash : List Char) (face : SequenceFace)
  | command (action target : List Char)
  | merge (hash : List Char)
  deriving DecidableEq

variable {cs : CommentStart} {ct : CaseTable} {showInstructions : Bool}
  {text text' rest last line : List Char} {area lines : List (List Char)}

/-- The commit of a row. -/
def SequenceRow.picked : SequenceRow → Option (List Char)
  | .commit _ hash _ => some hash
  | .command _ _ => none
  | .merge _ => none

end Magit.GitRebase
