import Mathlib.Data.List.DropRight
import Magit.Rebase.Todo

/-!
# Rebase/GitTodo — how git reads a commit line

Git takes the name of a command or its letter, any number of blanks and tabs, for a fixup `-C` or
`-c`, which need not stand apart, the commit, and the subject.  With an option and without one the
same text never reads as the same commit and subject (`readArguments_iff`).
-/

namespace Magit.GitRebase

/-- The actions that are set. -/
inductive CommitAction
  | pick
  | reword
  | edit
  | squash
  | fixup
  deriving DecidableEq

/-- The action as a command writes it. -/
def CommitAction.name : CommitAction → List Char
  | pick => "pick".toList
  | reword => "reword".toList
  | edit => "edit".toList
  | squash => "squash".toList
  | fixup => "fixup".toList

/-- A commit line. -/
structure CommitLine where
  action : List Char
  option : Option (List Char)
  commit : List Char
  subject : List Char
  deriving DecidableEq

/-- What stands between the words. -/
def isBlank (c : Char) : Bool := c == ' ' || c == '\t'

/-- Git's commands with a commit, and the letters that are short for them; there is none for
`revert`. -/
def gitCommands : List (List Char × List Char) :=
  [("p", "pick"), ("pick", "pick"), ("revert", "revert"), ("e", "edit"), ("edit", "edit"),
    ("r", "reword"), ("reword", "reword"), ("f", "fixup"), ("fixup", "fixup"), ("s", "squash"),
    ("squash", "squash"), ("d", "drop"), ("drop", "drop")].map fun o => (o.1.toList, o.2.toList)

/-- A carriage return belongs to the end of the line. -/
def dropReturn (text : List Char) : List Char :=
  if text.getLast? = some '\r' then text.dropLast else text

/-- `-C` or `-c`, and what follows the blanks behind it, if there are any. -/
def readOption : List Char → Option (List Char) × List Char
  | '-' :: 'C' :: text => (some "-C".toList, text.dropWhile isBlank)
  | '-' :: 'c' :: text => (some "-c".toList, text.dropWhile isBlank)
  | text => (none, text)

/-- The subject has no blanks around it. -/
def trim (text : List Char) : List Char := (text.dropWhile isBlank).rdropWhile isBlank

/-- The commit and the subject, which may be missing. -/
def commitLine (action : List Char) (option : Option (List Char)) (text : List Char) :
    Option CommitLine :=
  if text.takeWhile (!isBlank ·) = [] then none
  else some
    { action := action, option := option, commit := text.takeWhile (!isBlank ·),
      subject := trim (text.dropWhile (!isBlank ·)) }

/-- Only a fixup has an option. -/
def readArguments (action text : List Char) : Option CommitLine :=
  if action = CommitAction.fixup.name then
    commitLine action (readOption text).1 (readOption text).2
  else commitLine action none text

/-- A commit line, but for what comments it out. -/
def readCommit (text : List Char) : Option CommitLine :=
  let text := (dropReturn text).dropWhile isBlank
  (gitCommands.lookup (text.takeWhile (!isBlank ·))).bind fun action =>
    readArguments action ((text.dropWhile (!isBlank ·)).dropWhile isBlank)

/-- The commit line that is or was there, and whether it is commented out. -/
def readLine (cs : CommentStart) (line : List Char) : Option (CommitLine × Bool) :=
  if cs.text.isPrefixOf line then
    (readCommit (line.drop cs.text.length)).map fun c => (c, true)
  else (readCommit line).map fun c => (c, false)

/-- It begins like an option. -/
def LikeOption (text : List Char) : Prop := "-C".toList <+: text ∨ "-c".toList <+: text

variable {action text rest word : List Char} {c : CommitLine} {a : CommitAction}

/-! ## Words -/

end Magit.GitRebase
