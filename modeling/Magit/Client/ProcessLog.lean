import Magit.Client.ProcessFilter
import Magit.Emacs.Markers

/-!
# Client/ProcessLog — the process buffer

Every subprocess gets a section at the end of the process buffer, in front of the last newline, and
so does every action that is logged.  Output is inserted at the process mark of its subprocess, while
other sections follow; the exit code takes the place of the first three characters.  A section can
only be deleted when `magit-process-log-max` is reached.
-/

namespace Magit.ProcessLog

open Emacs Process

/-- The types of the sections in a process buffer. -/
inductive Kind
  | processbuf
  | process
  | message
deriving DecidableEq

/-- `process-status`; a subprocess that is gone has exited or received a signal. -/
inductive Status
  | run
  | exit
deriving DecidableEq

/-- A process that a section is about. -/
structure Subprocess where
  status : Status
  /-- `process-mark` -/
  mark : Marker

/-- A section; the slot `end` is `fin`, and sections are known by the order of their creation. -/
structure Section where
  type : Kind
  parent : Option ℕ
  start : Marker
  content : Option Marker
  fin : Option Marker
  children : List ℕ
  process : Option Subprocess

/-- The process buffer; `root` is `magit-root-section`. -/
structure Buffer where
  text : List Char
  point : ℕ
  sections : List Section
  root : Option ℕ

/-- What happens to every marker of a section. -/
def Section.move (f : Marker → Marker) (s : Section) : Section :=
  { s with
    start := f s.start
    content := s.content.map f
    fin := s.fin.map f
    process := s.process.map fun p => { p with mark := f p.mark } }

/-- `set-marker` of the process mark. -/
def Section.setProcessMark (p : ℕ) (s : Section) : Section :=
  { s with process := s.process.map fun q => { q with mark := { q.mark with pos := p } } }

/-- `set-marker-insertion-type` of the slot `start`. -/
def Section.setInsertionType (advances : Bool) (s : Section) : Section :=
  { s with start := { s.start with advances } }

namespace Buffer

/-- `(point-max)` -/
def pointMax (b : Buffer) : ℕ := b.text.length + 1

/-- `(goto-char p)` -/
def gotoChar (p : ℕ) (b : Buffer) : Buffer := { b with point := max 1 (min p b.pointMax) }

/-- `(bolp)` -/
def bolp (b : Buffer) : Bool := (b.text.take (b.point - 1)).getLast?.all (· == '\n')

/-- `insert` -/
def insert (piece : List Char) (b : Buffer) : Buffer :=
  { b with
    text := insertText b.text b.point piece
    point := b.point + piece.length
    sections := b.sections.map (·.move (·.inserted b.point piece.length)) }

/-- `delete-region`; nothing if it signals that the positions are out of range. -/
def deleteRegion (beg fin : ℕ) (b : Buffer) : Option Buffer :=
  if beg ≤ fin ∧ fin ≤ b.pointMax then
    some { b with
      text := deleteText b.text beg fin
      point := (Marker.deleted beg fin ⟨b.point, false⟩).pos
      sections := b.sections.map (·.move (·.deleted beg fin)) }
  else none

/-- Changes slots of a section. -/
def update (i : ℕ) (f : Section → Section) (b : Buffer) : Buffer :=
  { b with sections := b.sections.modify i f }

/-- The children of the section with a number. -/
def children (b : Buffer) (i : ℕ) : List ℕ := (b.sections[i]?).elim [] (·.children)

/-- The slot `process` of a section. -/
def process (b : Buffer) (i : ℕ) : Option Subprocess := (b.sections[i]?).bind (·.process)

/-- The process of the section with a number runs still. -/
def running (b : Buffer) (i : ℕ) : Bool := (b.process i).any (·.status = .run)

end Buffer

open Buffer

/-! ## Inserting sections -/

/-- Unless it is the root, a section becomes the last child of its parent. -/
def addToParent (obj : ℕ) (b : Buffer) : Buffer :=
  if b.root = some obj then b
  else
    match (b.sections[obj]?).bind (·.parent) with
    | none => b
    | some parent => b.update parent fun s => { s with children := s.children ++ [obj] }

/-- `magit-insert-section--finish`, for a section without children unless it is the root. -/
def magitInsertSectionFinish (obj : ℕ) (b : Buffer) : Buffer :=
  let b := b.update obj fun s => { s with fin := some ⟨b.point, false⟩ }
  addToParent obj (b.update obj (·.setInsertionType true))

/-- What `magit-insert-section--create` and the binding of `magit-insert-section--oldroot` do, which
is nil here: without a parent the section becomes the root. -/
def magitInsertSectionCreate (type : Kind) (parent : Option ℕ) (b : Buffer) : Buffer :=
  { b with
    sections := b.sections ++ [⟨type, parent, ⟨b.point, false⟩, none, none, [], none⟩]
    root := if parent.isNone then some b.sections.length else b.root }

/-- `magit-insert-section`, with `magit-insert-section--parent` bound to the argument `parent`. -/
def magitInsertSection (type : Kind) (parent : Option ℕ) (body : ℕ → Buffer → Buffer)
    (b : Buffer) : Buffer :=
  let obj := b.sections.length
  magitInsertSectionFinish obj (body obj (magitInsertSectionCreate type parent b))

/-- `magit-insert-heading` -/
def magitInsertHeading (obj : ℕ) (heading : List Char) (b : Buffer) : Buffer :=
  let b := b.insert heading
  let b := if b.bolp then b else b.insert ['\n']
  b.update obj fun s => { s with content := some ⟨b.point, false⟩ }

/-- The process buffer as `magit-process-buffer` creates it. -/
def created : Buffer := magitInsertSection .processbuf none (fun _ => insert ['\n']) ⟨[], 1, [], none⟩

/-! ## Truncating the log -/

/-- The loop of `magit-process-truncate-log`, which collects the sections to keep in `head`. -/
def truncateLoop (max : ℤ) : List ℕ → List ℕ → ℤ → Buffer → Option (List ℕ × Buffer)
  | head, obj :: next :: tail, count, b =>
    if max.tdiv 2 < count then
      (b.sections[obj]?).bind fun s =>
        match s.process with
        | none => truncateLoop max head (next :: tail) count b
        | some ⟨.exit, _⟩ =>
          s.fin.bind fun fin => (b.deleteRegion s.start.pos (fin.pos + 1)).bind
            (truncateLoop max head (next :: tail) (count - 1))
        | some ⟨.run, _⟩ => truncateLoop max (obj :: head) (next :: tail) count b
    else some (head.reverse ++ obj :: next :: tail, b)
  | head, tail, _, b => some (head.reverse ++ tail, b)

/-- `magit-process-truncate-log` -/
def magitProcessTruncateLog (max : ℤ) (b : Buffer) : Option Buffer :=
  b.root.bind fun root =>
    let tail := b.children root
    if max < tail.length + 1 then
      (truncateLoop max [] tail tail.length b).map fun r =>
        r.2.update root fun s => { s with children := r.1 }
    else some b

/-- `magit-process-buffer`, of a buffer that exists; `logMax` is `magit-process-log-max`. -/
def magitProcessBuffer (logMax : Option ℤ) (b : Buffer) : Option Buffer :=
  match logMax with
  | none => some b
  | some max => magitProcessTruncateLog max b

/-! ## Subprocesses -/

/-- The body of the section of a subprocess; `timestamp` is the time as
`magit-process-timestamp-format` has it. -/
def processBody (timestamp : Option (List Char)) (cmd : List Char) (obj : ℕ) (b : Buffer) : Buffer :=
  let b := b.insert "run ".toList
  let b := timestamp.elim b fun time => b.insert (time ++ [' '])
  (magitInsertHeading obj cmd b).insert ['\n']

/-- `magit-process-insert-section` -/
def magitProcessInsertSection (timestamp : Option (List Char)) (cmd : List Char) (b : Buffer) :
    Buffer :=
  magitInsertSection .process b.root (processBody timestamp cmd) (b.gotoChar (b.pointMax - 1))

/-- `magit-process-setup`, which returns the section. -/
def magitProcessSetup (logMax : Option ℤ) (timestamp : Option (List Char)) (cmd : List Char)
    (b : Buffer) : Option (ℕ × Buffer) :=
  (magitProcessBuffer logMax b).map fun b =>
    let inserted := magitProcessInsertSection timestamp cmd b
    (b.sections.length, inserted.gotoChar (inserted.point - 1))

/-- `magit-start-process` -/
def magitStartProcess (logMax : Option ℤ) (timestamp : Option (List Char)) (cmd : List Char)
    (b : Buffer) : Option Buffer :=
  (magitProcessSetup logMax timestamp cmd b).map fun r =>
    r.2.update r.1 fun s => { s with process := some ⟨.run, ⟨r.2.point, false⟩⟩ }

/-- `magit-process-filter` of the subprocess of a section. -/
def magitProcessFilter (fold : Char → Char) (proc : ℕ) (string : List Char) (b : Buffer) :
    Option Buffer :=
  (b.process proc).bind fun p =>
    let b := b.gotoChar p.mark.pos
    (if '\r' ∈ string then b.deleteRegion (lineBeginning b.text b.point) b.point else some b).map
      fun b =>
        let b := b.insert (magitProcessRemoveBogusErrors fold
          (if '\r' ∈ string then behindReturn string else string))
        b.update proc (·.setProcessMark b.point)

/-- `(format "%3s" exit-code)` -/
def exitCodeText (exitCode : ℕ) : List Char :=
  List.replicate (3 - exitCode.repr.length) ' ' ++ exitCode.repr.toList

/-- The exit code takes the place of the first three characters, before which `marker` remains. -/
def showExitCode (obj exitCode : ℕ) (b : Buffer) : Option Buffer :=
  (b.deleteRegion b.point (b.point + 3)).map fun b =>
    let b := b.update obj (·.setInsertionType false)
    let b := b.insert (exitCodeText exitCode)
    b.update obj (·.setInsertionType true)

/-- `magit-process-finish-section` -/
def magitProcessFinishSection (obj exitCode : ℕ) (b : Buffer) : Option Buffer :=
  (b.sections[obj]?).bind fun s =>
    let b := b.gotoChar s.start.pos
    let beg := b.point
    (showExitCode obj exitCode b).bind fun b =>
      let b := b.gotoChar beg
      let eol := lineEnd b.text b.point
      if ((b.sections[obj]?).bind (·.fin)).map (·.pos) = some (eol + 2) then
        (b.deleteRegion eol (eol + 1)).map fun b => b.update obj fun s => { s with content := none }
      else some b

/-- `magit-call-process` of a subprocess that writes `output` at point. -/
def magitCallProcess (logMax : Option ℤ) (timestamp : Option (List Char))
    (cmd output : List Char) (exitCode : ℕ) (b : Buffer) : Option Buffer :=
  (magitProcessSetup logMax timestamp cmd b).bind fun r =>
    magitProcessFinishSection r.1 exitCode (r.2.insert output)

/-- `magit-process-sentinel` of the subprocess of a section, when it is gone. -/
def magitProcessSentinel (proc exitCode : ℕ) (b : Buffer) : Option Buffer :=
  magitProcessFinishSection proc exitCode
    (b.update proc fun s => { s with process := s.process.map fun p => { p with status := .exit } })

/-! ## Messages -/

/-- The body of the section of a message. -/
def messageBody (heading : List Char) (lines : List (List Char)) (obj : ℕ) (b : Buffer) : Buffer :=
  let b := magitInsertHeading obj ("  * ".toList ++ heading) b
  if lines.isEmpty then b
  else (lines.foldl (fun b line => b.insert (line ++ ['\n'])) b).insert ['\n']

/-- `magit--log-action` -/
def magitLogAction (logMax : Option ℤ) (heading : List Char) (lines : List (List Char))
    (b : Buffer) : Option Buffer :=
  (magitProcessBuffer logMax b).map fun b =>
    magitInsertSection .message none (messageBody heading lines) (b.gotoChar (b.pointMax - 1))

/-! ## Runs -/

/-- What is not determined by the buffer: how characters are compared, and
`magit-process-log-max`. -/
structure Settings where
  fold : Char → Char
  logMax : Option ℤ

/-- What happens to a process buffer. -/
inductive Event
  | start (timestamp : Option (List Char)) (cmd : List Char)
  | call (timestamp : Option (List Char)) (cmd output : List Char) (exitCode : ℕ)
  | output (proc : ℕ) (string : List Char)
  | finish (proc exitCode : ℕ)
  | log (heading : List Char) (lines : List (List Char))

/-- How many sections are inserted. -/
def Event.inserted : Event → ℕ
  | .start _ _ | .call _ _ _ _ | .log _ _ => 1
  | .output _ _ | .finish _ _ => 0

/-- The event inserts a section without a process. -/
def Event.isLog : Event → Bool
  | .log _ _ => true
  | _ => false

/-- Output comes from a subprocess that is running, which then ends once; nothing if there is none,
or if something signals. -/
def step (σ : Settings) (b : Buffer) : Event → Option Buffer
  | .start timestamp cmd => magitStartProcess σ.logMax timestamp cmd b
  | .call timestamp cmd output exitCode => magitCallProcess σ.logMax timestamp cmd output exitCode b
  | .output proc string => if b.running proc then magitProcessFilter σ.fold proc string b else none
  | .finish proc exitCode => if b.running proc then magitProcessSentinel proc exitCode b else none
  | .log heading lines => magitLogAction σ.logMax heading lines b

/-- Events one after the other; nothing if one of them signals. -/
def run (σ : Settings) : List Event → Buffer → Option Buffer
  | [], b => some b
  | e :: events, b => (step σ b e).bind (run σ events)

end Magit.ProcessLog
