import Magit.Commit.Message
import Magit.Emacs.Markers
import Magit.Emacs.Ring

/-!
# Commit/MessageRing — cycling through the message ring

`git-commit-prev-message` keeps the message of the buffer before it puts another one in its place,
so that cycling loses none, and a message above the comments gives way to one of the ring
(`messageRing_run`).  Once a message of the ring is shown, cycling several times is cycling once by
the sum (`foldl_gitCommitPrevMessage`).
-/

namespace Magit.GitCommit

open Emacs

/-- A commit buffer, with `log-edit-comment-ring-index` and `log-edit-comment-ring`. -/
structure CommitBuffer where
  text : List Char
  index : Option ℤ
  ring : LispRing (List Char)

/-- `log-edit-new-comment-index` -/
def logEditNewCommentIndex (index : Option ℤ) (stride : ℤ) (len : ℕ) : ℤ :=
  (match index with
    | some i => i + stride
    | none => if 0 < stride then stride - 1 else stride) % len

/-- Keeps a message that is not in the ring, and counts it in. -/
def remember (c : CommentStart) (b : CommitBuffer) (arg : ℤ) : LispRing (List Char) × ℤ :=
  match gitCommitBufferMessage c b.text with
  | some m => if b.ring.member m = none then (b.ring.insert m, arg + 1) else (b.ring, arg)
  | none => (b.ring, arg)

/-- Deletes the message but not the comments at the end.  Where there are none the search leaves
point at the beginning, and nothing is deleted. -/
def deleteMessage (c : CommentStart) (text : List Char) : List Char :=
  match searchLine (commented c) text with
  | some p => deleteText text 1 (max 1 (p + 1 - 2))
  | none => text

/-- `git-commit-prev-message` -/
def gitCommitPrevMessage (c : CommentStart) (arg : ℤ) (b : CommitBuffer) : CommitBuffer :=
  if b.ring.length = 0 then b
  else
    let kept := remember c b arg
    let index := logEditNewCommentIndex b.index kept.2 kept.1.length
    { text := insertText (deleteMessage c b.text) 1 ((kept.1.ref index).getD [])
      index := some index
      ring := kept.1 }

/-- `git-commit-next-message` -/
def gitCommitNextMessage (c : CommentStart) (arg : ℤ) (b : CommitBuffer) : CommitBuffer :=
  gitCommitPrevMessage c (-arg) b

/-- `git-commit-save-message` -/
def gitCommitSaveMessage (c : CommentStart) (b : CommitBuffer) : CommitBuffer :=
  match gitCommitBufferMessage c b.text with
  | some m =>
    let ring := match b.ring.member m with
      | some i => b.ring.remove i
      | none => b.ring
    { b with ring := ring.insert m }
  | none => b

/-! ## Runs -/

/-- Commands, and changes to the buffer: the user edits it, or begins another commit. -/
inductive Event
  | prev (arg : ℤ)
  | next (arg : ℤ)
  | save
  | edited (text : List Char)
  | opened (text : List Char)

variable {c : CommentStart}

/-- What an event does to the buffer and the ring. -/
def step (c : CommentStart) (b : CommitBuffer) : Event → CommitBuffer
  | .prev arg => gitCommitPrevMessage c arg b
  | .next arg => gitCommitNextMessage c arg b
  | .save => gitCommitSaveMessage c b
  | .edited text => { b with text := text }
  | .opened text => { b with text := text, index := none }

/-- A run from the first commit on. -/
def run (c : CommentStart) (size : ℕ) (hsize : 0 < size) (text : List Char)
    (events : List Event) : CommitBuffer :=
  events.foldl (step c) ⟨text, none, LispRing.make size hsize⟩

/-- The elements of the ring are messages, each there once. -/
structure Kept (c : CommentStart) (r : LispRing (List Char)) : Prop where
  nodup : r.items.Nodup
  read : ∀ m ∈ r.items, gitCommitBufferMessage c m = some m

/-- The newline that stays in front of the comments. -/
def Body.rest (body : Body c) : List Char := if body.lines = [] then [] else ['\n']

variable {b : CommitBuffer} {n : ℤ} {body : Body c} {comments : Comments c} {m rest : List Char}
  {r : LispRing (List Char)}

/-! ## What is read -/

/-- A message that was read is read back as it is. -/
theorem gitCommitBufferMessage_self {text : List Char}
    (h : gitCommitBufferMessage c text = some m) :
    gitCommitBufferMessage c m = some m := by
  obtain ⟨i, x, hx, rfl⟩ := exists_core h
  have hread : gitCommitBufferMessage c (message i x ++ []) = some (message i x) :=
    gitCommitBufferMessage_read (j := 0) hx rfl
  rwa [List.append_nil] at hread

/-- Apart from comments only newlines are left of the rest. -/
theorem uncommentedText_rest (body : Body c) (comments : Comments c) :
    ∃ k, uncommentedText c (body.rest ++ comments.text) = List.replicate k '\n' := by
  obtain ⟨k, hk⟩ := comments.left
  rw [Body.rest]
  split
  · exact ⟨k, hk⟩
  · have hnewline : uncommentedText c (unlines [[]] ++ comments.text) = _ :=
      uncommentedText_unlines (List.forall_mem_singleton.mpr List.not_mem_nil)
        (List.forall_mem_singleton.mpr (commented_nil c)) comments.text
    rw [hk] at hnewline
    exact ⟨k + 1, hnewline⟩

/-- A message is read as itself in front of the comments. -/
theorem gitCommitBufferMessage_shown (h : gitCommitBufferMessage c m = some m) (body : Body c)
    (comments : Comments c) :
    gitCommitBufferMessage c (m ++ body.rest ++ comments.text) = some m := by
  obtain ⟨i, x, hx, rfl⟩ := exists_core h
  obtain ⟨k, hk⟩ := uncommentedText_rest body comments
  rw [List.append_assoc]
  exact gitCommitBufferMessage_read hx hk

/-- The lines of a buffer that shows a message. -/
theorem exists_body (h : gitCommitBufferMessage c m = some m) (body : Body c) :
    ∃ body' : Body c, body'.lines ≠ [] ∧ unlines body'.lines = m ++ body.rest := by
  obtain ⟨i, x, hx, rfl⟩ := exists_core h
  have hne : messageLines i x ≠ [] := List.splitOn_ne_nil _ _
  rw [Body.rest]
  split
  · exact ⟨⟨messageLines i x, newline_notMem_messageLines i x, hx.messageLines i⟩, hne,
      by rw [unlines_messageLines, List.append_nil]⟩
  · refine ⟨⟨messageLines i x ++ [[]], ?_, ?_⟩, List.append_ne_nil_of_left_ne_nil hne _, ?_⟩
    · exact List.forall_mem_append.mpr ⟨newline_notMem_messageLines i x,
        List.forall_mem_singleton.mpr List.not_mem_nil⟩
    · exact List.forall_mem_append.mpr ⟨hx.messageLines i,
        List.forall_mem_singleton.mpr (commented_nil c)⟩
    · rw [unlines_append, unlines_messageLines]
      rfl

/-! ## What is deleted -/

/-- Deleting the message leaves what separates it from the comments, and these. -/
theorem deleteMessage_body (body : Body c) (comments : Comments c) :
    deleteMessage c (unlines body.lines ++ comments.text) = body.rest ++ comments.text := by
  rw [deleteMessage, searchLine_unlines body.newline_notMem body.uncommented, comments.searchLine,
    Body.rest]
  rcases List.eq_nil_or_concat body.lines with hnil | ⟨lines, line, hconcat⟩
  · rw [hnil, if_pos rfl]
    exact deleteText_self _ _
  · have hlast : unlines body.lines = unlines lines ++ line ++ ['\n'] := by
      rw [hconcat, List.concat_eq_append, unlines_append, unlines_cons, unlines_nil,
        List.append_assoc]
    have hne : body.lines ≠ [] := by
      rw [hconcat, List.concat_eq_append]
      exact List.concat_ne_nil _ _
    have htext : unlines lines ++ line ++ ['\n'] ++ comments.text
        = [] ++ (unlines lines ++ line) ++ (['\n'] ++ comments.text) := by
      simp only [List.nil_append, List.append_assoc]
    rw [if_neg hne, hlast]
    refine (deleteText_append htext rfl ?_).trans (List.nil_append _)
    simp only [List.length_append, List.length_nil, List.length_singleton]
    omega

/-! ## What one step keeps -/

/-- A message is remembered if the ring does not have it. -/
theorem remember_of_some (h : gitCommitBufferMessage c b.text = some m) (n : ℤ) :
    remember c b n = if m ∈ b.ring.items then (b.ring, n) else (b.ring.insert m, n + 1) := by
  rw [remember, h]
  simp only [LispRing.member_eq_none_iff]
  by_cases hmem : m ∈ b.ring.items
  · rw [if_neg (not_not_intro hmem), if_pos hmem]
  · rw [if_pos hmem, if_neg hmem]

theorem remember_of_none (h : gitCommitBufferMessage c b.text = none) (n : ℤ) :
    remember c b n = (b.ring, n) := by
  rw [remember, h]

theorem Kept.insert (hkept : Kept c r) (h : gitCommitBufferMessage c m = some m)
    (hmem : m ∉ r.items) : Kept c (r.insert m) where
  nodup := LispRing.nodup_insert hkept.nodup hmem
  read := LispRing.forall_insert hkept.read h

/-- The ring stays well formed when the message of the buffer is remembered. -/
theorem kept_remember (hkept : Kept c b.ring) (n : ℤ) : Kept c (remember c b n).1 := by
  cases hm : gitCommitBufferMessage c b.text with
  | none =>
    rw [remember_of_none hm]
    exact hkept
  | some m =>
    rw [remember_of_some hm]
    split_ifs with hmem
    · exact hkept
    · exact hkept.insert (gitCommitBufferMessage_self hm) hmem

/-- The message of the buffer is in the ring afterwards. -/
theorem mem_remember (h : gitCommitBufferMessage c b.text = some m) (n : ℤ) :
    m ∈ (remember c b n).1.items := by
  rw [remember_of_some h]
  split_ifs with hmem
  · exact hmem
  · exact LispRing.mem_insert_self _ _

/-- A ring with messages still has some afterwards. -/
theorem length_remember_pos (hlen : 0 < b.ring.length) (n : ℤ) :
    0 < (remember c b n).1.length := by
  cases hm : gitCommitBufferMessage c b.text with
  | none =>
    rw [remember_of_none hm]
    exact hlen
  | some m => exact List.length_pos_of_mem (mem_remember hm n)

/-- With messages in the ring, the buffer gets the one at the new index. -/
theorem gitCommitPrevMessage_eq (hlen : 0 < b.ring.length) (n : ℤ) :
    gitCommitPrevMessage c n b = ⟨insertText (deleteMessage c b.text) 1
        (((remember c b n).1.ref (logEditNewCommentIndex b.index (remember c b n).2
          (remember c b n).1.length)).getD []),
      some (logEditNewCommentIndex b.index (remember c b n).2 (remember c b n).1.length),
      (remember c b n).1⟩ := if_neg (Nat.ne_of_gt hlen)

theorem insertText_one (text piece : List Char) : insertText text 1 piece = piece ++ text := by
  have htext : text = [] ++ text := rfl
  exact insertText_append htext rfl

/-- What cycling does: it keeps the message of the buffer, and shows one of the ring instead. -/
theorem exists_gitCommitPrevMessage (htext : b.text = unlines body.lines ++ comments.text)
    (hlen : 0 < b.ring.length) (n : ℤ) : ∃ m ∈ (remember c b n).1.items,
      (remember c b n).1.ref (logEditNewCommentIndex b.index (remember c b n).2
        (remember c b n).1.length) = some m
      ∧ gitCommitPrevMessage c n b = ⟨m ++ body.rest ++ comments.text,
        some (logEditNewCommentIndex b.index (remember c b n).2 (remember c b n).1.length),
        (remember c b n).1⟩ := by
  obtain ⟨m, hmem, href⟩ := LispRing.exists_ref (length_remember_pos (c := c) hlen n)
    (logEditNewCommentIndex b.index (remember c b n).2 (remember c b n).1.length)
  refine ⟨m, hmem, href, ?_⟩
  rw [gitCommitPrevMessage_eq hlen, href, htext, deleteMessage_body, insertText_one,
    List.append_assoc m, Option.getD_some]

theorem gitCommitPrevMessage_of_empty (hlen : b.ring.length = 0) (n : ℤ) :
    gitCommitPrevMessage c n b = b := if_pos hlen

/-- `git-commit-prev-message` keeps the ring well formed. -/
theorem kept_gitCommitPrevMessage (hkept : Kept c b.ring) (n : ℤ) :
    Kept c (gitCommitPrevMessage c n b).ring := by
  rw [gitCommitPrevMessage]
  split
  · exact hkept
  · exact kept_remember hkept n

/-- `git-commit-save-message` keeps the ring well formed. -/
theorem kept_gitCommitSaveMessage (hkept : Kept c b.ring) :
    Kept c (gitCommitSaveMessage c b).ring := by
  cases hm : gitCommitBufferMessage c b.text with
  | none =>
    rw [gitCommitSaveMessage, hm]
    exact hkept
  | some m =>
    have hself := gitCommitBufferMessage_self hm
    cases hi : b.ring.member m with
    | none =>
      have hring : (gitCommitSaveMessage c b).ring = b.ring.insert m := by
        rw [gitCommitSaveMessage, hm]
        simp only [hi]
      rw [hring]
      exact hkept.insert hself (LispRing.member_eq_none_iff.mp hi)
    | some i =>
      have hring : (gitCommitSaveMessage c b).ring = (b.ring.remove i).insert m := by
        rw [gitCommitSaveMessage, hm]
        simp only [hi]
      have hitems := LispRing.items_remove_member hi
      rw [hring]
      refine Kept.insert ⟨?_, ?_⟩ hself ?_
      · rw [hitems]
        exact hkept.nodup.erase m
      · intro m' hm'
        rw [hitems] at hm'
        exact hkept.read m' (List.mem_of_mem_erase hm')
      · rw [hitems]
        exact hkept.nodup.not_mem_erase

/-- Every event keeps the ring well formed. -/
theorem kept_step (h : Kept c b.ring) (event : Event) : Kept c (step c b event).ring := by
  cases event with
  | prev n => exact kept_gitCommitPrevMessage h n
  | next n => exact kept_gitCommitPrevMessage h (-n)
  | save => exact kept_gitCommitSaveMessage h
  | edited text => exact h
  | opened text => exact h

/-- **In every state of a run the ring is well formed.** -/
theorem kept_run (c : CommentStart) (size : ℕ) (hsize : 0 < size) (text : List Char)
    (events : List Event) : Kept c (run c size hsize text events).ring := by
  have hstart : Kept c (⟨text, none, LispRing.make size hsize⟩ : CommitBuffer).ring :=
    ⟨List.nodup_nil, fun _ h => absurd h List.not_mem_nil⟩
  rw [run]
  generalize (⟨_, _, _⟩ : CommitBuffer) = b at hstart
  induction events generalizing b with
  | nil => exact hstart
  | cons event events ih => exact ih (step c b event) (kept_step hstart event)

/-- **Over every run of cycling, saving, edits and new commits, the ring holds messages that are
read as themselves, each once, and cycling keeps the message that was in the buffer.  Where that is
lines that are no comments, above the comments, it shows one of the ring above the same comments
instead, where it is read again.** -/
theorem messageRing_run (c : CommentStart) (size : ℕ) (hsize : 0 < size) (text : List Char)
    (events : List Event) :
    let b := run c size hsize text events
    (∀ m ∈ b.ring.items, gitCommitBufferMessage c m = some m) ∧ b.ring.items.Nodup
      ∧ (∀ n, 0 < b.ring.length → ∀ m ∈ gitCommitBufferMessage c b.text,
        m ∈ (gitCommitPrevMessage c n b).ring.items)
      ∧ ∀ (body : Body c) (comments : Comments c), b.text = unlines body.lines ++ comments.text →
        ∀ n, 0 < b.ring.length →
          ∃ m index, (gitCommitPrevMessage c n b).index = some index
            ∧ (gitCommitPrevMessage c n b).ring.ref index = some m
            ∧ (gitCommitPrevMessage c n b).text = m ++ body.rest ++ comments.text
            ∧ gitCommitBufferMessage c (gitCommitPrevMessage c n b).text = some m := by
  have hkept := kept_run c size hsize text events
  intro b
  refine ⟨hkept.read, hkept.nodup, fun n hlen m hm => ?_, fun body comments htext n hlen => ?_⟩
  · rw [gitCommitPrevMessage_eq hlen]
    exact mem_remember hm n
  · obtain ⟨m, hmem, href, heq⟩ := exists_gitCommitPrevMessage htext hlen n
    have hread := (kept_remember hkept n).read m hmem
    rw [heq]
    exact ⟨m, _, rfl, href, rfl, gitCommitBufferMessage_shown hread body comments⟩

/-- Another message of one line. -/
def addTest : Body .hash := .ofLine "Add test".toList (by decide) rfl

/-- The first message is saved, and the second one is being written. -/
def secondCommit : List Event := [.save, .opened (unlines addTest.lines ++ pleaseEnter.text)]

/-- That run. -/
def secondRun : CommitBuffer :=
  run .hash 2 Nat.two_pos (unlines fixBug.lines ++ pleaseEnter.text) secondCommit

theorem messageRing_run_secondCommit : ∃ m index,
    (gitCommitPrevMessage .hash 1 secondRun).index = some index
      ∧ (gitCommitPrevMessage .hash 1 secondRun).ring.ref index = some m
      ∧ (gitCommitPrevMessage .hash 1 secondRun).text = m ++ addTest.rest ++ pleaseEnter.text
      ∧ gitCommitBufferMessage .hash (gitCommitPrevMessage .hash 1 secondRun).text = some m :=
  (messageRing_run .hash 2 Nat.two_pos (unlines fixBug.lines ++ pleaseEnter.text)
    secondCommit).2.2.2 addTest pleaseEnter rfl 1 (by decide)

/-! ## Cycling several times -/

/-- A buffer that shows a message of the ring. -/
structure Shown (comments : Comments c) (b : CommitBuffer) (i : ℤ) : Prop where
  kept : Kept c b.ring
  length_pos : 0 < b.ring.length
  index : b.index = some i
  deleted : deleteMessage c b.text = '\n' :: comments.text
  remembered : ∀ n, remember c b n = (b.ring, n)

/-- An empty line. -/
def Body.newline : Body c where
  lines := [[]]
  newline_notMem := List.forall_mem_singleton.mpr List.not_mem_nil
  uncommented := List.forall_mem_singleton.mpr (commented_nil c)

theorem Body.rest_newline : (Body.newline : Body c).rest = ['\n'] := if_neg (List.cons_ne_nil _ _)

/-- What cycling by `n` then comes to. -/
def cycled (comments : Comments c) (r : LispRing (List Char)) (i : ℤ) : CommitBuffer :=
  ⟨(r.ref i).getD [] ++ '\n' :: comments.text, some (i % r.length), r⟩

/-- A buffer with a message of the ring above the comments shows it. -/
theorem shown_of_mem (hkept : Kept c r) (hmem : m ∈ r.items) (body : Body c)
    (comments : Comments c) (i : ℤ) :
    Shown comments ⟨m ++ body.rest ++ comments.text, some i, r⟩ i where
  kept := hkept
  length_pos := List.length_pos_of_mem hmem
  index := rfl
  deleted := by
    obtain ⟨body', hne, hbody⟩ := exists_body (hkept.read m hmem) body
    rw [← hbody, deleteMessage_body, Body.rest, if_neg hne]
    rfl
  remembered n := by
    have hread := gitCommitBufferMessage_shown (hkept.read m hmem) body comments
    rw [remember_of_some (b := ⟨m ++ body.rest ++ comments.text, some i, r⟩) hread, if_pos hmem]

/-- **From a shown message on, the command is a step in the ring.** -/
theorem Shown.prev {i : ℤ} (h : Shown comments b i) (n : ℤ) :
    gitCommitPrevMessage c n b = cycled comments b.ring (i + n) := by
  have hindex : logEditNewCommentIndex b.index n b.ring.length = (i + n) % b.ring.length := by
    rw [h.index]
    rfl
  rw [gitCommitPrevMessage_eq h.length_pos, h.remembered, hindex, LispRing.ref_emod, h.deleted,
    insertText_one, cycled]

theorem text_cycled {i : ℤ} (href : r.ref i = some m) :
    (cycled comments r i).text = m ++ (Body.newline : Body c).rest ++ comments.text := by
  rw [cycled, href, Body.rest_newline, List.append_assoc]
  rfl

/-- After a step the message at the index is shown. -/
theorem shown_cycled (hkept : Kept c r) (hlen : 0 < r.length) (comments : Comments c) (i : ℤ) :
    Shown comments (cycled comments r i) (i % r.length) := by
  obtain ⟨m, hmem, href⟩ := LispRing.exists_ref hlen i
  have hshown := shown_of_mem hkept hmem Body.newline comments (i % r.length)
  rw [← text_cycled href] at hshown
  exact hshown

/-- The index counts modulo the length of the ring. -/
theorem cycled_emod_add (comments : Comments c) (r : LispRing (List Char)) (i n : ℤ) :
    cycled comments r (i % r.length + n) = cycled comments r (i + n) := by
  have hmod : (i % r.length + n) % (r.length : ℤ) = (i + n) % r.length := by
    rw [Int.emod_add_emod]
  rw [cycled, cycled, ← LispRing.ref_emod, hmod, LispRing.ref_emod]

/-- Any number of steps are one by their sum. -/
theorem Shown.foldl {i : ℤ} (h : Shown comments b i) {ns : List ℤ} (hns : ns ≠ []) :
    ns.foldl (fun b n => gitCommitPrevMessage c n b) b = cycled comments b.ring (i + ns.sum) := by
  induction ns generalizing b i with
  | nil => exact absurd rfl hns
  | cons n ns ih =>
    rw [List.foldl_cons, h.prev]
    rcases ns with _ | ⟨n', ns⟩
    · rw [List.foldl_nil, List.sum_singleton]
    · rw [ih (shown_cycled h.kept h.length_pos comments (i + n)) (List.cons_ne_nil n' ns)]
      change cycled comments b.ring ((i + n) % b.ring.length + (n' :: ns).sum) = _
      rw [cycled_emod_add, List.sum_cons, List.sum_cons, List.sum_cons, Int.add_assoc]

/-- The message of a buffer that shows one of the ring. -/
theorem Shown.read_cycled {i : ℤ} (h : Shown comments b i) (n : ℤ) :
    gitCommitBufferMessage c (cycled comments b.ring (i + n)).text = b.ring.ref (i + n) := by
  obtain ⟨m, hmem, href⟩ := LispRing.exists_ref h.length_pos (i + n)
  rw [text_cycled href, href, gitCommitBufferMessage_shown (h.kept.read m hmem)]

/-- **Once a message of the ring is shown, cycling any number of times, forward and backward, is
cycling once by the sum of the steps.  It changes nothing in the ring, and all the way around it
returns to the message.** -/
theorem foldl_gitCommitPrevMessage (size : ℕ) (hsize : 0 < size) (text : List Char)
    (events : List Event) (body : Body c) (comments : Comments c)
    (htext : (run c size hsize text events).text = unlines body.lines ++ comments.text) (n : ℤ)
    {ns : List ℤ} (hns : ns ≠ []) :
    let b := gitCommitPrevMessage c n (run c size hsize text events)
    let b' := ns.foldl (fun b n => gitCommitPrevMessage c n b) b
    b' = gitCommitPrevMessage c ns.sum b ∧ b'.ring = b.ring
      ∧ ((b.ring.length : ℤ) ∣ ns.sum →
        gitCommitBufferMessage c b'.text = gitCommitBufferMessage c b.text) := by
  have hkept := kept_run c size hsize text events
  generalize run c size hsize text events = b₀ at hkept htext
  intro b b'
  rcases Nat.eq_zero_or_pos b₀.ring.length with hlen | hlen
  · have hsame : b = b₀ := gitCommitPrevMessage_of_empty hlen n
    have hfold : b' = b := by
      have hstay : ∀ n, gitCommitPrevMessage c n b = b :=
        gitCommitPrevMessage_of_empty (hsame ▸ hlen)
      exact List.foldl_fixed' hstay ns
    rw [hfold]
    exact ⟨(gitCommitPrevMessage_of_empty (hsame ▸ hlen) _).symm, rfl, fun _ => rfl⟩
  · obtain ⟨m, hmem, href, heq⟩ := exists_gitCommitPrevMessage htext hlen n
    have hread := gitCommitBufferMessage_shown ((kept_remember hkept n).read m hmem) body comments
    have hshown := shown_of_mem (kept_remember hkept n) hmem body comments
      (logEditNewCommentIndex b₀.index (remember c b₀ n).2 (remember c b₀ n).1.length)
    rw [← heq] at hshown
    have hfold : b' = cycled comments b.ring _ := hshown.foldl hns
    refine ⟨hfold.trans (hshown.prev ns.sum).symm, hfold ▸ rfl, ?_⟩
    rintro ⟨k, hk⟩
    have hb : gitCommitBufferMessage c b.text = some m := by
      rw [show b = _ from heq]
      exact hread
    rw [hfold, hshown.read_cycled, hk, ← LispRing.ref_emod, Int.add_mul_emod_self_left,
      LispRing.ref_emod, hb, heq]
    exact href

theorem foldl_gitCommitPrevMessage_secondCommit :
    let b := gitCommitPrevMessage .hash 1 secondRun
    let b' := [1, 1, -2].foldl (fun b n => gitCommitPrevMessage .hash n b) b
    gitCommitBufferMessage .hash b'.text = gitCommitBufferMessage .hash b.text :=
  (foldl_gitCommitPrevMessage 2 Nat.two_pos (unlines fixBug.lines ++ pleaseEnter.text) secondCommit
    addTest pleaseEnter rfl 1 (List.cons_ne_nil 1 [1, -2])).2.2 (Int.dvd_zero _)

end Magit.GitCommit
