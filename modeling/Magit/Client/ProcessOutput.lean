import Magit.Client.ProcessLog

/-!
# Client/ProcessOutput — every process's output stays in its own section

The process buffer is the text of its sections, one after the other (`Laid`), and each change is
made inside of one of them.
-/

namespace Magit.ProcessLog

open Emacs Process

/-! ## Sections one after the other -/

/-- The text of a section: its heading, and what follows it if the slot `content` is set.  One is
live until its subprocess has ended. -/
structure Piece where
  head : List Char
  body : Option (List Char)
  live : Bool

/-- What a piece takes of the buffer. -/
def Piece.text (p : Piece) : List Char := p.head ++ p.body.getD []

/-- What pieces take of it. -/
def texts (ps : List Piece) : List Char := ps.flatMap Piece.text

/-- What is left to do for a live section: its output is inserted in front of the last newline, and
the exit code takes the place of what its heading begins with. -/
structure Piece.Live (p : Piece) (off : ℕ) (s : Section) : Prop where
  head : ∃ rest, p.head = "run".toList ++ (rest ++ ['\n'])
  body : ∃ out, p.body = some (out ++ ['\n'])
  mark : ∀ q, s.process = some q → q.mark = ⟨off + p.text.length - 1, false⟩

/-- The section has the text, from a position on. -/
structure Piece.At (p : Piece) (off : ℕ) (s : Section) : Prop where
  start : s.start = ⟨off, true⟩
  content : s.content = p.body.map fun _ => ⟨off + p.head.length, false⟩
  fin : s.fin = some ⟨off + p.text.length, false⟩
  head : p.head ≠ []
  live : p.live = true → p.Live off s
  ended : p.live = false → ∀ q, s.process = some q → q.status = .exit

/-- Sections stand where the pieces do, one behind the other from an offset on. -/
inductive LaidOut : ℕ → List Piece → List Section → Prop
  | nil (off : ℕ) : LaidOut off [] []
  | cons {off : ℕ} {p : Piece} {s : Section} {ps : List Piece} {ss : List Section}
      (hs : p.At off s) (hrest : LaidOut (off + p.text.length) ps ss) :
      LaidOut off (p :: ps) (s :: ss)

/-- The sections of the buffer have these texts, one after the other, and a newline follows. -/
def Laid (b : Buffer) (ps : List Piece) : Prop :=
  b.text = texts ps ++ ['\n'] ∧ ∃ r ss, b.sections = r :: ss ∧ LaidOut 1 ps ss

@[simp] theorem texts_nil : texts [] = [] := rfl

@[simp] theorem texts_cons (p : Piece) (ps : List Piece) : texts (p :: ps) = p.text ++ texts ps := rfl

theorem texts_append (ps qs : List Piece) : texts (ps ++ qs) = texts ps ++ texts qs :=
  List.flatMap_append

variable {off off' beg fin fin' : ℕ} {f : Marker → Marker} {p p' : Piece} {s s' r r' : Section}
  {ps pre post : List Piece} {ss ss₁ ss₂ : List Section} {b b' : Buffer}

@[simp] theorem Section.move_start : (s.move f).start = f s.start := rfl

@[simp] theorem Section.move_content : (s.move f).content = s.content.map f := rfl

@[simp] theorem Section.move_fin : (s.move f).fin = s.fin.map f := rfl

@[simp] theorem Section.move_process : (s.move f).process =
    s.process.map fun q => { q with mark := f q.mark } := rfl

theorem Section.move_move (f g : Marker → Marker) (s : Section) :
    (s.move f).move g = s.move (g ∘ f) := by
  simp only [Section.move, Option.map_map, Function.comp_def]

theorem Piece.length_head_le (p : Piece) : p.head.length ≤ p.text.length :=
  (List.prefix_append _ _).length_le

theorem Piece.At.length_pos (h : p.At off s) : 0 < p.text.length :=
  (List.length_pos_iff.mpr h.head).trans_le p.length_head_le

/-- A section in front of a change stays as it is. -/
theorem Piece.At.before (h : p.At off s) (hf : Marker.Within f beg fin fin')
    (hbeg : off + p.text.length ≤ beg) : p.At off (s.move f) := by
  have hpos := h.length_pos
  have hhead := p.length_head_le
  refine ⟨?_, ?_, ?_, h.head, fun hlive => ⟨(h.live hlive).head, (h.live hlive).body, ?_⟩, ?_⟩
  · rw [Section.move_start, h.start]
    exact hf.before _ (Or.inl (by simp only; omega))
  · rw [Section.move_content, h.content, Option.map_map]
    refine congrArg (Option.map · _) (funext fun _ => hf.before _ ?_)
    rcases Nat.lt_or_ge (off + p.head.length) beg with hlt | hge
    · exact Or.inl hlt
    · exact Or.inr ⟨by simp only; omega, rfl⟩
  · rw [Section.move_fin, h.fin, Option.map_some, hf.before]
    rcases Nat.lt_or_eq_of_le hbeg with hlt | heq
    · exact Or.inl hlt
    · exact Or.inr ⟨heq, rfl⟩
  · rintro q hq
    obtain ⟨q', hq', rfl⟩ := Option.map_eq_some_iff.mp hq
    simp only [(h.live hlive).mark q' hq']
    exact hf.before _ (Or.inl (by simp only; omega))
  · rintro hended q hq
    obtain ⟨q', hq', rfl⟩ := Option.map_eq_some_iff.mp hq
    exact h.ended hended q' hq'

/-- A section behind a change moves with the text there. -/
theorem Piece.At.behind (h : p.At off s) (hf : Marker.Within f beg fin fin') (hfin : fin ≤ off) :
    p.At (off - fin + fin') (s.move f) := by
  have hpos := h.length_pos
  have hshift : ∀ n, off + n - fin + fin' = off - fin + fin' + n := by omega
  refine ⟨?_, ?_, ?_, h.head, fun hlive => ⟨(h.live hlive).head, (h.live hlive).body, ?_⟩, ?_⟩
  · rw [Section.move_start, h.start]
    exact hf.behind _ hfin
  · rw [Section.move_content, h.content, Option.map_map]
    refine congrArg (Option.map · _) (funext fun _ => ?_)
    rw [Function.comp_apply, hf.behind _ (by simp only; omega)]
    exact congrArg (Marker.mk · _) (hshift _)
  · rw [Section.move_fin, h.fin, Option.map_some, hf.behind _ (by simp only; omega)]
    exact congrArg (fun n => some (Marker.mk n _)) (hshift _)
  · rintro q hq
    obtain ⟨q', hq', rfl⟩ := Option.map_eq_some_iff.mp hq
    simp only [(h.live hlive).mark q' hq']
    rw [hf.behind _ (by simp only; omega)]
    exact congrArg (Marker.mk · _) (by simp only; omega)
  · rintro hended q hq
    obtain ⟨q', hq', rfl⟩ := Option.map_eq_some_iff.mp hq
    exact h.ended hended q' hq'

/-- What ends in front of a change stays where it is. -/
theorem LaidOut.before (h : LaidOut off ps ss) (hf : Marker.Within f beg fin fin')
    (hbeg : off + (texts ps).length ≤ beg) : LaidOut off ps (ss.map (·.move f)) := by
  induction h with
  | nil off => exact LaidOut.nil off
  | cons hs hrest ih =>
    rw [texts_cons, List.length_append] at hbeg
    exact LaidOut.cons (hs.before hf (by omega)) (ih (by omega))

/-- What begins behind a change moves by as much. -/
theorem LaidOut.behind (h : LaidOut off ps ss) (hf : Marker.Within f beg fin fin')
    (hfin : fin ≤ off) : LaidOut (off - fin + fin') ps (ss.map (·.move f)) := by
  induction h with
  | nil off => exact LaidOut.nil _
  | @cons off p s ps ss hs hrest ih =>
    refine LaidOut.cons (hs.behind hf hfin) ?_
    have hoff : off + p.text.length - fin + fin' = off - fin + fin' + p.text.length := by omega
    rw [← hoff]
    exact ih (by omega)

/-- Pieces laid out one after the other are laid out together. -/
theorem LaidOut.append (h : LaidOut off pre ss₁)
    (h' : LaidOut (off + (texts pre).length) post ss₂) : LaidOut off (pre ++ post) (ss₁ ++ ss₂) := by
  induction h with
  | nil off => exact h'
  | cons hs hrest ih =>
    refine LaidOut.cons hs (ih ?_)
    rwa [texts_cons, List.length_append, ← Nat.add_assoc] at h'

/-- Pieces that are laid out together are laid out one after the other. -/
theorem LaidOut.split (h : LaidOut off (pre ++ post) ss) :
    ∃ ss₁ ss₂, ss = ss₁ ++ ss₂ ∧ ss₁.length = pre.length ∧ LaidOut off pre ss₁ ∧
      LaidOut (off + (texts pre).length) post ss₂ := by
  induction pre generalizing off ss with
  | nil => exact ⟨[], ss, rfl, rfl, LaidOut.nil off, h⟩
  | cons p pre ih =>
    rcases h with _ | @⟨_, _, s, _, ss, hs, hrest⟩
    obtain ⟨ss₁, ss₂, rfl, hlength, h₁, h₂⟩ := ih hrest
    refine ⟨s :: ss₁, ss₂, rfl, congrArg (· + 1) hlength, LaidOut.cons hs h₁, ?_⟩
    rwa [texts_cons, List.length_append, ← Nat.add_assoc]

theorem LaidOut.length_eq (h : LaidOut off ps ss) : ss.length = ps.length := by
  induction h with
  | nil => rfl
  | cons hs hrest ih => exact congrArg (· + 1) ih

/-- A section of the buffer, and what is in front of it and behind it. -/
theorem Laid.split (h : Laid b (pre ++ p :: post)) :
    b.text = texts pre ++ p.text ++ (texts post ++ ['\n']) ∧
    ∃ off r ss₁ s ss₂, off = 1 + (texts pre).length ∧ b.sections = r :: (ss₁ ++ s :: ss₂) ∧
      ss₁.length = pre.length ∧ LaidOut 1 pre ss₁ ∧ p.At off s ∧
      LaidOut (off + p.text.length) post ss₂ := by
  obtain ⟨htext, r, ss, hsections, hlaid⟩ := h
  obtain ⟨ss₁, ss₂, rfl, hlength, h₁, h₂⟩ := hlaid.split
  rcases h₂ with _ | @⟨_, _, s, _, ss₂, hs, hpost⟩
  refine ⟨?_, _, r, ss₁, s, ss₂, rfl, hsections, hlength, h₁, hs, hpost⟩
  rw [htext, texts_append, texts_cons, List.append_assoc, List.append_assoc, List.append_assoc]

/-- The text of one section has changed. -/
theorem laid_of_within (hoff : off = 1 + (texts pre).length) (hpre : LaidOut 1 pre ss₁)
    (hs : p'.At off s') (hpost : LaidOut (off + p.text.length) post ss₂)
    (hf : Marker.Within f off (off + p.text.length) (off + p'.text.length))
    (htext : b'.text = texts pre ++ p'.text ++ (texts post ++ ['\n']))
    (hsections : b'.sections = r' :: (ss₁.map (·.move f) ++ s' :: ss₂.map (·.move f))) :
    Laid b' (pre ++ p' :: post) := by
  refine ⟨?_, r', _, hsections, (hpre.before hf hoff.ge).append ?_⟩
  · rw [htext, texts_append, texts_cons, List.append_assoc, List.append_assoc, List.append_assoc]
  · have hbehind := hpost.behind hf le_rfl
    rw [Nat.sub_self, Nat.zero_add] at hbehind
    exact hoff ▸ LaidOut.cons hs hbehind

/-! ## Output -/

theorem modify_length_append {α : Type} (l l' : List α) (a : α) (g : α → α) :
    (l ++ a :: l').modify l.length g = l ++ g a :: l' := by
  induction l with
  | nil => rfl
  | cons x l ih => exact congrArg (x :: ·) ih

/-- One of the sections is changed. -/
theorem modify_split {n : ℕ} (h : ss = r :: (ss₁ ++ s :: ss₂)) (hlength : ss₁.length = n)
    (g : Section → Section) : ss.modify (n + 1) g = r :: (ss₁ ++ g s :: ss₂) := by
  subst h hlength
  exact modify_length_append (r :: ss₁) ss₂ s g

theorem map_split (h : ss = r :: (ss₁ ++ s :: ss₂)) (g : Section → Section) :
    ss.map g = g r :: (ss₁.map g ++ g s :: ss₂.map g) := by
  rw [h, List.map_cons, List.map_append, List.map_cons]

theorem getElem?_split {n : ℕ} (h : ss = r :: (ss₁ ++ s :: ss₂)) (hlength : ss₁.length = n) :
    ss[n + 1]? = some s := by
  rw [h, ← hlength, List.getElem?_cons_succ, List.getElem?_append_right le_rfl, Nat.sub_self]
  rfl

/-- Deleting a region that is within the buffer. -/
theorem Buffer.deleteRegion_eq (h : beg ≤ fin) (hfin : fin ≤ b.pointMax) :
    b.deleteRegion beg fin = some { b with
      text := deleteText b.text beg fin
      point := (Marker.deleted beg fin ⟨b.point, false⟩).pos
      sections := b.sections.map (·.move (·.deleted beg fin)) } :=
  if_pos ⟨h, hfin⟩

theorem Section.move_id (s : Section) : s.move (fun m => m) = s := by
  rcases s with ⟨_, _, _, _ | _, _ | _, _, _ | _⟩ <;> rfl

theorem Buffer.deleteRegion_self {p : ℕ} (h : p ≤ b.pointMax) : b.deleteRegion p p = some b := by
  rw [deleteRegion_eq le_rfl h, deleteText_self]
  simp only [Marker.deleted_self, Section.move_id, List.map_id']

theorem Buffer.gotoChar_eq {p : ℕ} (h : 1 ≤ p) (hp : p ≤ b.pointMax) :
    b.gotoChar p = { b with point := p } := by
  rw [gotoChar, min_eq_left hp, max_eq_right h]

/-- The text in front of point is replaced. -/
theorem Buffer.map_insert_deleteRegion {q n : ℕ} (piece : List Char) (hpoint : b.point = q + n)
    (hmax : q + n ≤ b.pointMax) :
    (b.deleteRegion q (q + n)).map (insert piece) = some
      { b with
        text := insertText (deleteText b.text q (q + n)) q piece
        point := q + piece.length
        sections := b.sections.map
          (·.move ((·.inserted q piece.length) ∘ (·.deleted q (q + n)))) } := by
  have hdeleted : (Marker.deleted q (q + n) ⟨b.point, false⟩).pos = q := by
    rw [hpoint, Marker.deleted_of_ge (Nat.le_add_right _ _) le_rfl]
    simp
  rw [deleteRegion_eq (Nat.le_add_right _ _) hmax, Option.map_some, insert]
  simp only [hdeleted, List.map_map, Function.comp_def, Section.move_move]

/-- A change behind the heading, of a section whose process mark is then set again. -/
theorem Piece.At.setProcessMark {body out : List Char} (hs : p.At off s)
    (hbody : p.body = some body) (hlive : p.live = true)
    (hp' : p' = { p with body := some (out ++ ['\n']) })
    (hf : Marker.Within f (off + p.head.length) (off + p.text.length) (off + p'.text.length))
    (hadvances : ∀ m, (f m).advances = m.advances) :
    p'.At off ((s.move f).setProcessMark (off + p'.text.length - 1)) := by
  have hhead := List.length_pos_iff.mpr hs.head
  have hbody' : p'.body = some (out ++ ['\n']) := by rw [hp']
  have hhead' : p'.head = p.head := by rw [hp']
  refine ⟨?_, ?_, ?_, hhead' ▸ hs.head, fun _ => ⟨hhead' ▸ (hs.live hlive).head, ⟨out, hbody'⟩, ?_⟩, ?_⟩
  · rw [Section.setProcessMark, Section.move_start, hs.start]
    exact hf.before _ (Or.inl (by simp only; omega))
  · rw [Section.setProcessMark, Section.move_content, hs.content, hbody, hbody', hhead']
    exact congrArg some (hf.before _ (Or.inr ⟨rfl, rfl⟩))
  · rw [Section.setProcessMark, Section.move_fin, hs.fin, Option.map_some, hf.behind _ le_rfl]
    exact congrArg (fun n => some (Marker.mk n _)) (by simp only; omega)
  · rintro q hq
    obtain ⟨q', hq', rfl⟩ := Option.map_eq_some_iff.mp hq
    obtain ⟨q'', hq'', rfl⟩ := Option.map_eq_some_iff.mp hq'
    simp only [hadvances, (hs.live hlive).mark q'' hq'']
  · rintro hended
    rw [hp'] at hended
    exact absurd (hlive.symm.trans hended) Bool.false_ne_true.symm

/-- The end of the output is replaced, and the process mark set behind it. -/
theorem Laid.replace (kept gone : List Char) {piece : List Char} {q : ℕ} (h : Laid b (pre ++ p :: post))
    (hlive : p.live = true) (hbody : p.body = some (kept ++ gone ++ ['\n']))
    (hq : q = (texts pre ++ p.head ++ kept).length + 1)
    (htext : b'.text = insertText (deleteText b.text q (q + gone.length)) q piece)
    (hsections : b'.sections = (b.sections.map
      (·.move ((·.inserted q piece.length) ∘ (·.deleted q (q + gone.length))))).modify
        (pre.length + 1) (·.setProcessMark (q + piece.length))) :
    Laid b' (pre ++ { p with body := some (kept ++ piece ++ ['\n']) } :: post) := by
  obtain ⟨hbuffer, off, r, ss₁, s, ss₂, hoff, hss, hlength, hpre, hs, hpost⟩ := h.split
  rw [Piece.text, hbody, Option.getD_some] at hbuffer
  obtain ⟨p', hp'⟩ : ∃ p' : Piece, p' = { p with body := some (kept ++ piece ++ ['\n']) } := ⟨_, rfl⟩
  have hfin : off + p.text.length = q + gone.length + 1 := by
    simp only [Piece.text, hbody, hoff, hq, Option.getD_some, List.length_append,
      List.length_singleton]
    omega
  have hfin' : off + p'.text.length = q + piece.length + 1 := by
    simp only [Piece.text, hp', hoff, hq, Option.getD_some, List.length_append,
      List.length_singleton]
    omega
  have hcontent : off + p.head.length ≤ q := by
    simp only [hoff, hq, List.length_append]
    omega
  -- Markers up to the slot `content` stay, and the end of the section moves.
  have hf : Marker.Within ((·.inserted q piece.length) ∘ (·.deleted q (q + gone.length)))
      (off + p.head.length) (off + p.text.length) (off + p'.text.length) := by
    have hdeleted : Marker.Within (·.deleted q (q + gone.length)) (off + p.head.length)
        (off + p.text.length) (q + 1) := by
      have hlength : q + 1 = off + p.text.length - (q + gone.length - q) := by omega
      rw [hlength]
      exact Marker.within_deleted hcontent (by omega) (by omega)
    have hinserted : Marker.Within (·.inserted q piece.length) (off + p.head.length) (q + 1)
        (off + p'.text.length) := by
      rw [hfin', Nat.add_right_comm]
      exact Marker.within_inserted _ hcontent (by omega)
    exact hinserted.comp hdeleted
  have hs' := hs.setProcessMark hbody hlive hp' hf fun m => by simp
  have hmark : off + p'.text.length - 1 = q + piece.length := by omega
  rw [hmark] at hs'
  have hmodify := hsections.trans
    (modify_split (map_split hss _) (by rwa [List.length_map]) (·.setProcessMark _))
  have htexts : b.text = texts pre ++ p.head ++ kept ++ gone ++ ('\n' :: (texts post ++ ['\n'])) := by
    simp [hbuffer]
  have hgone : q + gone.length = (texts pre ++ p.head ++ kept).length + gone.length + 1 := by
    rw [hq, Nat.add_right_comm]
  rw [← hp']
  refine laid_of_within hoff hpre hs' hpost (hf.of_le (Nat.le_add_right _ _)) ?_ hmodify
  rw [htext, insertText_append (deleteText_append htexts hq hgone) hq, Piece.text, hp']
  simp

variable {σ : Settings} {out string : List Char}

/-- A line of the output begins in the output. -/
theorem Piece.Live.completed_append (h : p.Live off s) (before out : List Char) :
    completed (before ++ p.head ++ out) = before ++ p.head ++ completed out := by
  obtain ⟨rest, hrest⟩ := h.head
  have hhead : ∀ more, before ++ p.head ++ more = before ++ "run".toList ++ rest ++ '\n' :: more := by
    intro more
    simp [hrest]
  rw [hhead, hhead, completed_newline_append]

/-- A section whose process is running has one. -/
theorem Buffer.exists_process {i : ℕ} (h : b.running i = true) (hs : b.sections[i]? = some s) :
    ∃ q, s.process = some q ∧ q.status = .run := by
  rw [Buffer.running, Buffer.process, hs, Option.bind_some] at h
  rcases hnone : s.process with _ | q
  · rw [hnone] at h
    cases h
  · rw [hnone] at h
    exact ⟨q, rfl, of_decide_eq_true h⟩

/-- **Output stays in its own section**, where it is processed as if there were no other. -/
theorem Laid.filter (h : Laid b (pre ++ p :: post)) (hlive : p.live = true)
    (hbody : p.body = some (out ++ ['\n'])) (hrunning : b.running (pre.length + 1) = true) :
    ∃ b', magitProcessFilter σ.fold (pre.length + 1) string b = some b' ∧
      Laid b' (pre ++ { p with
        body := some (Process.magitProcessFilter σ.fold out string ++ ['\n']) } :: post) := by
  obtain ⟨htext, off, r, ss₁, s, ss₂, hoff, hss, hlength, hpre, hs, hpost⟩ := h.split
  rw [Piece.text, hbody, Option.getD_some] at htext
  -- The part of the output that a carriage return deletes.
  obtain ⟨kept, gone, hkept, hgone⟩ : ∃ kept gone, out = kept ++ gone ∧
      kept = if '\r' ∈ string then completed out else out := by
    split
    · exact ⟨_, _, List.rdropWhile_append_rtakeWhile.symm, rfl⟩
    · exact ⟨out, [], (List.append_nil out).symm, rfl⟩
  obtain ⟨q, hq⟩ : ∃ q, q = (texts pre ++ p.head ++ kept).length + 1 := ⟨_, rfl⟩
  have hout : q + gone.length = (texts pre ++ p.head ++ out).length + 1 := by
    rw [hq, hkept]
    simp only [List.length_append]
    omega
  have htexts : b.text = texts pre ++ p.head ++ out ++ '\n' :: (texts post ++ ['\n']) := by
    simp [htext]
  have hmax : q + gone.length ≤ b.pointMax := by
    rw [Buffer.pointMax, htexts, hout]
    simp
  have hsection : b.sections[pre.length + 1]? = some s := getElem?_split hss hlength
  obtain ⟨proc, hproc, -⟩ := Buffer.exists_process hrunning hsection
  have hmark : proc.mark.pos = q + gone.length := by
    rw [(hs.live hlive).mark proc hproc, hout, hoff, Piece.text, hbody]
    simp only [Option.getD_some, List.length_append, List.length_singleton]
    omega
  have hgoto : b.gotoChar proc.mark.pos = { b with point := q + gone.length } := by
    rw [hmark]
    exact Buffer.gotoChar_eq (by omega) hmax
  have hdelete : (if '\r' ∈ string then
        Buffer.deleteRegion (lineBeginning b.text (q + gone.length)) (q + gone.length)
          { b with point := q + gone.length }
      else some { b with point := q + gone.length })
      = Buffer.deleteRegion q (q + gone.length) { b with point := q + gone.length } := by
    by_cases hreturn : '\r' ∈ string
    · rw [if_pos hreturn] at hgone
      rw [if_pos hreturn, lineBeginning_append htexts hout, (hs.live hlive).completed_append,
        ← hgone, ← hq]
    · rw [if_neg hreturn] at hgone
      have hnil : gone = [] := List.self_eq_append_right.mp (hgone ▸ hkept)
      rw [hnil, List.length_nil, Nat.add_zero] at hmax ⊢
      rw [if_neg hreturn]
      exact (Buffer.deleteRegion_self (b := { b with point := q }) hmax).symm
  obtain ⟨b₁, hb₁, hinsert⟩ := Option.map_eq_some_iff.mp
    (Buffer.map_insert_deleteRegion (b := { b with point := q + gone.length })
      (magitProcessRemoveBogusErrors σ.fold (if '\r' ∈ string then behindReturn string else string))
      rfl hmax)
  rw [magitProcessFilter, Buffer.process, hsection, Option.bind_some, hproc, Option.bind_some, hgoto]
  simp only
  rw [hdelete, hb₁, Option.map_some, hinsert]
  have hfilter : Process.magitProcessFilter σ.fold out string = kept
      ++ magitProcessRemoveBogusErrors σ.fold
        (if '\r' ∈ string then behindReturn string else string) := by
    rw [Process.magitProcessFilter, hgone]
    split <;> rfl
  rw [hfilter]
  exact ⟨_, rfl, Laid.replace kept gone h hlive (hbody.trans (by rw [hkept])) hq rfl rfl⟩

/-! ## Ends -/

/-- The exit code replaces the three characters that stood for it. -/
theorem showExitCode_eq {obj exitCode : ℕ} (h : off = b.point) (hmax : off + 3 ≤ b.pointMax) :
    showExitCode obj exitCode b = some
      { b with
        text := insertText (deleteText b.text off (off + 3)) off (exitCodeText exitCode)
        point := off + (exitCodeText exitCode).length
        sections := (((b.sections.map (·.move (·.deleted off (off + 3)))).modify obj
          (·.setInsertionType false)).map
            (·.move (·.inserted off (exitCodeText exitCode).length))).modify obj
              (·.setInsertionType true) } := by
  have hpoint : (Marker.deleted off (off + 3) ⟨b.point, false⟩).pos = off := by
    rw [Marker.deleted_of_le h.ge, h]
  rw [showExitCode, ← h, Buffer.deleteRegion_eq (Nat.le_add_right _ _) hmax, Option.map_some]
  simp only [Buffer.update, Buffer.insert, hpoint]

/-- The markers of a section whose heading begins with four characters that are not a newline. -/
theorem Piece.At.showExitCode {n : ℕ} (hs : p.At off s)
    (hf : Marker.Within ((·.inserted off n) ∘ (·.deleted off (off + 3))) off (off + 4) (off + 1 + n))
    (hhead : p.head.length + n = p'.head.length + 3) (hlength : 4 ≤ p.head.length)
    (hbody : p'.body = p.body) (hlive : p'.live = false)
    (hended : ∀ q, s.process = some q → q.status = .exit) :
    p'.At off ((((s.move (·.deleted off (off + 3))).setInsertionType false).move
      (·.inserted off n)).setInsertionType true) := by
  have hlen : p.text.length = p.head.length + (p.body.getD []).length := List.length_append
  have hlen' : p'.text.length = p'.head.length + (p.body.getD []).length := by
    rw [Piece.text, List.length_append, hbody]
  have hmove : ∀ k k', off + 4 ≤ off + k → k + n = k' + 3 →
      Marker.inserted off n (Marker.deleted off (off + 3) ⟨off + k, false⟩) = ⟨off + k', false⟩ := by
    intro k k' hk hk'
    refine (hf.behind ⟨off + k, false⟩ hk).trans (congrArg (Marker.mk · _) ?_)
    simp only
    omega
  refine ⟨?_, ?_, ?_, ?_, fun htrue => ?_, fun _ q hq => ?_⟩
  · simp [Section.setInsertionType, hs.start, Marker.deleted, Marker.inserted]
  · simp only [Section.setInsertionType, Section.move_content, hs.content, Option.map_map, hbody]
    exact congrArg (Option.map · _) (funext fun _ => hmove _ _ (by omega) hhead)
  · simp only [Section.setInsertionType, Section.move_fin, hs.fin, Option.map_some]
    exact congrArg some (hmove _ _ (by omega) (by omega))
  · exact List.ne_nil_of_length_pos (by omega)
  · exact absurd (htrue.symm.trans hlive) (by decide)
  · simp only [Section.setInsertionType, Section.move_process, Option.map_map] at hq
    obtain ⟨q', hq', rfl⟩ := Option.map_eq_some_iff.mp hq
    exact hended q' hq'

/-- The exit code takes the place of what the heading begins with. -/
theorem Laid.showExitCode {rest : List Char} (exitCode : ℕ) (h : Laid b (pre ++ p :: post))
    (hhead : p.head = "run".toList ++ (rest ++ ['\n']))
    (hended : ∀ s q, b.sections[pre.length + 1]? = some s → s.process = some q → q.status = .exit)
    (hpoint : b.point = 1 + (texts pre).length) :
    ∃ b', showExitCode (pre.length + 1) exitCode b = some b' ∧
      Laid b' (pre ++ ⟨exitCodeText exitCode ++ (rest ++ ['\n']), p.body, false⟩ :: post) := by
  obtain ⟨htext, off, r, ss₁, s, ss₂, hoff, hss, hlength, hpre, hs, hpost⟩ := h.split
  obtain ⟨p', hp'⟩ : ∃ p' : Piece, p' = ⟨exitCodeText exitCode ++ (rest ++ ['\n']), p.body, false⟩ :=
    ⟨_, rfl⟩
  obtain ⟨n, hn⟩ : ∃ n, n = (exitCodeText exitCode).length := ⟨_, rfl⟩
  have hbody : p'.body = p.body := by rw [hp']
  have hlenhead : p.head.length = rest.length + 4 := by
    rw [hhead, List.length_append, List.length_append, List.length_singleton]
    exact Nat.add_comm 3 (rest.length + 1)
  have hlenhead' : p'.head.length = n + rest.length + 1 := by simp [hp', hn, Nat.add_assoc]
  have hlen : p.text.length = p.head.length + (p.body.getD []).length := List.length_append
  have hlen' : p'.text.length = p'.head.length + (p.body.getD []).length := by
    rw [Piece.text, List.length_append, hbody]
  -- What follows the first four characters moves by as much as the exit code is longer.
  have hfour : Marker.Within ((·.inserted off n) ∘ (·.deleted off (off + 3))) off (off + 4)
      (off + 1 + n) := by
    have hdeleted : Marker.Within (·.deleted off (off + 3)) off (off + 4) (off + 4 - (off + 3 - off)) :=
      Marker.within_deleted le_rfl (by omega) (by omega)
    have hthree : off + 4 - (off + 3 - off) = off + 1 := by omega
    rw [hthree] at hdeleted
    exact (Marker.within_inserted n le_rfl (by omega)).comp hdeleted
  have hf : Marker.Within ((·.inserted off n) ∘ (·.deleted off (off + 3))) off (off + p.text.length)
      (off + p'.text.length) := by
    have hfin : off + p'.text.length = off + p.text.length - (off + 4) + (off + 1 + n) := by omega
    rw [hfin]
    exact hfour.of_ge (by omega)
  have hs' := hs.showExitCode hfour (by omega) (by omega) hbody (by rw [hp'])
    fun q hq => hended s q (getElem?_split hss hlength) hq
  have hsections := modify_split (map_split (modify_split
    (map_split hss (·.move (·.deleted off (off + 3)))) (List.length_map _)
    (·.setInsertionType false)) (·.move (·.inserted off n))) ((List.length_map _).trans
    (List.length_map _)) (·.setInsertionType true)
  simp only [List.map_map, Function.comp_def, Section.move_move, hlength] at hsections
  have hmax : off + 3 ≤ b.pointMax := by
    rw [Buffer.pointMax, htext, List.length_append, List.length_append]
    omega
  refine ⟨_, showExitCode_eq (hoff.trans hpoint.symm) hmax, hp' ▸ ?_⟩
  rw [← hn]
  refine laid_of_within hoff hpre hs' hpost hf ?_ hsections
  have htexts : b.text = texts pre ++ "run".toList
      ++ (rest ++ ['\n'] ++ p.body.getD [] ++ (texts post ++ ['\n'])) := by
    simp [htext, Piece.text, hhead]
  rw [insertText_append (deleteText_append htexts (by omega) (by simp; omega)) (by omega), Piece.text, hp']
  simp

/-- A section that is only its heading loses the newline of that, and the slot `content`. -/
theorem Laid.hideBody {line : List Char}
    (h : Laid b (pre ++ ⟨line ++ ['\n'], some ['\n'], false⟩ :: post))
    (hoff : off = 1 + (texts pre).length) :
    ∃ b₁, b.deleteRegion (off + line.length) (off + line.length + 1) = some b₁ ∧
      Laid (b₁.update (pre.length + 1) fun s => { s with content := none })
        (pre ++ ⟨line ++ ['\n'], none, false⟩ :: post) := by
  obtain ⟨htext, _, r, ss₁, s, ss₂, rfl, hss, hlength, hpre, hs, hpost⟩ := h.split
  rw [← hoff] at hs hpost
  have htexts : b.text = texts pre ++ line ++ ['\n'] ++ ('\n' :: (texts post ++ ['\n'])) := by
    simp [htext, Piece.text]
  have hmax : off + line.length + 1 ≤ b.pointMax := by
    rw [Buffer.pointMax, htexts]
    simp
    omega
  have hlen : (Piece.mk (line ++ ['\n']) (some ['\n']) false).text.length = line.length + 2 := by
    simp [Piece.text]
  have hlen' : (Piece.mk (line ++ ['\n']) none false).text.length = line.length + 1 := by
    simp [Piece.text]
  have hf : Marker.Within (·.deleted (off + line.length) (off + line.length + 1)) off
      (off + (line.length + 2)) (off + (line.length + 1)) := by
    have hone : off + (line.length + 1)
        = off + (line.length + 2) - (off + line.length + 1 - (off + line.length)) := by omega
    rw [hone]
    exact Marker.within_deleted (by omega) (by omega) (by omega)
  have hs' : (Piece.mk (line ++ ['\n']) none false).At off
      { s.move (·.deleted (off + line.length) (off + line.length + 1)) with content := none } := by
    refine ⟨?_, rfl, ?_, hs.head, fun htrue => absurd htrue Bool.false_ne_true, fun _ q hq => ?_⟩
    · rw [Section.move_start, hs.start]
      exact Marker.deleted_of_le (Nat.le_add_right _ _)
    · rw [Section.move_fin, hs.fin, hlen, hlen', Option.map_some, hf.behind _ le_rfl]
      exact congrArg (fun n => some (Marker.mk n _)) (by simp)
    · obtain ⟨q', hq', rfl⟩ := Option.map_eq_some_iff.mp hq
      exact hs.ended rfl q' hq'
  have hsections := modify_split (map_split hss
    (·.move (·.deleted (off + line.length) (off + line.length + 1)))) (List.length_map _)
      (fun s => { s with content := none })
  rw [hlength] at hsections
  refine ⟨_, Buffer.deleteRegion_eq (Nat.le_add_right _ _) hmax,
    laid_of_within hoff hpre hs' hpost (by rw [hlen, hlen']; exact hf) ?_ hsections⟩
  refine (deleteText_append htexts ?_ ?_).trans ?_
  · rw [List.length_append]
    omega
  · rw [List.length_append, List.length_singleton]
    omega
  · simp [Piece.text]

/-- **The end of a subprocess** is shown in its own section. -/
theorem Laid.finishSection (exitCode : ℕ) (h : Laid b (pre ++ p :: post)) (hlive : p.live = true)
    (hended : ∀ s q, b.sections[pre.length + 1]? = some s → s.process = some q → q.status = .exit) :
    ∃ b' p', magitProcessFinishSection (pre.length + 1) exitCode b = some b' ∧
      Laid b' (pre ++ p' :: post) ∧ p'.live = false ∧
      (p'.body = p.body ∨ p'.body = none ∧ p.body = some ['\n'] ∧
        ∃ line, '\n' ∉ line ∧ p'.head = line ++ ['\n']) := by
  obtain ⟨htext, off, r, ss₁, s, ss₂, hoff, hss, hlength, hpre, hs, hpost⟩ := h.split
  obtain ⟨rest, hrest⟩ := (hs.live hlive).head
  obtain ⟨out, hout⟩ := (hs.live hlive).body
  have hgoto : b.gotoChar s.start.pos = { b with point := off } := by
    have hstart : s.start.pos = off := congrArg Marker.pos hs.start
    rw [hstart]
    refine Buffer.gotoChar_eq (by omega) ?_
    rw [Buffer.pointMax, htext, List.length_append, List.length_append]
    omega
  obtain ⟨b₁, hb₁, hlaid⟩ := Laid.showExitCode (b := { b with point := off }) exitCode h hrest hended hoff
  obtain ⟨line, more, hhead, hline⟩ : ∃ line more,
      exitCodeText exitCode ++ (rest ++ ['\n']) = line ++ '\n' :: more ∧ '\n' ∉ line :=
    List.eq_append_cons_of_mem (by simp)
  obtain ⟨p₁, hp₁⟩ : ∃ p₁ : Piece, p₁ = ⟨exitCodeText exitCode ++ (rest ++ ['\n']), p.body, false⟩ :=
    ⟨_, rfl⟩
  rw [← hp₁] at hlaid
  obtain ⟨htext₁, _, r₁, ss₁', s₁, ss₂', rfl, hss₁, hlength₁, hpre₁, hs₁, hpost₁⟩ := hlaid.split
  rw [← hoff] at hs₁
  have htexts₁ : b₁.text = texts pre ++ (line ++ '\n' :: (more ++ (out ++ ['\n'])
      ++ (texts post ++ ['\n']))) := by
    rw [htext₁, Piece.text, hp₁, hhead, hout]
    simp
  have hgoto₁ : b₁.gotoChar off = { b₁ with point := off } := by
    refine Buffer.gotoChar_eq (by omega) ?_
    rw [Buffer.pointMax, htexts₁, List.length_append]
    omega
  have heol : lineEnd b₁.text off = off + line.length := by
    rw [lineEnd_append htexts₁ (by omega), List.takeWhile_append_of_pos, List.takeWhile_cons_of_neg,
      List.append_nil]
    · simp
    · intro c hc
      simpa using fun heq : c = '\n' => hline (heq ▸ hc)
  rw [magitProcessFinishSection, getElem?_split hss hlength, Option.bind_some, hgoto]
  simp only
  rw [hb₁, Option.bind_some, hgoto₁]
  simp only
  rw [getElem?_split hss₁ hlength₁, Option.bind_some, hs₁.fin, heol, Option.map_some]
  have hlen : p₁.text.length = line.length + 1 + more.length + out.length + 1 := by
    rw [Piece.text, hp₁, hhead, hout]
    simp
    omega
  by_cases hempty : more = [] ∧ out = []
  · obtain ⟨rfl, rfl⟩ := hempty
    have hp : p₁ = ⟨line ++ ['\n'], some ['\n'], false⟩ := by rw [hp₁, hhead, hout, List.nil_append]
    obtain ⟨b₂, hb₂, hlaid₂⟩ := Laid.hideBody (b := { b₁ with point := off }) (hp ▸ hlaid) hoff
    have hfin : off + p₁.text.length = off + line.length + 2 := by
      rw [hlen, List.length_nil]
      omega
    rw [if_pos (congrArg some hfin), hb₂]
    exact ⟨_, _, rfl, hlaid₂, rfl, Or.inr ⟨rfl, hout, line, hline, rfl⟩⟩
  · have hne : some (off + p₁.text.length) ≠ some (off + line.length + 2) := by
      intro heq
      have hlengths := Option.some.inj heq
      exact hempty ⟨List.length_eq_zero_iff.mp (by omega), List.length_eq_zero_iff.mp (by omega)⟩
    rw [if_neg hne]
    exact ⟨_, p₁, rfl, hlaid, by rw [hp₁], Or.inl (by rw [hp₁])⟩

/-! ## Insertion -/

/-- The buffer while a section is inserted, of which this is the text so far. -/
def inserting (b : Buffer) (off : ℕ) (s : Section) (text : List Char) : Buffer :=
  { b with
    text := insertText b.text off text
    point := off + text.length
    sections := b.sections.map (·.move (·.inserted off text.length)) ++ [s] }

/-- The markers of a section that is being inserted stay where they are. -/
structure Section.Opened (s : Section) (off fin : ℕ) : Prop where
  start : s.start = ⟨off, false⟩
  content : ∀ m, s.content = some m → m.pos ≤ fin ∧ m.advances = false
  fin : s.fin = none
  process : s.process = none

theorem Section.Opened.of_le (h : s.Opened off fin) (hfin : fin ≤ fin') : s.Opened off fin' :=
  ⟨h.start, fun m hm => ⟨(h.content m hm).1.trans hfin, (h.content m hm).2⟩, h.fin, h.process⟩

/-- The content of an open section begins at the end of its heading. -/
theorem Section.Opened.setContent (h : s.Opened off fin) (hfin : fin ≤ fin') :
    Section.Opened { s with content := some ⟨fin, false⟩ } off fin' :=
  ⟨h.start, fun m hm => by
    obtain rfl := Option.some.inj hm
    exact ⟨hfin, rfl⟩, h.fin, h.process⟩

/-- The markers of an open section do not move when text is inserted at its end. -/
theorem Section.Opened.move_eq {n : ℕ} (h : s.Opened off fin) (hfin : off ≤ fin) :
    s.move (·.inserted fin n) = s := by
  rcases s with ⟨type, parent, start, content, _, children, _⟩
  obtain ⟨rfl, hcontent, rfl, rfl⟩ := h
  rw [Section.move]
  congr 1
  · exact Marker.inserted_of_le hfin rfl
  · rcases content with _ | m
    · rfl
    · obtain ⟨hm, hadvances⟩ := hcontent m rfl
      exact congrArg some (Marker.inserted_of_le hm hadvances)

/-- Two insertions one after the other are one. -/
theorem insertText_insertText {text piece more : List Char} (h : 1 ≤ off)
    (hoff : off ≤ text.length + 1) :
    insertText (insertText text off piece) (off + piece.length) more
      = insertText text off (piece ++ more) := by
  have htext : insertText text off piece = text.take (off - 1) ++ piece ++ text.drop (off - 1) := rfl
  have hbehind : off + piece.length = (text.take (off - 1) ++ piece).length + 1 := by
    rw [List.length_append, List.length_take]
    omega
  rw [insertText_append htext hbehind, insertText, List.append_assoc _ piece]

/-- Inserting more text into the section that is being inserted. -/
theorem insert_inserting {text more : List Char} (hs : s.Opened off (off + text.length))
    (h : 1 ≤ off) (hoff : off ≤ b.pointMax) :
    (inserting b off s text).insert more = inserting b off s (text ++ more) := by
  simp only [inserting, Buffer.insert, insertText_insertText h hoff, List.map_append, List.map_map,
    List.map_cons, List.map_nil, Function.comp_def, Section.move_move, Marker.inserted_inserted,
    List.length_append, Nat.add_assoc, hs.move_eq (Nat.le_add_right _ _)]

/-- Changing the section that is being inserted. -/
theorem update_inserting {text : List Char} (g : Section → Section) :
    (inserting b off s text).update b.sections.length g = inserting b off (g s) text := by
  have hmodify : (b.sections.map (·.move (·.inserted off text.length)) ++ [s]).modify
      b.sections.length g = b.sections.map (·.move (·.inserted off text.length)) ++ [g s] := by
    induction b.sections with
    | nil => rfl
    | cons s' ss ih => exact congrArg (s'.move _ :: ·) ih
  rw [Buffer.update, inserting, hmodify]
  rfl

/-- Point is at the beginning of a line exactly if the text ends with a newline. -/
theorem bolp_inserting {text : List Char} (hne : text ≠ []) (h : 1 ≤ off) (hoff : off ≤ b.pointMax) :
    (inserting b off s text).bolp = (text.getLast? == some '\n') := by
  have htake : (insertText b.text off text).take (off + text.length - 1)
      = b.text.take (off - 1) ++ text := by
    have hlength : off + text.length - 1 = (b.text.take (off - 1) ++ text).length := by
      rw [Buffer.pointMax] at hoff
      rw [List.length_append, List.length_take]
      omega
    rw [insertText, hlength, List.take_left]
  obtain ⟨c, hc⟩ := Option.isSome_iff_exists.mp (List.getLast?_isSome.mpr hne)
  rw [Buffer.bolp, inserting]
  simp only [htake, List.getLast?_append, hc, Option.some_or]
  rfl

/-- The heading ends with a newline, and its end is the slot `content`. -/
theorem magitInsertHeading_inserting {text : List Char} (heading : List Char)
    (hs : s.Opened off (off + text.length)) (hne : text ++ heading ≠ []) (h : 1 ≤ off)
    (hoff : off ≤ b.pointMax) :
    magitInsertHeading b.sections.length heading (inserting b off s text)
      = inserting b off
          { s with content := some ⟨off + (ended (text ++ heading)).length, false⟩ }
          (ended (text ++ heading)) := by
  have hs' : s.Opened off (off + (text ++ heading).length) := hs.of_le (by simp)
  rw [magitInsertHeading]
  simp only [insert_inserting hs h hoff, bolp_inserting hne h hoff, insert_inserting hs' h hoff]
  rw [ended]
  by_cases hlast : (text ++ heading).getLast? = some '\n'
  · rw [if_pos hlast, if_pos (beq_iff_eq.mpr hlast), update_inserting]
    rfl
  · rw [if_neg hlast, if_neg (by simpa using hlast), update_inserting]
    rfl

/-- The text of a section that has been inserted at the end. -/
theorem laid_inserting (h : Laid b ps) (hoff : off = 1 + (texts ps).length) (hs : p.At off s) :
    Laid (inserting b off s p.text) (ps ++ [p]) := by
  obtain ⟨htext, r, ss, hsections, hlaid⟩ := h
  have hbefore := hlaid.before (Marker.within_inserted p.text.length le_rfl (Nat.lt_succ_self off))
    hoff.ge
  have hsections' : (inserting b off s p.text).sections = r.move (·.inserted off p.text.length)
      :: (ss.map (·.move (·.inserted off p.text.length)) ++ [s]) := by
    rw [inserting, hsections]
    rfl
  refine ⟨?_, _, _, hsections', hbefore.append (LaidOut.cons (hoff ▸ hs) (LaidOut.nil _))⟩
  rw [inserting, texts_append, texts_cons, texts_nil, List.append_nil]
  exact insertText_append htext (by omega)

/-- Slots that are not about the text. -/
theorem Laid.update {g : Section → Section} (h : Laid b ps)
    (hg : ∀ p off s, Piece.At p off s → Piece.At p off (g s)) (i : ℕ) : Laid (b.update i g) ps := by
  have hmodify : ∀ i off ps ss, LaidOut off ps ss → LaidOut off ps (ss.modify i g) := by
    intro i off ps ss hlaid
    induction hlaid generalizing i with
    | nil off =>
      rw [List.modify_nil]
      exact LaidOut.nil off
    | cons hs hrest ih =>
      rcases i with _ | i
      · exact LaidOut.cons (hg _ _ _ hs) hrest
      · exact LaidOut.cons hs (ih i)
  obtain ⟨htext, r, ss, hsections, hlaid⟩ := h
  rcases i with _ | i
  · exact ⟨htext, g r, ss, by rw [Buffer.update, hsections]; rfl, hlaid⟩
  · exact ⟨htext, r, ss.modify i g, by rw [Buffer.update, hsections]; rfl, hmodify i _ _ _ hlaid⟩

/-- A section that has been inserted, with the slots that are set last. -/
def Section.finished (s : Section) (fin : ℕ) : Section :=
  { s with start := { s.start with advances := true }, fin := some ⟨fin, false⟩ }

/-- A child is not about the text. -/
theorem Laid.addToParent (h : Laid b ps) (obj : ℕ) : Laid (addToParent obj b) ps := by
  rw [Magit.ProcessLog.addToParent]
  split
  · exact h
  · split
    · exact h
    · refine Laid.update (g := fun s => { s with children := s.children ++ [obj] }) h ?_ _
      intro p off s hs
      exact ⟨hs.start, hs.content, hs.fin, hs.head,
        fun hlive => ⟨(hs.live hlive).head, (hs.live hlive).body, (hs.live hlive).mark⟩, hs.ended⟩

/-- The buffer when the body of a section is about to be inserted. -/
theorem magitInsertSectionCreate_eq (type : Kind) (parent : Option ℕ) (hpoint : b.point = off) :
    magitInsertSectionCreate type parent b = inserting
      { b with root := if parent.isNone then some b.sections.length else b.root } off
      ⟨type, parent, ⟨off, false⟩, none, none, [], none⟩ [] := by
  simp only [magitInsertSectionCreate, inserting, insertText_nil, List.length_nil, Nat.add_zero,
    Marker.inserted_zero, Section.move_id, List.map_id', hpoint]

/-- The section ends where its text does, and gets its parent. -/
theorem magitInsertSectionFinish_inserting {text : List Char} :
    magitInsertSectionFinish b.sections.length (inserting b off s text)
      = addToParent b.sections.length (inserting b off (s.finished (off + text.length)) text) := by
  rw [magitInsertSectionFinish, update_inserting, update_inserting]
  rfl

/-- The heading of the section of a subprocess. -/
def processHead (timestamp : Option (List Char)) (cmd : List Char) : List Char :=
  ended ("run ".toList ++ timestamp.elim [] (· ++ [' ']) ++ cmd)

/-- What follows the heading of a message. -/
def messageLines (lines : List (List Char)) : List Char :=
  if lines.isEmpty then [] else lines.flatMap (· ++ ['\n']) ++ ['\n']

/-- The body for a process inserts its head, and the content begins behind it. -/
theorem processBody_inserting (timestamp : Option (List Char)) (cmd : List Char)
    (hs : s.Opened off off) (h : 1 ≤ off) (hoff : off ≤ b.pointMax) :
    processBody timestamp cmd b.sections.length (inserting b off s [])
      = inserting b off
          { s with content := some ⟨off + (processHead timestamp cmd).length, false⟩ }
          (processHead timestamp cmd ++ ['\n']) := by
  have hrun : (inserting b off s []).insert "run ".toList = inserting b off s "run ".toList :=
    insert_inserting hs h hoff
  have htimestamp : (timestamp.elim (inserting b off s "run ".toList) fun time =>
        (inserting b off s "run ".toList).insert (time ++ [' ']))
      = inserting b off s ("run ".toList ++ timestamp.elim [] (· ++ [' '])) := by
    rcases timestamp with _ | time
    · rfl
    · exact insert_inserting (hs.of_le (Nat.le_add_right _ _)) h hoff
  have hne : "run ".toList ++ timestamp.elim [] (· ++ [' ']) ++ cmd ≠ [] := by simp
  rw [processBody]
  simp only [hrun, htimestamp]
  rw [magitInsertHeading_inserting cmd (hs.of_le (Nat.le_add_right _ _)) hne h hoff,
    insert_inserting ((hs.of_le (Nat.le_add_right _ _)).setContent le_rfl) h hoff]
  rfl

/-- Lines are inserted one after the other. -/
theorem insertLines_inserting {text : List Char} (lines : List (List Char))
    (hs : s.Opened off (off + text.length)) (h : 1 ≤ off) (hoff : off ≤ b.pointMax) :
    lines.foldl (fun b line => b.insert (line ++ ['\n'])) (inserting b off s text)
      = inserting b off s (text ++ lines.flatMap (· ++ ['\n'])) := by
  induction lines generalizing text with
  | nil => rw [List.foldl_nil, List.flatMap_nil, List.append_nil]
  | cons line lines ih =>
    rw [List.foldl_cons, insert_inserting hs h hoff, ih (hs.of_le (by simp)), List.flatMap_cons,
      List.append_assoc]

/-- The body for a message inserts its heading and its lines. -/
theorem messageBody_inserting (heading : List Char) (lines : List (List Char))
    (hs : s.Opened off off) (h : 1 ≤ off) (hoff : off ≤ b.pointMax) :
    messageBody heading lines b.sections.length (inserting b off s [])
      = inserting b off
          { s with content := some ⟨off + (ended ("  * ".toList ++ heading)).length, false⟩ }
          (ended ("  * ".toList ++ heading) ++ messageLines lines) := by
  have hs' : s.Opened off (off + ([] : List Char).length) := hs
  have hhead := magitInsertHeading_inserting ("  * ".toList ++ heading) hs' (by simp) h hoff
  rw [List.nil_append] at hhead
  have hopened := (hs.of_le (Nat.le_add_right off _)).setContent
    (le_refl (off + (ended ("  * ".toList ++ heading)).length))
  rw [messageBody, hhead, messageLines]
  split
  · rw [List.append_nil]
  · rw [insertLines_inserting lines hopened h hoff, insert_inserting (hopened.of_le (by simp)) h hoff,
      List.append_assoc]

/-- The head of a process begins with `run` and ends with a newline. -/
theorem exists_processHead (timestamp : Option (List Char)) (cmd : List Char) :
    ∃ rest, processHead timestamp cmd = "run".toList ++ (rest ++ ['\n']) := by
  have hrun : "run ".toList ++ timestamp.elim [] (· ++ [' ']) ++ cmd
      = "run".toList ++ (' ' :: (timestamp.elim [] (· ++ [' ']) ++ cmd)) := by simp
  rw [processHead, ended, hrun]
  split
  · next hlast =>
    rw [List.getLast?_append, List.getLast?_cons, Option.some_or] at hlast
    obtain ⟨rest, hrest⟩ := List.getLast?_eq_some_iff.mp ((List.getLast?_cons).trans hlast)
    exact ⟨rest, congrArg _ hrest⟩
  · exact ⟨_, List.append_assoc _ _ _⟩

theorem Laid.length_sections (h : Laid b ps) : b.sections.length = ps.length + 1 := by
  obtain ⟨-, r, ss, hsections, hlaid⟩ := h
  rw [hsections, List.length_cons, hlaid.length_eq]

/-- The last position is the one behind all the pieces. -/
theorem Laid.gotoChar_eq (h : Laid b ps) :
    b.gotoChar (b.pointMax - 1) = { b with point := 1 + (texts ps).length } := by
  have hmax : b.pointMax - 1 = 1 + (texts ps).length := by
    rw [Buffer.pointMax, h.1, List.length_append, List.length_singleton]
    omega
  rw [hmax]
  exact Buffer.gotoChar_eq (by omega) (by omega)

theorem point_addToParent (obj : ℕ) : (addToParent obj b).point = b.point := by
  rw [addToParent]
  split
  · rfl
  · split <;> rfl

theorem process_addToParent (obj i : ℕ) : (addToParent obj b).process i = b.process i := by
  rw [addToParent]
  split
  · rfl
  · split
    · rfl
    · rw [Buffer.process, Buffer.update, List.getElem?_modify, Buffer.process]
      rcases b.sections[i]? with _ | s
      · rfl
      · simp only [Option.map_eq_map, Option.map_some, Option.bind_some]
        split <;> rfl

/-- A section is inserted behind all others. -/
theorem Laid.insertSection {body : ℕ → Buffer → Buffer} {content : List Char} (type : Kind)
    (parent : Option ℕ) (h : Laid b ps) (hoff : off = 1 + (texts ps).length)
    (hcontent : p.body = some content) (hhead : p.head ≠ [])
    (hlive : p.live = true →
      (∃ rest, p.head = "run".toList ++ (rest ++ ['\n'])) ∧ ∃ out, p.body = some (out ++ ['\n']))
    (hbody : ∀ b s, Section.Opened s off off → 1 ≤ off → off ≤ Buffer.pointMax b →
      body b.sections.length (inserting b off s [])
        = inserting b off { s with content := some ⟨off + p.head.length, false⟩ } p.text) :
    ∃ b', magitInsertSection type parent body (b.gotoChar (b.pointMax - 1)) = b' ∧
      Laid b' (ps ++ [p]) ∧ b'.point = off + p.text.length ∧
      b'.process b.sections.length = none := by
  have hmax : off ≤ b.pointMax := by
    rw [Buffer.pointMax, h.1, hoff]
    simp
    omega
  obtain ⟨b₁, hb₁⟩ : ∃ b₁ : Buffer, b₁ = { b with
      point := off, root := if parent.isNone then some b.sections.length else b.root } := ⟨_, rfl⟩
  have hlaid : Laid b₁ ps := hb₁ ▸ h
  have hsections : b.sections.length = b₁.sections.length := by rw [hb₁]
  have hopened : Section.Opened ⟨type, parent, ⟨off, false⟩, none, none, [], none⟩ off off :=
    ⟨rfl, fun m hm => absurd hm.symm (Option.some_ne_none m), rfl, rfl⟩
  have hcreate := magitInsertSectionCreate_eq (b := { b with point := off }) type parent rfl
  have hpointMax : b₁.pointMax = b.pointMax := by rw [hb₁]; rfl
  refine ⟨_, rfl, ?_⟩
  rw [h.gotoChar_eq, ← hoff, magitInsertSection, hcreate]
  simp only
  rw [← hb₁, hsections, hbody b₁ _ hopened (by omega) (by omega),
    magitInsertSectionFinish_inserting]
  obtain ⟨s, hs⟩ : ∃ s : Section, s = (Section.mk type parent ⟨off, false⟩
    (some ⟨off + p.head.length, false⟩) none [] none).finished (off + p.text.length) := ⟨_, rfl⟩
  have hat : p.At off s := by
    rw [hs]
    refine ⟨rfl, ?_, rfl, hhead, fun htrue => ⟨(hlive htrue).1, (hlive htrue).2, ?_⟩, ?_⟩
    · rw [hcontent]
      rfl
    · exact fun q hq => absurd hq.symm (Option.some_ne_none q)
    · exact fun _ q hq => absurd hq.symm (Option.some_ne_none q)
  rw [← hs]
  refine ⟨(laid_inserting hlaid hoff hat).addToParent _, ?_, ?_⟩
  · rw [point_addToParent]
    rfl
  · rw [process_addToParent, Buffer.process, inserting]
    simp only
    rw [List.getElem?_append_right (by simp), List.length_map, Nat.sub_self, hs]
    rfl

/-- The section of a subprocess that has not been started yet. -/
def processPiece (timestamp : Option (List Char)) (cmd output : List Char) : Piece :=
  ⟨processHead timestamp cmd, some (output ++ ['\n']), true⟩

/-- The section of a message. -/
def messagePiece (heading : List Char) (lines : List (List Char)) : Piece :=
  ⟨ended ("  * ".toList ++ heading), some (messageLines lines), false⟩

theorem processHead_ne_nil (timestamp : Option (List Char)) (cmd : List Char) :
    processHead timestamp cmd ≠ [] := by
  obtain ⟨rest, hrest⟩ := exists_processHead timestamp cmd
  simp [hrest]

/-- A new process is laid out behind everything else. -/
theorem Laid.processInsertSection (h : Laid b ps) (hoff : off = 1 + (texts ps).length)
    (timestamp : Option (List Char)) (cmd : List Char) :
    ∃ b', magitProcessInsertSection timestamp cmd b = b' ∧
      Laid b' (ps ++ [processPiece timestamp cmd []]) ∧
      b'.point = off + (processPiece timestamp cmd []).text.length ∧
      b'.process b.sections.length = none :=
  h.insertSection .process b.root hoff rfl (processHead_ne_nil _ _)
    (fun _ => ⟨exists_processHead _ _, [], rfl⟩)
    fun _ _ hs h hoff => processBody_inserting timestamp cmd hs h hoff

/-- The section of a message is inserted behind all others. -/
theorem Laid.logAction (h : Laid b ps) (heading : List Char) (lines : List (List Char)) :
    Laid (magitInsertSection .message none (messageBody heading lines)
      (b.gotoChar (b.pointMax - 1))) (ps ++ [messagePiece heading lines]) := by
  have hne : ended ("  * ".toList ++ heading) ≠ [] := by
    rw [ended]
    split <;> simp
  obtain ⟨_, rfl, hlaid, -⟩ := h.insertSection (p := messagePiece heading lines) .message none rfl rfl
    hne (fun hlive => absurd hlive.symm Bool.false_ne_true.symm)
    fun _ _ hs h hoff => messageBody_inserting heading lines hs h hoff
  exact hlaid

/-- A change of the slots of one section. -/
theorem Laid.updateAt {g : Section → Section} (h : Laid b (pre ++ p :: post))
    (hg : ∀ s, p.At (1 + (texts pre).length) s → p.At (1 + (texts pre).length) (g s)) :
    Laid (b.update (pre.length + 1) g) (pre ++ p :: post) := by
  obtain ⟨-, off, r, ss₁, s, ss₂, hoff, hss, hlength, hpre, hs, hpost⟩ := h.split
  refine ⟨h.1, r, _, modify_split hss hlength g, hpre.append (LaidOut.cons ?_ ?_)⟩
  · exact hg s (hoff ▸ hs)
  · exact hoff ▸ hpost

/-- Point is left in front of the last newline of a section that has been inserted. -/
theorem Laid.processSetup (h : Laid b ps) (hoff : off = 1 + (texts ps).length)
    (timestamp : Option (List Char)) (cmd : List Char) :
    ∃ b', magitProcessSetup none timestamp cmd b = some (ps.length + 1, b') ∧
      Laid b' (ps ++ [processPiece timestamp cmd []]) ∧
      b'.point = off + (processHead timestamp cmd).length ∧ b'.process (ps.length + 1) = none := by
  obtain ⟨b₁, hb₁, hlaid, hpoint, hprocess⟩ := h.processInsertSection hoff timestamp cmd
  have hlen : (processPiece timestamp cmd []).text.length = (processHead timestamp cmd).length + 1 := by
    simp [Piece.text, processPiece]
  have hgoto : b₁.gotoChar (b₁.point - 1)
      = { b₁ with point := off + (processHead timestamp cmd).length } := by
    have hpoint' : b₁.point - 1 = off + (processHead timestamp cmd).length := by omega
    rw [hpoint']
    refine Buffer.gotoChar_eq (by omega) ?_
    rw [Buffer.pointMax, hlaid.1, texts_append, texts_cons, texts_nil, List.append_nil,
      List.length_append, List.length_append, hlen]
    simp only [List.length_singleton]
    omega
  rw [h.length_sections] at hprocess
  refine ⟨b₁.gotoChar (b₁.point - 1), ?_, hlaid, by rw [hgoto], hprocess⟩
  rw [magitProcessSetup, magitProcessBuffer, Option.map_some]
  simp only
  rw [hb₁, h.length_sections]

/-- **A subprocess is started**, and its mark set in front of the last newline of its section. -/
theorem Laid.startProcess (h : Laid b ps) (timestamp : Option (List Char)) (cmd : List Char) :
    ∃ b', magitStartProcess none timestamp cmd b = some b' ∧
      Laid b' (ps ++ [processPiece timestamp cmd []]) := by
  obtain ⟨b₁, hb₁, hlaid, hpoint, -⟩ := h.processSetup rfl timestamp cmd
  rw [magitStartProcess, hb₁, Option.map_some]
  refine ⟨_, rfl, hlaid.updateAt fun s hs => ⟨hs.start, hs.content, hs.fin, hs.head,
    fun hlive => ⟨(hs.live hlive).head, (hs.live hlive).body, fun q hq => ?_⟩,
    fun hended => absurd hended.symm Bool.false_ne_true⟩⟩
  obtain rfl := Option.some.inj hq
  refine congrArg (Marker.mk · _) (hpoint.trans ?_)
  simp [Piece.text, processPiece]

/-- Changing what does not change leaves the list as it is. -/
theorem modify_of_eq {i : ℕ} {g : Section → Section} (h : ∀ s, ss[i]? = some s → g s = s) :
    ss.modify i g = ss := by
  refine List.ext_getElem? fun j => ?_
  rw [List.getElem?_modify]
  split
  · next hij =>
    rw [← hij]
    rcases hs : ss[i]? with _ | s
    · rfl
    · exact congrArg some (h s hs)
  · exact id_map' _

theorem Section.setProcessMark_eq (h : s.process = none) (q : ℕ) : s.setProcessMark q = s := by
  rcases s with ⟨_, _, _, _, _, _, _⟩
  subst h
  rfl

/-- **A subprocess is called**, which writes its output at point. -/
theorem Laid.callProcess (h : Laid b ps) (timestamp : Option (List Char)) (cmd output : List Char)
    (exitCode : ℕ) :
    ∃ b' p', magitCallProcess none timestamp cmd output exitCode b = some b' ∧
      Laid b' (ps ++ [p']) ∧ p'.live = false ∧
      (p'.body = some (output ++ ['\n']) ∨ p'.body = none ∧ output = [] ∧
        ∃ line, '\n' ∉ line ∧ p'.head = line ++ ['\n']) := by
  obtain ⟨b₁, hb₁, hlaid, hpoint, hprocess⟩ := h.processSetup rfl timestamp cmd
  have hprocess' : ∀ s, (b₁.insert output).sections[ps.length + 1]? = some s → s.process = none := by
    intro s hs
    rw [Buffer.insert, List.getElem?_map] at hs
    obtain ⟨s', hs', rfl⟩ := Option.map_eq_some_iff.mp hs
    rw [Buffer.process, hs', Option.bind_some] at hprocess
    rw [Section.move_process, hprocess]
    rfl
  have houtput : Laid (b₁.insert output) (ps ++ [processPiece timestamp cmd output]) := by
    refine Laid.replace [] [] (q := b₁.point) hlaid rfl rfl ?_ ?_ ?_
    · rw [hpoint, List.append_nil, List.length_append]
      simp only [processPiece]
      omega
    · rw [List.length_nil, Nat.add_zero, deleteText_self]
      rfl
    · rw [List.length_nil, Nat.add_zero, modify_of_eq]
      · simp only [Buffer.insert, Function.comp_def, Marker.deleted_self]
      · intro s hs
        simp only [Function.comp_def, Marker.deleted_self] at hs
        exact Section.setProcessMark_eq (hprocess' s hs) _
  obtain ⟨b', p', hb', hlaid', hlive, hbody⟩ := houtput.finishSection exitCode rfl
    fun s q hs hq => absurd (hprocess' s hs ▸ hq).symm (Option.some_ne_none q)
  rw [magitCallProcess, hb₁, Option.bind_some]
  exact ⟨b', p', hb', hlaid', hlive,
    hbody.imp_right fun h => ⟨h.1, by simpa [processPiece] using h.2.1, h.2.2⟩⟩

end Magit.ProcessLog
