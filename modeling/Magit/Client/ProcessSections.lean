import Mathlib.Data.List.Forall2
import Magit.Client.ProcessOutput
import Magit.Client.ProcessTree

/-!
# Client/ProcessSections — runs of the process buffer

In every run every subprocess has its output, as it is processed, to itself (`kept_of_run`), and the
root keeps all sections as its children: as long as the log is not full, and no message is logged.  A
message takes the place of the root.
-/

namespace Magit.ProcessLog

open Emacs Process

/-! ## What a run is to keep -/

/-- How many sections the events insert. -/
def inserted (events : List Event) : ℕ := (events.map Event.inserted).sum

/-- What is processed of the output of each section so far; a message has none. -/
def processed (fold : Char → Char) (outs : List (Option (List Char))) :
    Event → List (Option (List Char))
  | .start _ _ => outs ++ [some []]
  | .call _ _ output _ => outs ++ [some output]
  | .output proc string =>
    outs.modify (proc - 1) (Option.map (Process.magitProcessFilter fold · string))
  | .finish _ _ => outs
  | .log _ _ => outs ++ [none]

/-- The text between the heading and the end is the output, and nothing if there is none. -/
def Section.Owns (text : List Char) (s : Section) (out : List Char) : Prop :=
  ∃ fin, s.fin = some fin ∧
    ((∃ content, s.content = some content ∧ region text content.pos fin.pos = out ++ ['\n']) ∨
      s.content = none ∧ out = [] ∧
        ∃ line, '\n' ∉ line ∧ region text s.start.pos fin.pos = line ++ ['\n'])

/-- A section ends before another begins. -/
def Buffer.Precedes (b : Buffer) (i j : ℕ) : Prop :=
  ∃ s s' fin, b.sections[i]? = some s ∧ b.sections[j]? = some s' ∧ s.fin = some fin ∧
    fin.pos ≤ s'.start.pos

/-- The sections are in order, and each has its output to itself. -/
structure Separate (fold : Char → Char) (events : List Event) (b : Buffer) : Prop where
  precedes : ∀ i j, 1 ≤ i → i < j → j ≤ inserted events → b.Precedes i j
  owns : ∀ i out, (events.foldl (processed fold) [])[i]? = some (some out) →
    ∃ s, b.sections[i + 1]? = some s ∧ s.Owns b.text out

/-- The root is the section that was created first, and all others are its children. -/
structure Kept (fold : Char → Char) (events : List Event) (b : Buffer) : Prop
    extends Separate fold events b where
  root : b.root = some 0
  children : b.children 0 = List.range' 1 (inserted events)

/-! ## Sections and their output -/

/-- The text of a section shows what is processed of its output. -/
def Piece.Shows (p : Piece) : Option (List Char) → Prop
  | none => p.live = false
  | some out => p.body = some (out ++ ['\n']) ∨
    p.live = false ∧ p.body = none ∧ out = [] ∧ ∃ line, '\n' ∉ line ∧ p.head = line ++ ['\n']

/-- The buffer is laid out in pieces that show these outputs. -/
def Placed (b : Buffer) (outs : List (Option (List Char))) : Prop :=
  ∃ ps, Laid b ps ∧ List.Forall₂ (fun out p => p.Shows out) outs ps

variable {b b' : Buffer} {σ : Settings} {e : Event} {events : List Event} {ps : List Piece}
  {outs : List (Option (List Char))} {root n i off : ℕ} {ss : List Section} {p : Piece}

/-- A subprocess that is running belongs to a section that is live. -/
theorem Laid.exists_live (h : Laid b ps) (hfirst : b.status 0 = none) (hrunning : b.running i = true) :
    ∃ pre p post, ps = pre ++ p :: post ∧ i = pre.length + 1 ∧ p.live = true := by
  obtain ⟨k, rfl⟩ : ∃ k, i = k + 1 := by
    refine Nat.exists_eq_succ_of_ne_zero ?_
    rintro rfl
    rw [b.running_eq, hfirst] at hrunning
    cases hrunning
  have hlt : k + 1 < b.sections.length := by
    by_contra hge
    rw [Buffer.running, Buffer.process, List.getElem?_eq_none (Nat.le_of_not_lt hge)] at hrunning
    cases hrunning
  rw [h.length_sections] at hlt
  have hk : k < ps.length := Nat.lt_of_succ_lt_succ hlt
  have hlength : (ps.take k).length = k := List.length_take_of_le hk.le
  have hps : ps = ps.take k ++ ps[k] :: ps.drop (k + 1) := by
    rw [List.cons_getElem_drop_succ, List.take_append_drop]
  refine ⟨ps.take k, ps[k], ps.drop (k + 1), hps, by rw [hlength], ?_⟩
  rw [hps] at h
  obtain ⟨-, off, r, ss₁, s, ss₂, -, hss, hlength', -, hs, -⟩ := h.split
  rw [← hlength] at hrunning
  obtain ⟨q, hq, hrun⟩ := Buffer.exists_process hrunning (getElem?_split hss hlength')
  by_contra hlive
  have hexit := hs.ended (Bool.eq_false_of_not_eq_true hlive) q hq
  exact absurd (hrun.symm.trans hexit) (by decide)

/-- One of the sections is changed, and what is processed of its output. -/
theorem forall₂_split {pre post : List Piece} {g : Option (List Char) → Option (List Char)}
    {p' : Piece} (h : List.Forall₂ (fun out p => p.Shows out) outs (pre ++ p :: post))
    (hp : ∀ out, p.Shows out → p'.Shows (g out)) :
    List.Forall₂ (fun out p => p.Shows out) (outs.modify pre.length g) (pre ++ p' :: post) := by
  have htake := List.forall₂_take_append _ _ _ h
  obtain ⟨out, outs₂, hout, houts₂, hdrop⟩ :=
    List.forall₂_cons_right_iff.mp (List.forall₂_drop_append _ _ _ h)
  have hsplit : outs = outs.take pre.length ++ out :: outs₂ := by
    rw [← hdrop, List.take_append_drop]
  have hmodify := modify_length_append (outs.take pre.length) outs₂ out g
  rw [htake.length_eq, ← hsplit] at hmodify
  rw [hmodify]
  exact List.rel_append htake (List.Forall₂.cons (hp out hout) houts₂)

theorem forall₂_concat {out : Option (List Char)}
    (h : List.Forall₂ (fun out p => p.Shows out) outs ps) (hp : p.Shows out) :
    List.Forall₂ (fun out p => p.Shows out) (outs ++ [out]) (ps ++ [p]) :=
  List.rel_append h (List.Forall₂.cons hp List.Forall₂.nil)

/-- What a live piece shows is its body. -/
theorem Piece.Shows.exists_body {out : Option (List Char)} (h : p.Shows out) (hlive : p.live = true) :
    ∃ text, out = some text ∧ p.body = some (text ++ ['\n']) := by
  rcases out with _ | text
  · exact absurd (hlive.symm.trans h) (by decide)
  · rcases h with hbody | ⟨hended, -⟩
    · exact ⟨text, rfl, hbody⟩
    · exact absurd (hlive.symm.trans hended) (by decide)

/-- A log that is not full is not truncated. -/
theorem magitProcessSetup_of_not_full {logMax : Option ℤ} {timestamp : Option (List Char)}
    {cmd : List Char} {r : ℕ × Buffer} (htree : b.Tree root n) (hfull : ¬ full logMax (n + 1))
    (h : magitProcessSetup logMax timestamp cmd b = some r) :
    magitProcessSetup none timestamp cmd b = some r := by
  rw [magitProcessSetup] at h
  obtain ⟨b₁, hb₁, rfl⟩ := Option.map_eq_some_iff.mp h
  obtain rfl := (magitProcessBuffer_tree htree hb₁).2 hfull
  rfl

/-- That a process has exited does not move anything. -/
theorem Laid.exit (h : Laid b ps) (i : ℕ) :
    Laid (b.update i fun s => { s with process := s.process.map fun p => { p with status := .exit } })
      ps := by
  refine h.update ?_ i
  refine fun p off s hs => ⟨hs.start, hs.content, hs.fin, hs.head, fun hlive =>
    ⟨(hs.live hlive).head, (hs.live hlive).body, fun q hq => ?_⟩, fun hended q hq => ?_⟩
  · obtain ⟨q', hq', rfl⟩ := Option.map_eq_some_iff.mp hq
    exact (hs.live hlive).mark q' hq'
  · obtain ⟨q', hq', rfl⟩ := Option.map_eq_some_iff.mp hq
    rfl

/-- **A step keeps the outputs in their places**, as long as the log is not full. -/
theorem step_placed (h : Placed b outs) (htree : b.Tree root n)
    (hfull : ¬ full σ.logMax (n + e.inserted)) (hstep : step σ b e = some b') :
    Placed b' (processed σ.fold outs e) := by
  obtain ⟨ps, hlaid, hshows⟩ := h
  cases e with
  | start timestamp cmd =>
    obtain ⟨r, hr, rfl⟩ := Option.map_eq_some_iff.mp hstep
    obtain ⟨b₁, hb₁, hlaid'⟩ := hlaid.startProcess timestamp cmd
    rw [magitStartProcess, magitProcessSetup_of_not_full htree hfull hr] at hb₁
    obtain rfl := Option.some.inj hb₁
    exact ⟨_, hlaid', forall₂_concat hshows (Or.inl rfl)⟩
  | call timestamp cmd output exitCode =>
    obtain ⟨r, hr, hfinish⟩ := Option.bind_eq_some_iff.mp hstep
    obtain ⟨b₁, p, hb₁, hlaid', hended, hbody⟩ := hlaid.callProcess timestamp cmd output exitCode
    rw [magitCallProcess, magitProcessSetup_of_not_full htree hfull hr, Option.bind_some, hfinish] at hb₁
    obtain rfl := Option.some.inj hb₁
    exact ⟨_, hlaid', forall₂_concat hshows (hbody.imp_right fun h => ⟨hended, h⟩)⟩
  | output proc string =>
    rw [step] at hstep
    split at hstep
    · next hrunning =>
      obtain ⟨pre, p, post, rfl, rfl, hlive⟩ := hlaid.exists_live htree.first hrunning
      obtain ⟨out, -, hout, -⟩ := List.forall₂_cons_right_iff.mp (List.forall₂_drop_append _ _ _ hshows)
      obtain ⟨text, rfl, hbody⟩ := hout.exists_body hlive
      obtain ⟨b₁, hb₁, hlaid'⟩ := hlaid.filter hlive hbody hrunning
      obtain rfl := Option.some.inj (hb₁.symm.trans hstep)
      refine ⟨_, hlaid', forall₂_split hshows fun out hshow => ?_⟩
      obtain ⟨text', rfl, hbody'⟩ := hshow.exists_body hlive
      obtain rfl := List.append_cancel_right (Option.some.inj (hbody.symm.trans hbody'))
      exact Or.inl rfl
    · cases hstep
  | finish proc exitCode =>
    rw [step] at hstep
    split at hstep
    · next hrunning =>
      obtain ⟨pre, p, post, rfl, rfl, hlive⟩ := hlaid.exists_live htree.first hrunning
      have hexit : ∀ s q, (b.update (pre.length + 1) fun s => { s with
          process := s.process.map fun p => { p with status := .exit } }).sections[pre.length + 1]?
            = some s → s.process = some q → q.status = .exit := by
        intro s q hs hq
        rw [Buffer.update, List.getElem?_modify_eq] at hs
        obtain ⟨s', -, rfl⟩ := Option.map_eq_some_iff.mp hs
        obtain ⟨q', -, rfl⟩ := Option.map_eq_some_iff.mp hq
        rfl
      obtain ⟨b₁, p', hb₁, hlaid', hended, hbody⟩ := (hlaid.exit _).finishSection exitCode hlive hexit
      obtain rfl := Option.some.inj (hb₁.symm.trans hstep)
      have hshow : ∀ out, p.Shows out → p'.Shows (id out) := fun out hshow => ?_
      · have hshows' := forall₂_split hshows hshow
        rw [List.modify_id] at hshows'
        exact ⟨_, hlaid', hshows'⟩
      · obtain ⟨text, rfl, hbody'⟩ := hshow.exists_body hlive
        rcases hbody with hbody | ⟨hnone, hempty, hline⟩
        · exact Or.inl (hbody.trans hbody')
        · have htext := List.append_cancel_right
            ((Option.some.inj (hbody'.symm.trans hempty)).trans (List.nil_append ['\n']).symm)
          exact Or.inr ⟨hended, hnone, htext, hline⟩
    · cases hstep
  | log heading lines =>
    obtain ⟨b₁, hb₁, rfl⟩ := Option.map_eq_some_iff.mp hstep
    obtain rfl := (magitProcessBuffer_tree htree hb₁).2 hfull
    exact ⟨_, hlaid.logAction heading lines, forall₂_concat hshows rfl⟩

/-! ## Runs -/

theorem full_mono {logMax : Option ℤ} {m : ℕ} (h : full logMax m) (hle : m ≤ n) : full logMax n := by
  obtain ⟨max, hmax, hlt⟩ := h
  exact ⟨max, hmax, by omega⟩

theorem inserted_cons (e : Event) (events : List Event) :
    inserted (e :: events) = e.inserted + inserted events := by
  rw [inserted, List.map_cons, List.sum_cons, inserted]

/-- A run keeps the outputs in their places, as long as the log does not get full. -/
theorem run_placed (h : Placed b outs) (htree : b.Tree root n)
    (hfull : ¬ full σ.logMax (n + inserted events)) (hrun : run σ events b = some b') :
    Placed b' (events.foldl (processed σ.fold) outs) := by
  induction events generalizing b outs root n with
  | nil =>
    obtain rfl := Option.some.inj hrun
    exact h
  | cons e events ih =>
    obtain ⟨b₁, hstep, hrun⟩ := Option.bind_eq_some_iff.mp hrun
    rw [inserted_cons, ← Nat.add_assoc] at hfull
    have hstep' : ¬ full σ.logMax (n + e.inserted) := fun hf => hfull (full_mono hf (Nat.le_add_right _ _))
    exact ih (step_placed h htree hstep' hstep) (step_tree htree hstep) hfull hrun

/-- Unless a message is logged, the root is the same. -/
theorem run_tree (h : b.Tree root n) (hlog : events.all (!·.isLog) = true)
    (hrun : run σ events b = some b') : b'.Tree root (n + inserted events) := by
  induction events generalizing b n with
  | nil =>
    obtain rfl := Option.some.inj hrun
    exact h
  | cons e events ih =>
    obtain ⟨b₁, hstep, hrun⟩ := Option.bind_eq_some_iff.mp hrun
    rw [List.all_cons, Bool.and_eq_true, Bool.not_eq_true'] at hlog
    have htree := step_tree h hstep
    rw [hlog.1, if_neg Bool.false_ne_true] at htree
    rw [inserted_cons, ← Nat.add_assoc]
    exact ih htree hlog.2 hrun

/-- Without messages the sections of a run are the children of the root, in order. -/
theorem run_children (h : b.Tree 0 n) (hlog : events.all (!·.isLog) = true)
    (hfull : ¬ full σ.logMax (n + inserted events)) (hchildren : b.children 0 = List.range' 1 n)
    (hrun : run σ events b = some b') : b'.children 0 = List.range' 1 (n + inserted events) := by
  induction events generalizing b n with
  | nil =>
    obtain rfl := Option.some.inj hrun
    exact hchildren
  | cons e events ih =>
    obtain ⟨b₁, hstep, hrun⟩ := Option.bind_eq_some_iff.mp hrun
    rw [List.all_cons, Bool.and_eq_true, Bool.not_eq_true'] at hlog
    rw [inserted_cons, ← Nat.add_assoc] at hfull ⊢
    have hstep' : ¬ full σ.logMax (n + e.inserted) := fun hf => hfull (full_mono hf (Nat.le_add_right _ _))
    have htree := step_tree h hstep
    rw [hlog.1, if_neg Bool.false_ne_true] at htree
    exact ih htree hlog.2 hfull (step_children h hstep hlog.1 hstep' hchildren) hrun

/-- A buffer that has just been created has only its root. -/
theorem created_tree : created.Tree 0 0 where
  root_eq := rfl
  root_le := le_rfl
  length := rfl
  first := rfl
  sublist := List.Sublist.refl _
  running _ i hi := by
    rw [created.running_eq] at hi
    rcases i with _ | i <;> cases hi

theorem created_placed : Placed created [] := ⟨[], ⟨rfl, _, [], rfl, LaidOut.nil 1⟩, List.Forall₂.nil⟩

/-- There is one output for each section that was inserted. -/
theorem length_processed (fold : Char → Char) (events : List Event) (outs : List (Option (List Char))) :
    (events.foldl (processed fold) outs).length = outs.length + inserted events := by
  induction events generalizing outs with
  | nil => rfl
  | cons e events ih =>
    rw [List.foldl_cons, ih, inserted_cons, ← Nat.add_assoc]
    cases e <;> simp [processed, Event.inserted]

/-- Where the sections are. -/
theorem LaidOut.exists_at (h : LaidOut off ps ss) (hi : ps[i]? = some p) :
    ∃ s, ss[i]? = some s ∧ p.At (off + (texts (ps.take i)).length) s := by
  induction h generalizing i with
  | nil => cases hi
  | @cons off p' s ps ss hs hrest ih =>
    rcases i with _ | i
    · obtain rfl := Option.some.inj hi
      exact ⟨s, rfl, hs⟩
    · obtain ⟨s', hs', hat⟩ := ih hi
      refine ⟨s', hs', ?_⟩
      rwa [List.take_succ_cons, texts_cons, List.length_append, ← Nat.add_assoc]

/-- Each piece has its section. -/
theorem Laid.exists_at (h : Laid b ps) (hi : ps[i]? = some p) :
    ∃ s, b.sections[i + 1]? = some s ∧ p.At (1 + (texts (ps.take i)).length) s := by
  obtain ⟨-, r, ss, hss, hlaid⟩ := h
  obtain ⟨s, hs, hat⟩ := hlaid.exists_at hi
  exact ⟨s, by rw [hss, List.getElem?_cons_succ, hs], hat⟩

/-- The sections are in the order of the pieces. -/
theorem Laid.precedes (h : Laid b ps) {j : ℕ} (hij : i < j) (hj : j < ps.length) :
    b.Precedes (i + 1) (j + 1) := by
  obtain ⟨s, hs, hat⟩ := h.exists_at (List.getElem?_eq_getElem (hij.trans hj))
  obtain ⟨s', hs', hat'⟩ := h.exists_at (List.getElem?_eq_getElem hj)
  refine ⟨s, s', _, hs, hs', hat.fin, ?_⟩
  rw [hat'.start]
  obtain ⟨between, hbetween⟩ : ps.take (i + 1) <+: ps.take j :=
    List.take_prefix_take_left (Nat.succ_le_of_lt hij)
  rw [← hbetween, texts_append, ← List.take_append_getElem (hij.trans hj), texts_append, texts_cons,
    texts_nil, List.append_nil, List.length_append, List.length_append, ← Nat.add_assoc,
    ← Nat.add_assoc]
  exact Nat.le_add_right _ _

/-- The section of a piece has its output, and nothing else. -/
theorem Laid.owns (h : Laid b ps) {out : List Char} (hi : ps[i]? = some p)
    (hshows : p.Shows (some out)) : ∃ s, b.sections[i + 1]? = some s ∧ s.Owns b.text out := by
  obtain ⟨s, hs, hat⟩ := h.exists_at hi
  obtain ⟨hlt, rfl⟩ := List.getElem?_eq_some_iff.mp hi
  have htext : b.text = texts (ps.take i) ++ ps[i].text ++ (texts (ps.drop (i + 1)) ++ ['\n']) := by
    conv_lhs => rw [h.1, ← List.take_append_drop i ps, List.drop_eq_getElem_cons hlt, texts_append,
      texts_cons]
    simp only [List.append_assoc]
  refine ⟨s, hs, _, hat.fin, ?_⟩
  rcases hshows with hbody | ⟨-, hbody, rfl, line, hline, hhead⟩
  · refine Or.inl ⟨_, by rw [hat.content, hbody]; rfl, ?_⟩
    have hsplit : b.text = texts (ps.take i) ++ ps[i].head ++ (out ++ ['\n'])
        ++ (texts (ps.drop (i + 1)) ++ ['\n']) := by
      rw [htext, Piece.text, hbody, Option.getD_some]
      simp only [List.append_assoc]
    refine region_append hsplit ?_ ?_
    · rw [List.length_append]
      simp only
      omega
    · rw [List.length_append, Piece.text, hbody, Option.getD_some, List.length_append]
      simp only
      omega
  · refine Or.inr ⟨by rw [hat.content, hbody]; rfl, rfl, line, hline, ?_⟩
    have hline : ps[i].text = line ++ ['\n'] := by
      rw [Piece.text, hbody, hhead]
      simp
    rw [← hline]
    refine region_append htext ?_ ?_
    · rw [hat.start]
      simp only
      omega
    · simp only
      omega

/-- Outputs in their places are separate. -/
theorem Placed.separate (h : Placed b (events.foldl (processed σ.fold) [])) :
    Separate σ.fold events b := by
  obtain ⟨ps, hlaid, hshows⟩ := h
  have hlength : ps.length = inserted events := by
    rw [← hshows.length_eq, length_processed, List.length_nil, Nat.zero_add]
  constructor
  · intro i j hi hij hj
    obtain ⟨i, rfl⟩ := Nat.exists_eq_add_of_le' hi
    obtain ⟨j, rfl⟩ := Nat.exists_eq_add_of_le' (hi.trans hij.le)
    exact hlaid.precedes (by omega) (by omega)
  · intro i out hout
    obtain ⟨hi, hout'⟩ := List.getElem?_eq_some_iff.mp hout
    have hi' : i < ps.length := hshows.length_eq ▸ hi
    have hshow := hshows.get hi hi'
    rw [List.get_eq_getElem, List.get_eq_getElem, hout'] at hshow
    exact hlaid.owns (List.getElem?_eq_getElem hi') hshow

/-! ## Every process's output stays in its own section -/

/-- **What a run keeps.**  Unless a message is logged, the root is the section that was created
first, its children are in the order of their insertion, and none of a subprocess that is running is
missing.  Unless the log is full, every section has its output to itself, and if no message is logged
then the root has them all as its children. -/
theorem kept_of_run (h : run σ events created = some b) :
    (events.all (!·.isLog) = true → b.root = some 0 ∧
      List.Sublist (b.children 0) (List.range' 1 (inserted events)) ∧
      ∀ i, b.running i = true → i ∈ b.children 0) ∧
    (¬ full σ.logMax (inserted events) → Separate σ.fold events b ∧
      (events.all (!·.isLog) = true → Kept σ.fold events b)) := by
  have htree : events.all (!·.isLog) = true → b.Tree 0 (inserted events) := fun hlog => by
    have htree := run_tree created_tree hlog h
    rwa [Nat.zero_add] at htree
  refine ⟨fun hlog => ⟨(htree hlog).root_eq, (htree hlog).sublist, (htree hlog).running rfl⟩,
    fun hfull => ?_⟩
  rw [← Nat.zero_add (inserted events)] at hfull
  have hseparate := (run_placed created_placed created_tree hfull h).separate
  refine ⟨hseparate, fun hlog => ⟨hseparate, (htree hlog).root_eq, ?_⟩⟩
  rw [← Nat.zero_add (inserted events)]
  exact run_children created_tree hlog hfull rfl h

/-- Two subprocesses that are running at once. -/
def interleaved : List Event :=
  [.start none ['a'], .start none ['b'], .output 1 ['x', '\n', 'y'], .output 2 ['z', '\r'],
    .output 1 ['\r', 'w'], .finish 2 1, .finish 1 0]

/-- The interleaved outputs of the example are kept. -/
theorem kept_of_run_interleaved :
    ∃ b, run ⟨id, some 32⟩ interleaved created = some b ∧ Kept id interleaved b := by
  refine ⟨_, rfl, ((kept_of_run (show run ⟨id, some 32⟩ interleaved created = some _ from rfl)).2
    ?_).2 (by decide)⟩
  rintro ⟨max, hmax, hlt⟩
  obtain rfl := Option.some.inj hmax
  exact absurd hlt (by decide)

/-- A message that is logged. -/
def message : List Event := [.log ['x'] []]

/-- A log that is full, of which the first section is removed. -/
def truncated : List Event := [.start none ['a'], .finish 1 0, .start none ['b'], .start none ['c']]

/-- A log that is full, where sections in front of a subprocess that is running are removed one by
one, each of them with one character of what follows. -/
def eaten : List Event :=
  [.start none ['a'], .start none ['b'], .start none ['c'], .start none [], .output 4 ['d'],
    .finish 3 0, .start none ['e'], .finish 2 0, .start none ['e'], .finish 1 0, .start none ['e'],
    .finish 4 0]

set_option maxRecDepth 4000 in
/-- A message, a truncated log and an eaten newline each lose something. -/
theorem not_kept :
    (∃ b, run ⟨id, none⟩ message created = some b ∧ ¬ Kept id message b) ∧
    (∃ b, run ⟨id, some 1⟩ truncated created = some b ∧ ¬ Kept id truncated b) ∧
    ∃ b, run ⟨id, some 1⟩ eaten created = some b ∧ ¬ Kept id eaten b := by
  refine ⟨⟨_, rfl, fun h => absurd h.root (by decide)⟩,
    ⟨_, rfl, fun h => absurd h.children (by decide)⟩, _, rfl, fun h => ?_⟩
  obtain ⟨s, hs, fin, hfin, hown⟩ := h.owns 3 ['d'] (by decide)
  obtain rfl := Option.some.inj hs
  obtain rfl := Option.some.inj hfin
  rcases hown with ⟨content, hcontent, hregion⟩ | ⟨hcontent, -⟩
  · obtain rfl := Option.some.inj hcontent
    exact absurd hregion (by decide)
  · cases hcontent

end Magit.ProcessLog
