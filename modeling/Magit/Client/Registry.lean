import Magit.Client.Filter

/-!
# Client/Registry — the server processes of the git roots

`magit-server-processes` and `magit-server-buffers` are keyed by the git root, and the filter and
the sentinel of a process use that key too, whichever process is registered under it by then.  A
`Registry` is driven by `Event`s in any order; it records beside the program's variables which
processes were stopped, whose exit was reported, and which process wrote each stored byte.

An event of a process that a newer one has followed can hit the newer one.  As long as none does
(`Benign`), the registered process is the newest that was neither stopped nor reported, and filters
read what their own process wrote (`registry_safe`).
-/

namespace Magit.Client

open Emacs Framing

variable {κ ω : Type}

/-- `process-status`, as far as it is asked for. -/
inductive ProcessStatus
  | run
  | exit
  | signal
  deriving DecidableEq, Repr

/-- A process with its plist. -/
structure Process (κ : Type) where
  gitRoot : Text
  status : ProcessStatus := .run
  requestCounter : ℕ := 0
  pendingCallbacks : List (ℕ × κ) := []

/-- A process that runs ends with a status; one that has ended keeps its own. -/
def Process.finish (status : ProcessStatus) (proc : Process κ) : Process κ :=
  if proc.status = .run then { proc with status := status } else proc

@[simp] theorem Process.gitRoot_finish (status : ProcessStatus) (proc : Process κ) :
    (proc.finish status).gitRoot = proc.gitRoot := by
  unfold finish
  split_ifs <;> rfl

/-- What a filter call leaves on the plist. -/
def Process.withSession (session : Session κ ω) (proc : Process κ) : Process κ :=
  { proc with
    requestCounter := session.requestCounter
    pendingCallbacks := session.pendingCallbacks }

/-- The program's two alists, the processes made so far with the newest first, and the record. -/
structure Registry (κ ω : Type) where
  magitServerProcesses : List (Text × Option ℕ) := []
  magitServerBuffers : Buffers := []
  processes : List (ℕ × Process κ) := []
  world : ω
  stopped : List ℕ := []
  reported : List ℕ := []
  writers : Text → List ℕ := fun _ => []

namespace Registry

/-- `magit-server-get-process` -/
def magitServerGetProcess (s : Registry κ ω) (gitRoot : Text) : Option ℕ :=
  (assoc gitRoot s.magitServerProcesses).getD none

/-- `magit-server-set-process` -/
def magitServerSetProcess (s : Registry κ ω) (gitRoot : Text) (process : Option ℕ) :
    Registry κ ω :=
  { s with magitServerProcesses := setAlistGet gitRoot process s.magitServerProcesses }

/-- The bytes stored for a git root. -/
def stored (s : Registry κ ω) (gitRoot : Text) : List UInt8 :=
  magitServerGetBuffer gitRoot s.magitServerBuffers

/-- Emptying the buffer of a git root, to nil or to the empty string. -/
def clearBuffer (s : Registry κ ω) (gitRoot : Text) (buffer : Option (List UInt8)) :
    Registry κ ω :=
  { s with
    magitServerBuffers := magitServerSetBuffer gitRoot buffer s.magitServerBuffers
    writers := Function.update s.writers gitRoot [] }

/-- Changes the process with a number. -/
def update (s : Registry κ ω) (p : ℕ) (f : Process κ → Process κ) : Registry κ ω :=
  { s with processes := s.processes.map fun e => if e.1 = p then (e.1, f e.2) else e }

/-- `make-process`, with the git root put on the plist. -/
def makeProcess (s : Registry κ ω) (gitRoot : Text) : Registry κ ω :=
  { s with processes := (s.processes.length, { gitRoot := gitRoot }) :: s.processes }

/-! ## The functions of the client -/

/-- `magit-server-start` -/
def magitServerStart (s : Registry κ ω) (gitRoot : Text) : Registry κ ω :=
  match s.magitServerGetProcess gitRoot with
  | some _ => s
  | none =>
    let process := s.processes.length
    ((s.makeProcess gitRoot).magitServerSetProcess gitRoot (some process)).clearBuffer gitRoot
      (some [])

/-- `delete-process` on a live process ends it; its sentinel is an event of its own. -/
def magitServerStop (s : Registry κ ω) (gitRoot : Text) : Registry κ ω :=
  let s :=
    match s.magitServerGetProcess gitRoot with
    | some p =>
      let s := s.update p (Process.finish .signal)
      { s with stopped := p :: s.stopped }
    | none => s
  (s.magitServerSetProcess gitRoot none).clearBuffer gitRoot none

/-- A process may also change its state without having ended, which the sentinel ignores. -/
def magitServerSentinel (s : Registry κ ω) (p : ℕ) (proc : Process κ) : Registry κ ω :=
  if proc.status = .exit ∨ proc.status = .signal then
    let s := { s with reported := p :: s.reported }
    (s.clearBuffer proc.gitRoot none).magitServerSetProcess proc.gitRoot none
  else s

/-- The process ends by itself, which Emacs will notice later. -/
def exit (s : Registry κ ω) (p : ℕ) : Registry κ ω := s.update p (Process.finish .exit)

variable [DecidableEq κ]

/-- The filter's view of a process. -/
def connection (s : Registry κ ω) (proc : Process κ) : Connection κ ω where
  buffers := s.magitServerBuffers
  session := ⟨proc.requestCounter, proc.pendingCallbacks, s.world⟩
  dispatched := []

/-- A chunk that a process wrote is passed to its filter. -/
def output (L : Lisp κ ω) (s : Registry κ ω) (p : ℕ) (proc : Process κ) (chunk : List UInt8) :
    Registry κ ω :=
  let c := magitServerFilter L proc.gitRoot (s.connection proc) chunk
  let s' := s.update p (Process.withSession c.session)
  -- the writers of the bytes that are stored now, which are the last ones of those before
  let writers := s.writers proc.gitRoot ++ List.replicate chunk.length p
  let kept :=
    if (filterLoop L (s.stored proc.gitRoot ++ chunk) (s.connection proc).session).signalled then
      s.writers proc.gitRoot
    else writers.drop (writers.length - (magitServerGetBuffer proc.gitRoot c.buffers).length)
  { s' with
    magitServerBuffers := c.buffers
    world := c.session.world
    writers := Function.update s.writers proc.gitRoot kept }

end Registry

/-! ## Runs -/

/-- What happens to the processes of the server. -/
inductive Event
  | start (gitRoot : Text)
  | stop (gitRoot : Text)
  | exit (p : ℕ)
  | output (p : ℕ) (chunk : List UInt8)
  | sentinel (p : ℕ)

namespace Registry

/-- The processes started for a git root, the newest first. -/
def startedFor (s : Registry κ ω) (gitRoot : Text) : List ℕ :=
  (s.processes.filter fun e => e.2.gitRoot = gitRoot).map Prod.fst

/-- The process started last for a git root. -/
def newest (s : Registry κ ω) (gitRoot : Text) : Option ℕ := (s.startedFor gitRoot).head?

/-- Neither stopped nor reported as ended. -/
def alive (s : Registry κ ω) (p : ℕ) : Bool := p ∉ s.stopped ∧ p ∉ s.reported

/-- The registered processes are the newest ones that are alive. -/
def RegistersNewest (s : Registry κ ω) : Prop :=
  ∀ gitRoot, s.magitServerGetProcess gitRoot = (s.startedFor gitRoot).find? s.alive

/-- An event of a process does no harm to a newer one: it comes from the newest process of its git
root, or else its sentinel finds nothing registered and nothing stored, or its filter finds nothing
stored and gets whole responses. -/
def Benign (s : Registry κ ω) : Event → Prop
  | .sentinel p =>
    ∀ proc, assoc p s.processes = some proc →
      s.newest proc.gitRoot = some p
        ∨ s.magitServerGetProcess proc.gitRoot = none ∧ s.stored proc.gitRoot = []
  | .output p chunk =>
    ∀ proc, assoc p s.processes = some proc →
      s.newest proc.gitRoot = some p
        ∨ s.stored proc.gitRoot = [] ∧ responseFrames.rest chunk = []
  | _ => True

section

variable [DecidableEq κ]

/-- What an event does. -/
def step (L : Lisp κ ω) (s : Registry κ ω) : Event → Registry κ ω
  | .start gitRoot => s.magitServerStart gitRoot
  | .stop gitRoot => s.magitServerStop gitRoot
  | .exit p => s.exit p
  | .output p chunk =>
    match assoc p s.processes with
    | some proc => s.output L p proc chunk
    | none => s
  | .sentinel p =>
    match assoc p s.processes with
    | some proc => s.magitServerSentinel p proc
    | none => s

/-- What the other processes may rely on: the sentinel of a process that is not the newest changes
no registration and no buffer, and a filter reads only what its own process wrote. -/
def Respects (L : Lisp κ ω) (s : Registry κ ω) : Event → Prop
  | .sentinel p =>
    ∀ proc, assoc p s.processes = some proc → s.newest proc.gitRoot ≠ some p →
      ∀ gitRoot, (s.step L (.sentinel p)).magitServerGetProcess gitRoot
          = s.magitServerGetProcess gitRoot
        ∧ (s.step L (.sentinel p)).stored gitRoot = s.stored gitRoot
  | .output p _ =>
    ∀ proc, assoc p s.processes = some proc → ∀ w ∈ s.writers proc.gitRoot, w = p
  | _ => True

/-- The runs in which every event is benign. -/
inductive BenignRun (L : Lisp κ ω) : Registry κ ω → Prop
  | init (world : ω) : BenignRun L { world := world }
  | step {s : Registry κ ω} (h : BenignRun L s) {e : Event} (he : s.Benign e) :
    BenignRun L (s.step L e)

end

/-! ## What the functions change -/

section

variable (s : Registry κ ω) (gitRoot gitRoot' : Text)

@[simp] theorem magitServerGetProcess_setProcess (process : Option ℕ) :
    (s.magitServerSetProcess gitRoot process).magitServerGetProcess gitRoot'
      = if gitRoot = gitRoot' then process else s.magitServerGetProcess gitRoot' := by
  rw [magitServerGetProcess, magitServerSetProcess, assoc_setAlistGet]
  split_ifs <;> rfl

@[simp] theorem stored_clearBuffer {buffer : Option (List UInt8)} (h : buffer.getD [] = []) :
    (s.clearBuffer gitRoot buffer).stored gitRoot'
      = if gitRoot = gitRoot' then [] else s.stored gitRoot' := by
  rw [stored, clearBuffer, magitServerGetBuffer_setBuffer, h]
  rfl

/-- A change of a process that keeps its root keeps what was started for it. -/
theorem startedFor_update (p : ℕ) {f : Process κ → Process κ}
    (hf : ∀ proc, (f proc).gitRoot = proc.gitRoot) :
    (s.update p f).startedFor gitRoot = s.startedFor gitRoot := by
  rw [startedFor, update, startedFor, List.filter_map, List.map_map]
  congr 1
  · funext e
    rw [Function.comp_apply]
    split_ifs <;> rfl
  · congr 1
    funext e
    rw [Function.comp_apply]
    split_ifs
    · rw [hf]
    · rfl

/-- A change of a process keeps the processes that there are. -/
theorem keys_update (p : ℕ) (f : Process κ → Process κ) :
    (s.update p f).processes.map Prod.fst = s.processes.map Prod.fst := by
  rw [update, List.map_map]
  congr 1
  funext e
  rw [Function.comp_apply]
  split_ifs <;> rfl

theorem mem_startedFor {s : Registry κ ω} {gitRoot : Text} {p : ℕ} :
    p ∈ s.startedFor gitRoot ↔ ∃ proc, (p, proc) ∈ s.processes ∧ proc.gitRoot = gitRoot := by
  simp [startedFor]

theorem mem_of_newest {s : Registry κ ω} {gitRoot : Text} {p : ℕ}
    (h : s.newest gitRoot = some p) : p ∈ s.startedFor gitRoot :=
  List.mem_of_mem_head? h

end

/-! ## The invariant -/

/-- Between two benign events: process numbers are distinct and used up in order, of the processes
of a git root only the registered one is alive and it is the newest, and all stored bytes were
written by the newest. -/
structure Inv (s : Registry κ ω) : Prop where
  nodup : (s.processes.map Prod.fst).Nodup
  lt : ∀ p ∈ s.processes.map Prod.fst, p < s.processes.length
  fresh : ∀ p, s.processes.length ≤ p → s.alive p = true
  live : ∀ gitRoot, (s.startedFor gitRoot).filter s.alive = (s.magitServerGetProcess gitRoot).toList
  registered : ∀ gitRoot p, s.magitServerGetProcess gitRoot = some p → s.newest gitRoot = some p
  owned : ∀ gitRoot, ∀ w ∈ s.writers gitRoot, s.newest gitRoot = some w
  tracked : ∀ gitRoot, (s.writers gitRoot).length = (s.stored gitRoot).length

/-- Before the first process nothing is registered. -/
theorem Inv.init (world : ω) : Inv (κ := κ) { world := world } where
  nodup := List.nodup_nil
  lt _ hp := absurd hp (by simp)
  fresh _ _ := rfl
  live _ := rfl
  registered _ _ h := absurd h (by simp [magitServerGetProcess])
  owned _ _ hw := absurd hw (by simp)
  tracked _ := rfl

variable {s s' : Registry κ ω}

/-- A process belongs to one git root. -/
theorem Inv.gitRoot_unique (h : Inv s) {p : ℕ} {gitRoot gitRoot' : Text}
    (hp : p ∈ s.startedFor gitRoot) (hp' : p ∈ s.startedFor gitRoot') : gitRoot = gitRoot' := by
  obtain ⟨proc, hmem, rfl⟩ := mem_startedFor.mp hp
  obtain ⟨proc', hmem', rfl⟩ := mem_startedFor.mp hp'
  have heq := List.inj_on_of_nodup_map h.nodup hmem hmem' rfl
  rw [(Prod.mk.inj heq).2]

/-- **Under the invariant the registered processes are the newest ones alive.** -/
theorem Inv.registersNewest (h : Inv s) : s.RegistersNewest := by
  intro gitRoot
  rw [← List.head?_filter, h.live]
  cases s.magitServerGetProcess gitRoot <;> rfl

theorem mem_startedFor_of_assoc {p : ℕ} {proc : Process κ} (h : assoc p s.processes = some proc) :
    p ∈ s.startedFor proc.gitRoot :=
  mem_startedFor.mpr ⟨proc, mem_of_assoc h, rfl⟩

/-! ## One step keeps the invariant -/

/-- A process `p` of a git root is retired and the entries of the root are emptied. -/
structure Retires (gitRoot : Text) (p : Option ℕ) (s s' : Registry κ ω) : Prop where
  keys : s'.processes.map Prod.fst = s.processes.map Prod.fst
  startedFor : ∀ r, s'.startedFor r = s.startedFor r
  alive : ∀ q, s'.alive q = (s.alive q && decide (p ≠ some q))
  process : ∀ r, s'.magitServerGetProcess r
    = if gitRoot = r then none else s.magitServerGetProcess r
  stored : ∀ r, s'.stored r = if gitRoot = r then [] else s.stored r
  writers : ∀ r, s'.writers r = if gitRoot = r then [] else s.writers r

/-- **Retiring the process that is registered, if one is, keeps the invariant.** -/
theorem Inv.retire (h : Inv s) {gitRoot : Text} {p : Option ℕ} (hr : Retires gitRoot p s s')
    (hp : ∀ q, p = some q → q ∈ s.startedFor gitRoot)
    (hreg : s.magitServerGetProcess gitRoot = none ∨ s.magitServerGetProcess gitRoot = p) :
    Inv s' where
  nodup := hr.keys ▸ h.nodup
  lt := by
    have hlen : s'.processes.length = s.processes.length := by
      simpa using congrArg List.length hr.keys
    rw [hr.keys, hlen]
    exact h.lt
  fresh q hq := by
    have hlen : s'.processes.length = s.processes.length := by
      simpa using congrArg List.length hr.keys
    rw [hlen] at hq
    rw [hr.alive, h.fresh q hq, Bool.true_and, decide_eq_true_eq]
    intro hpq
    obtain ⟨proc, hmem, -⟩ := mem_startedFor.mp (hp q hpq)
    exact absurd (h.lt q (List.mem_map_of_mem hmem)) (not_lt.mpr hq)
  live r := by
    have hfilter : (s'.startedFor r).filter s'.alive
        = (s.magitServerGetProcess r).toList.filter fun q => decide (p ≠ some q) := by
      rw [hr.startedFor, ← h.live r, List.filter_filter]
      exact List.filter_congr fun q _ => by rw [hr.alive, Bool.and_comm]
    rw [hfilter, hr.process]
    split_ifs with heq
    · subst heq
      rcases hreg with hnone | hsome
      · rw [hnone]; rfl
      · rw [hsome]
        cases p <;> simp
    · cases hq : s.magitServerGetProcess r with
      | none => rfl
      | some q =>
        have hne : p ≠ some q := fun hpq =>
          heq (h.gitRoot_unique (hp q hpq) (mem_of_newest (h.registered r q hq)))
        simp [hne]
  registered r q hq := by
    rw [hr.process] at hq
    split_ifs at hq
    rw [newest, hr.startedFor]
    exact h.registered r q hq
  owned r w hw := by
    rw [hr.writers] at hw
    split_ifs at hw
    · simp at hw
    · rw [newest, hr.startedFor]
      exact h.owned r w hw
  tracked r := by
    rw [hr.writers, hr.stored]
    split_ifs
    · rfl
    · exact h.tracked r

/-- Taking a process out of those that are alive, and emptying the entries of a git root. -/
theorem retires_clear {s₁ : Registry κ ω} {gitRoot : Text} {p : Option ℕ}
    (hkeys : s₁.processes.map Prod.fst = s.processes.map Prod.fst)
    (hstarted : ∀ r, s₁.startedFor r = s.startedFor r)
    (halive : ∀ q, s₁.alive q = (s.alive q && decide (p ≠ some q)))
    (hprocesses : s₁.magitServerProcesses = s.magitServerProcesses)
    (hbuffers : s₁.magitServerBuffers = s.magitServerBuffers) (hwriters : s₁.writers = s.writers) :
    Retires gitRoot p s ((s₁.magitServerSetProcess gitRoot none).clearBuffer gitRoot none) where
  keys := hkeys
  startedFor := hstarted
  alive := halive
  process r := by
    refine (magitServerGetProcess_setProcess s₁ gitRoot r none).trans ?_
    rw [magitServerGetProcess, hprocesses]
    rfl
  stored r := by
    refine (stored_clearBuffer _ gitRoot r rfl).trans ?_
    rw [stored, magitServerSetProcess, hbuffers]
    rfl
  writers r := by
    simp only [clearBuffer, magitServerSetProcess, hwriters, Function.update_apply, eq_comm]

/-- A process is no longer alive once it counts among the stopped or the reported. -/
theorem alive_of_cons {s₁ : Registry κ ω} {p : ℕ}
    (h : s₁.stopped = p :: s.stopped ∧ s₁.reported = s.reported
      ∨ s₁.stopped = s.stopped ∧ s₁.reported = p :: s.reported) (q : ℕ) :
    s₁.alive q = (s.alive q && decide (some p ≠ some q)) := by
  rw [alive, alive, Bool.eq_iff_iff, Bool.and_eq_true, decide_eq_true_eq, decide_eq_true_eq,
    decide_eq_true_eq, ne_eq, Option.some.injEq, eq_comm]
  rcases h with ⟨hstopped, hreported⟩ | ⟨hstopped, hreported⟩ <;>
    rw [hstopped, hreported, List.mem_cons] <;> tauto

/-- Stopping a server keeps the invariant. -/
theorem Inv.stop (h : Inv s) (gitRoot : Text) : Inv (s.magitServerStop gitRoot) := by
  unfold magitServerStop
  cases hp : s.magitServerGetProcess gitRoot with
  | none =>
    have hr : Retires gitRoot none s ((s.magitServerSetProcess gitRoot none).clearBuffer gitRoot
        none) := retires_clear rfl (fun _ => rfl) (fun q => by simp) rfl rfl rfl
    exact h.retire hr (by simp) (.inl hp)
  | some p =>
    refine h.retire (p := some p) (retires_clear (keys_update s p _) (fun r => ?_)
      (alive_of_cons (.inl ⟨rfl, rfl⟩)) rfl rfl rfl) (fun q hq => ?_) (.inr hp)
    · exact startedFor_update s r p (Process.gitRoot_finish .signal)
    · exact mem_of_newest (h.registered _ _ (hp.trans hq))

/-- A sentinel keeps the invariant if it is that of the newest process, or finds nothing to clear.
-/
theorem Inv.sentinel (h : Inv s) {p : ℕ} {proc : Process κ} (hp : assoc p s.processes = some proc)
    (hb : s.newest proc.gitRoot = some p
      ∨ s.magitServerGetProcess proc.gitRoot = none ∧ s.stored proc.gitRoot = []) :
    Inv (s.magitServerSentinel p proc) := by
  unfold magitServerSentinel
  split_ifs
  · have hr : Retires proc.gitRoot (some p) s
        ((({ s with reported := p :: s.reported } : Registry κ ω).magitServerSetProcess proc.gitRoot
          none).clearBuffer proc.gitRoot none) :=
      retires_clear rfl (fun _ => rfl) (alive_of_cons (.inr ⟨rfl, rfl⟩)) rfl rfl rfl
    refine h.retire hr (fun q hq => Option.some.inj hq ▸ mem_startedFor_of_assoc hp) ?_
    rcases hb with hnewest | ⟨hnone, -⟩
    · cases hq : s.magitServerGetProcess proc.gitRoot with
      | none => exact .inl rfl
      | some q => exact .inr ((h.registered _ _ hq).symm.trans hnewest)
    · exact .inl hnone
  · exact h

/-- The exit of a process keeps the invariant. -/
theorem Inv.exit (h : Inv s) (p : ℕ) : Inv (s.exit p) := by
  have hstarted : ∀ r, (s.exit p).startedFor r = s.startedFor r := fun r =>
    startedFor_update s r p (Process.gitRoot_finish .exit)
  have hkeys : (s.exit p).processes.map Prod.fst = s.processes.map Prod.fst := keys_update s p _
  have hlen : (s.exit p).processes.length = s.processes.length := by
    simpa using congrArg List.length hkeys
  refine ⟨hkeys ▸ h.nodup, by rw [hkeys, hlen]; exact h.lt, by rw [hlen]; exact h.fresh,
    fun r => ?_,
    fun r q hq => ?_, fun r w hw => ?_, h.tracked⟩
  · rw [hstarted]; exact h.live r
  · rw [newest, hstarted]; exact h.registered r q hq
  · rw [newest, hstarted]; exact h.owned r w hw

/-- A new process is the newest one for its root, and for no other. -/
theorem startedFor_makeProcess (s : Registry κ ω) (gitRoot r : Text) :
    (s.makeProcess gitRoot).startedFor r
      = if gitRoot = r then s.processes.length :: s.startedFor r else s.startedFor r := by
  rw [startedFor, makeProcess, List.filter_cons]
  dsimp only
  by_cases heq : gitRoot = r
  · rw [if_pos heq, if_pos (decide_eq_true heq)]; rfl
  · rw [if_neg heq, if_neg (by simpa using heq)]; rfl

/-- A process is started for a git root. -/
structure Starts (gitRoot : Text) (s s' : Registry κ ω) : Prop where
  keys : s'.processes.map Prod.fst = s.processes.length :: s.processes.map Prod.fst
  startedFor : ∀ r, s'.startedFor r
    = if gitRoot = r then s.processes.length :: s.startedFor r else s.startedFor r
  alive : ∀ q, s'.alive q = s.alive q
  process : ∀ r, s'.magitServerGetProcess r
    = if gitRoot = r then some s.processes.length else s.magitServerGetProcess r
  stored : ∀ r, s'.stored r = if gitRoot = r then [] else s.stored r
  writers : ∀ r, s'.writers r = if gitRoot = r then [] else s.writers r

/-- Starting a server where there is none makes one process and nothing else. -/
theorem starts_magitServerStart {gitRoot : Text} (hnone : s.magitServerGetProcess gitRoot = none) :
    Starts gitRoot s (s.magitServerStart gitRoot) := by
  rw [magitServerStart, hnone]
  refine ⟨rfl, startedFor_makeProcess s gitRoot, fun _ => rfl, fun r => ?_, fun r => ?_,
    fun r => ?_⟩
  · exact magitServerGetProcess_setProcess (s.makeProcess gitRoot) gitRoot r _
  · exact stored_clearBuffer _ gitRoot r rfl
  · simp only [clearBuffer, magitServerSetProcess, makeProcess, Function.update_apply, eq_comm]

/-- A new process for a root without one keeps the invariant. -/
theorem Inv.of_starts (h : Inv s) {gitRoot : Text} (hs : Starts gitRoot s s')
    (hnone : s.magitServerGetProcess gitRoot = none) : Inv s' := by
  have hkey : s.processes.length ∉ s.processes.map Prod.fst := fun hmem =>
    lt_irrefl _ (h.lt _ hmem)
  have hlen : s'.processes.length = s.processes.length + 1 := by
    simpa using congrArg List.length hs.keys
  refine ⟨hs.keys ▸ List.nodup_cons.mpr ⟨hkey, h.nodup⟩, fun p hp => ?_, fun p hp => ?_,
    fun r => ?_, fun r p hp => ?_, fun r w hw => ?_, fun r => ?_⟩
  · rw [hs.keys] at hp
    rcases List.mem_cons.mp hp with rfl | hp
    · omega
    · have := h.lt p hp
      omega
  · rw [hs.alive]
    exact h.fresh p (by omega)
  · rw [hs.startedFor, hs.process, funext hs.alive]
    split_ifs with heq
    · subst heq
      rw [List.filter_cons, if_pos (h.fresh _ le_rfl), h.live, hnone]
      rfl
    · exact h.live r
  · rw [hs.process] at hp
    rw [newest, hs.startedFor]
    split_ifs at hp ⊢
    · exact hp
    · exact h.registered r p hp
  · rw [hs.writers] at hw
    rw [newest, hs.startedFor]
    split_ifs at hw ⊢
    · simp at hw
    · exact h.owned r w hw
  · rw [hs.writers, hs.stored]
    split_ifs
    · rfl
    · exact h.tracked r

/-- Starting a server keeps the invariant. -/
theorem Inv.start (h : Inv s) (gitRoot : Text) : Inv (s.magitServerStart gitRoot) := by
  cases hp : s.magitServerGetProcess gitRoot with
  | none => exact h.of_starts (starts_magitServerStart hp) hp
  | some p =>
    rw [magitServerStart, hp]
    exact h

variable [DecidableEq κ] {L : Lisp κ ω}

/-- The bytes stored under a git root change, and with them the record of who wrote them. -/
structure Writes (gitRoot : Text) (s s' : Registry κ ω) : Prop where
  keys : s'.processes.map Prod.fst = s.processes.map Prod.fst
  startedFor : ∀ r, s'.startedFor r = s.startedFor r
  alive : ∀ q, s'.alive q = s.alive q
  process : ∀ r, s'.magitServerGetProcess r = s.magitServerGetProcess r
  stored : ∀ r, gitRoot ≠ r → s'.stored r = s.stored r
  writers : ∀ r, gitRoot ≠ r → s'.writers r = s.writers r

/-- Output of a process is written for its root only. -/
theorem writes_output (s : Registry κ ω) (p : ℕ) (proc : Process κ) (chunk : List UInt8) :
    Writes proc.gitRoot s (s.output L p proc chunk) where
  keys := keys_update s p (Process.withSession (magitServerFilter L _ _ chunk).session)
  startedFor r :=
    startedFor_update s r p (f := Process.withSession (magitServerFilter L _ _ chunk).session)
      fun _ => rfl
  alive _ := rfl
  process _ := rfl
  stored _ hne := magitServerGetBuffer_filter_of_ne L hne _ chunk
  writers _ hne := Function.update_of_ne hne.symm _ _

omit [DecidableEq κ] in
/-- What is written for a root by its newest process keeps the invariant. -/
theorem Inv.of_writes (h : Inv s) {gitRoot : Text} (hw : Writes gitRoot s s')
    (howned : ∀ w ∈ s'.writers gitRoot, s.newest gitRoot = some w)
    (htracked : (s'.writers gitRoot).length = (s'.stored gitRoot).length) : Inv s' := by
  have hlen : s'.processes.length = s.processes.length := by
    simpa using congrArg List.length hw.keys
  refine ⟨hw.keys ▸ h.nodup, by rw [hw.keys, hlen]; exact h.lt, fun p hp => ?_, fun r => ?_,
    fun r p hp => ?_, fun r w hr => ?_, fun r => ?_⟩
  · rw [hw.alive]
    exact h.fresh p (hlen ▸ hp)
  · rw [hw.startedFor, hw.process, funext hw.alive]
    exact h.live r
  · rw [newest, hw.startedFor]
    exact h.registered r p (hw.process r ▸ hp)
  · rw [newest, hw.startedFor]
    by_cases heq : gitRoot = r
    · exact heq ▸ howned w (heq ▸ hr)
    · exact h.owned r w (hw.writers r heq ▸ hr)
  · by_cases heq : gitRoot = r
    · exact heq ▸ htracked
    · rw [hw.writers r heq, hw.stored r heq]
      exact h.tracked r

/-- **What a filter call leaves stored, and whose it is.** -/
theorem stored_writers_output (s : Registry κ ω) (p : ℕ) (proc : Process κ) (chunk : List UInt8) :
    (s.output L p proc chunk).stored proc.gitRoot = s.stored proc.gitRoot
        ∧ (s.output L p proc chunk).writers proc.gitRoot = s.writers proc.gitRoot
      ∨ (s.output L p proc chunk).stored proc.gitRoot
          = responseFrames.rest (s.stored proc.gitRoot ++ chunk)
        ∧ ∃ n, (s.output L p proc chunk).writers proc.gitRoot
          = (s.writers proc.gitRoot ++ List.replicate chunk.length p).drop n
          ∧ n = (s.writers proc.gitRoot).length + chunk.length
            - ((s.output L p proc chunk).stored proc.gitRoot).length := by
  have hstored : (s.output L p proc chunk).stored proc.gitRoot = _ :=
    magitServerGetBuffer_filter L proc.gitRoot (s.connection proc) chunk
  have hwriters : (s.output L p proc chunk).writers proc.gitRoot = _ := Function.update_self ..
  cases hsignalled :
      (filterLoop L (s.stored proc.gitRoot ++ chunk) (s.connection proc).session).signalled with
  | true =>
    rw [hsignalled, if_pos rfl] at hwriters
    exact .inl ⟨hstored.trans (if_pos hsignalled), hwriters⟩
  | false =>
    rw [hsignalled, if_neg (by simp), List.length_append, List.length_replicate] at hwriters
    exact .inr ⟨hstored.trans (if_neg (ne_true_of_eq_false hsignalled)), _, hwriters, rfl⟩

/-- Output keeps the invariant if it is that of the newest process, or leaves nothing behind. -/
theorem Inv.output (h : Inv s) {p : ℕ} {proc : Process κ} {chunk : List UInt8}
    (hb : s.newest proc.gitRoot = some p
      ∨ s.stored proc.gitRoot = [] ∧ responseFrames.rest chunk = []) :
    Inv (s.output L p proc chunk) := by
  have htracked := h.tracked proc.gitRoot
  have hcases := stored_writers_output (L := L) s p proc chunk
  have htracked' : ((s.output L p proc chunk).writers proc.gitRoot).length
      = ((s.output L p proc chunk).stored proc.gitRoot).length := by
    rcases hcases with ⟨hstored, hwriters⟩ | ⟨hstored, n, hwriters, hn⟩
    · rw [hstored, hwriters, htracked]
    · have hle := responseFrames.length_rest_le (s.stored proc.gitRoot ++ chunk)
      rw [← hstored, List.length_append] at hle
      rw [hwriters, List.length_drop, List.length_append, List.length_replicate]
      omega
  refine h.of_writes (writes_output s p proc chunk) (fun w hw => ?_) htracked'
  rcases hb with hnewest | ⟨hempty, hrest⟩
  · rcases hcases with ⟨-, hwriters⟩ | ⟨-, n, hwriters, -⟩
    · exact h.owned _ w (hwriters ▸ hw)
    · rw [hwriters] at hw
      rcases List.mem_append.mp (List.mem_of_mem_drop hw) with hw | hw
      · exact h.owned _ w hw
      · rw [List.eq_of_mem_replicate hw]
        exact hnewest
  · have hnil : (s.output L p proc chunk).stored proc.gitRoot = [] := by
      rcases hcases with ⟨hstored, -⟩ | ⟨hstored, -⟩
      · rw [hstored, hempty]
      · rw [hstored, hempty, List.nil_append, hrest]
    rw [hnil, List.length_nil, List.length_eq_zero_iff] at htracked'
    rw [htracked'] at hw
    simp at hw

/-- **A benign event keeps the invariant.** -/
theorem Inv.step (h : Inv s) {e : Event} (he : s.Benign e) : Inv (s.step L e) := by
  cases e with
  | start gitRoot => exact h.start gitRoot
  | stop gitRoot => exact h.stop gitRoot
  | exit p => exact h.exit p
  | output p chunk =>
    rw [Registry.step]
    split
    · next proc hp => exact h.output (he proc hp)
    · exact h
  | sentinel p =>
    rw [Registry.step]
    split
    · next proc hp => exact h.sentinel hp (he proc hp)
    · exact h

/-- **The invariant holds in every state of a run whose steps are benign.** -/
theorem inv_of_benignRun (h : BenignRun L s) : Inv s := by
  induction h with
  | init world => exact Inv.init world
  | step _ he ih => exact ih.step he

/-! ## Safety -/

/-- **What a sentinel clears**: both entries of its git root, once its process has ended. -/
theorem step_sentinel {p : ℕ} {proc : Process κ} (hp : assoc p s.processes = some proc)
    (hended : proc.status = .exit ∨ proc.status = .signal) (gitRoot : Text) :
    (s.step L (.sentinel p)).magitServerGetProcess gitRoot
        = (if proc.gitRoot = gitRoot then none else s.magitServerGetProcess gitRoot)
      ∧ (s.step L (.sentinel p)).stored gitRoot
        = if proc.gitRoot = gitRoot then [] else s.stored gitRoot := by
  rw [Registry.step, hp]
  dsimp only
  rw [magitServerSentinel, if_pos hended]
  exact ⟨magitServerGetProcess_setProcess
      (({ s with reported := p :: s.reported } : Registry κ ω).clearBuffer proc.gitRoot none) ..,
    stored_clearBuffer ({ s with reported := p :: s.reported } : Registry κ ω) _ _ rfl⟩

/-- The sentinel of an older process finds nothing to clear. -/
theorem respects_sentinel {p : ℕ} (he : s.Benign (.sentinel p)) : s.Respects L (.sentinel p) := by
  intro proc hp hne gitRoot
  obtain ⟨hprocess, hstored⟩ := (he proc hp).resolve_left hne
  by_cases hended : proc.status = .exit ∨ proc.status = .signal
  · obtain ⟨hget, hclear⟩ := step_sentinel (L := L) hp hended gitRoot
    rw [hget, hclear]
    split_ifs with heq
    · rw [← heq, hprocess, hstored]
      exact ⟨rfl, rfl⟩
    · exact ⟨rfl, rfl⟩
  · rw [Registry.step, hp]
    dsimp only
    rw [magitServerSentinel, if_neg hended]
    exact ⟨rfl, rfl⟩

/-- …and any other sentinel of an older process that has ended does clear something. -/
theorem benign_of_respects_sentinel {p : ℕ}
    (hended : ∀ proc, assoc p s.processes = some proc → proc.status = .exit ∨ proc.status = .signal)
    (h : s.Respects L (.sentinel p)) : s.Benign (.sentinel p) := by
  intro proc hp
  refine or_iff_not_imp_left.mpr fun hne => ?_
  obtain ⟨hget, hclear⟩ := step_sentinel (L := L) hp (hended proc hp) proc.gitRoot
  obtain ⟨hget', hclear'⟩ := h proc hp hne proc.gitRoot
  rw [if_pos rfl] at hget hclear
  exact ⟨hget'.symm.trans hget, hclear'.symm.trans hclear⟩

/-- Output of the newest process respects the other roots. -/
theorem respects_output (h : Inv s) {p : ℕ} {chunk : List UInt8}
    (he : s.Benign (.output p chunk)) : s.Respects L (.output p chunk) := by
  intro proc hp w hw
  rcases he proc hp with hnewest | ⟨hempty, -⟩
  · exact Option.some.inj ((h.owned _ w hw).symm.trans hnewest)
  · have htracked := h.tracked proc.gitRoot
    rw [hempty, List.length_nil, List.length_eq_zero_iff] at htracked
    rw [htracked] at hw
    simp at hw

/-- **Safety of the registry.**  In every state of a run of benign events, the registered process of
each git root is the newest one started that was neither stopped nor reported, each stored byte has
one recorded writer, and whatever benign event comes next, the sentinel of an older process clears
nothing and a filter reads only bytes of its own process. -/
theorem registry_safe (h : BenignRun L s) :
    s.RegistersNewest ∧ (∀ gitRoot, (s.writers gitRoot).length = (s.stored gitRoot).length)
      ∧ ∀ e, s.Benign e → s.Respects L e := by
  have hinv := inv_of_benignRun h
  refine ⟨hinv.registersNewest, hinv.tracked, fun e he => ?_⟩
  cases e with
  | output p chunk => exact respects_output hinv he
  | sentinel p => exact respects_sentinel he
  | _ => trivial

/-- A process exits, which is reported, and another one is started. -/
def restart : List Event :=
  [.start "/work/".toList, .exit 0, .sentinel 0, .start "/work/".toList]

/-- Stopping and starting a server is benign. -/
theorem benignRun_restart : BenignRun byteLisp (restart.foldl (step byteLisp) { world := () }) := by
  have h₁ : BenignRun byteLisp _ := (BenignRun.init ()).step (e := .start "/work/".toList) trivial
  have h₂ : BenignRun byteLisp _ := h₁.step (e := .exit 0) trivial
  have h₃ : BenignRun byteLisp _ := h₂.step (e := .sentinel 0) fun proc hp => by
    rw [← Option.some.inj hp]
    exact .inl rfl
  exact h₃.step (e := .start "/work/".toList) trivial

theorem registersNewest_restart :
    (restart.foldl (step byteLisp) { world := () }).RegistersNewest :=
  (registry_safe benignRun_restart).1

/-! ## A late sentinel -/

/-- The first process exits, its root is stopped and started again, and only then is its exit
reported. -/
def lateSentinel : List Event :=
  [.start "/work/".toList, .exit 0, .stop "/work/".toList, .start "/work/".toList, .sentinel 0]

/-- Then the second process runs, was not stopped and its exit was not reported, and is registered
no more. -/
theorem late_sentinel_clears_newer :
    let s := lateSentinel.foldl (step byteLisp) { world := () }
    (s.startedFor "/work/".toList).find? s.alive = some 1
      ∧ s.magitServerGetProcess "/work/".toList = none ∧ ¬ s.RegistersNewest := by
  intro s
  have hnewest : (s.startedFor "/work/".toList).find? s.alive = some 1 := rfl
  have hnone : s.magitServerGetProcess "/work/".toList = none := rfl
  refine ⟨hnewest, hnone, fun h => ?_⟩
  rw [RegistersNewest] at h
  exact absurd ((h "/work/".toList).symm.trans hnone) (by rw [hnewest]; simp)

end Registry

end Magit.Client
