import Mathlib.Tactic.Common

/-!
# Client/HooksInfo — the response that hooks and refresh code look at

`magit-setup-buffer-internal-new` sets `git-info-for-hooks`, runs hooks and refresh code, and sets it
to nil, but not if a signal ends it before.  So the variable is restored, and what reads it gets
nothing but the response for its own repository, exactly if every such call is made while the
variable is nil and returns, and code for other repositories does not read it inside of one
(`right_iff_clean`).
-/

namespace Magit.Client.HooksInfo

/-- Code that is run for a repository.  What it does may depend on what it reads. -/
inductive Code (ι ρ : Type)
  | skip
  /-- A signal. -/
  | signal
  | seq (first second : Code ι ρ)
  /-- Code that handles the signals of its body. -/
  | handled (body : Code ι ρ)
  /-- Reads `git-info-for-hooks`. -/
  | read (next : Option ι → Code ι ρ)
  /-- Code that is run for another repository. -/
  | elsewhere (repository : ρ) (body : Code ι ρ)
  /-- Sets `git-info-for-hooks`, runs the body for the repository of that response, and sets it to
  nil. -/
  | setup (info : ι) (body : Code ι ρ)

/-- What happens to `git-info-for-hooks`: it is read for a repository, or a call ends with another
value than it began with or with the same. -/
inductive Event (ι ρ : Type)
  | read (repository : ρ) (info : Option ι)
  | call (before after : Option ι)

/-- What a run of hooks leaves: whether it signaled, the information and what happened. -/
structure Result (ι ρ : Type) where
  signalled : Bool
  info : Option ι
  events : List (Event ι ρ)

variable {ι ρ : Type}

namespace Code

/-- `magit-setup-buffer-internal-new`, with the code that its steps run: the value of a locked buffer,
the mode, the hooks, displaying and refreshing the buffer. -/
def magitSetupBufferInternalNew (info : ι) (locked created : Bool)
    (value mode createBufferHook displayBuffer setupBufferHook refreshBuffer postCreateBufferHook :
      Code ι ρ) : Code ι ρ :=
  setup info
    (seq (if locked then value else skip)
    (seq mode
    (seq (if created then createBufferHook else skip)
    (seq displayBuffer
    (seq setupBufferHook
    (seq refreshBuffer
    (if created then postCreateBufferHook else skip)))))))

variable (root : ι → ρ)

/-- Runs code for a repository, with a value of `git-info-for-hooks`. -/
def run : Code ι ρ → ρ → Option ι → Result ι ρ
  | skip, _, info => ⟨false, info, []⟩
  | signal, _, info => ⟨true, info, []⟩
  | seq first second, repository, info =>
    let r := run first repository info
    if r.signalled then r
    else
      let r' := run second repository r.info
      ⟨r'.signalled, r'.info, r.events ++ r'.events⟩
  | handled body, repository, info => { run body repository info with signalled := false }
  | read next, repository, info =>
    let r := run (next info) repository info
    { r with events := .read repository info :: r.events }
  | elsewhere repository body, _, info => run body repository info
  | setup git body, _, info =>
    let r := run body (root git) (some git)
    let after := if r.signalled then r.info else none
    ⟨r.signalled, after, r.events ++ [.call info after]⟩

end Code

/-- The value is nil or the response for the repository. -/
def Own (root : ι → ρ) (repository : ρ) (info : Option ι) : Prop :=
  ∀ git, info = some git → root git = repository

/-- What has been read is right for the repository, and a call has restored the variable. -/
def Event.Right (root : ι → ρ) : Event ι ρ → Prop
  | .read repository info => Own root repository info
  | .call before after => after = before

namespace Code

variable (root : ι → ρ)

/-- The code ends by a signal, the variable having the same value throughout but inside of calls. -/
def signals : Code ι ρ → Option ι → Bool
  | skip, _ => false
  | signal, _ => true
  | seq first second, info => signals first info || signals second info
  | handled _, _ => false
  | read next, info => signals (next info) info
  | elsewhere _ body, info => signals body info
  | setup git body, _ => signals body (some git)

/-- Calls are made while the variable is nil, and return; or they are made by the code of a call with
the same response, and signal.  What reads the variable is for the repository of the innermost call. -/
def Clean : Code ι ρ → ρ → Option ι → Prop
  | skip, _, _ => True
  | signal, _, _ => True
  | seq first second, repository, info =>
    Clean first repository info ∧ (first.signals info = false → Clean second repository info)
  | handled body, repository, info => Clean body repository info
  | read next, repository, info => Own root repository info ∧ Clean (next info) repository info
  | elsewhere repository body, _, info => Clean body repository info
  | setup git body, _, info =>
    info = (if body.signals (some git) then some git else none) ∧ Clean body (root git) (some git)

variable {root}

/-- **The variable is right wherever it is read and restored by every call exactly if the code is
clean**, and then it is the same at the end. -/
theorem right_iff_clean_and (c : Code ι ρ) (repository : ρ) (info : Option ι) :
    ((∀ e ∈ (c.run root repository info).events, e.Right root) ↔ c.Clean root repository info) ∧
      (c.Clean root repository info → (c.run root repository info).info = info ∧
        (c.run root repository info).signalled = c.signals info) := by
  induction c generalizing repository info with
  | skip => simp [run, Clean, signals]
  | signal => simp [run, Clean, signals]
  | seq first second ih ih' =>
    obtain ⟨hiff, hsame⟩ := ih repository info
    rw [run, Clean, signals]
    by_cases hfirst : Clean root first repository info
    · obtain ⟨hinfo, hsignalled⟩ := hsame hfirst
      obtain ⟨hiff', hsame'⟩ := ih' repository info
      rcases hsignals : first.signals info with _ | _
      · simp only [hsignalled, hsignals, Bool.false_eq_true, if_false, hinfo, Bool.false_or,
          List.forall_mem_append, hiff, hiff', true_implies]
        exact ⟨trivial, fun hclean => hsame' hclean.2⟩
      · simp only [hsignalled, hsignals, if_true, hiff, Bool.true_or, hinfo]
        refine ⟨⟨fun hclean => ⟨hclean, fun hfalse => ?_⟩, And.left⟩, fun _ => ⟨trivial, trivial⟩⟩
        exact absurd hfalse Bool.noConfusion
    · refine ⟨⟨fun hright => absurd (hiff.mp fun e he => hright e ?_) hfirst,
        fun hclean => absurd hclean.1 hfirst⟩, fun hclean => absurd hclean.1 hfirst⟩
      dsimp only
      split
      · exact he
      · exact List.mem_append_left _ he
  | handled body ih =>
    obtain ⟨hiff, hsame⟩ := ih repository info
    exact ⟨hiff, fun hclean => ⟨(hsame hclean).1, rfl⟩⟩
  | read next ih =>
    obtain ⟨hiff, hsame⟩ := ih info repository info
    refine ⟨?_, fun hclean => hsame hclean.2⟩
    rw [run, Clean, ← hiff, List.forall_mem_cons]
    rfl
  | elsewhere repository' body ih => exact ih repository' info
  | setup git body ih =>
    obtain ⟨hiff, hsame⟩ := ih (root git) (some git)
    have hcall : (body.run root (root git) (some git)).signalled = body.signals (some git) →
        (body.run root (root git) (some git)).info = some git →
        (if (body.run root (root git) (some git)).signalled then
          (body.run root (root git) (some git)).info else none)
        = if body.signals (some git) then some git else none := by
      intro hsignalled hinfo
      rw [hsignalled, hinfo]
    have hevents : (∀ e ∈ ((setup git body).run root repository info).events, e.Right root)
        ↔ Clean root body (root git) (some git) ∧
          (if (body.run root (root git) (some git)).signalled then
            (body.run root (root git) (some git)).info else none) = info := by
      rw [run, List.forall_mem_append, List.forall_mem_singleton, hiff]
      rfl
    rw [hevents, Clean]
    refine ⟨⟨fun hright => ⟨?_, hright.1⟩, fun hclean => ⟨hclean.2, ?_⟩⟩,
      fun hclean => ⟨?_, (hsame hclean.2).2⟩⟩
    · rw [← hright.2, hcall (hsame hright.1).2 (hsame hright.1).1]
    · rw [hcall (hsame hclean.2).2 (hsame hclean.2).1, ← hclean.1]
    · rw [run, hcall (hsame hclean.2).2 (hsame hclean.2).1, ← hclean.1]

/-- **In every session, in which the variable is nil at first, it is right wherever it is read and
restored by every call exactly if the session is clean.** -/
theorem right_iff_clean (root : ι → ρ) (session : Code ι ρ) (repository : ρ) :
    (∀ e ∈ (session.run root repository none).events, e.Right root)
      ↔ session.Clean root repository none :=
  (right_iff_clean_and session repository none).1

/-! The setup hook signals, and then the status of another repository is refreshed. -/

namespace SetupHookSignals

/-- A command loop that handles the signal. -/
def session : Code ℕ ℕ :=
  seq (handled (magitSetupBufferInternalNew 7 false true skip skip skip skip signal skip skip))
    (elsewhere 8 (read fun _ => skip))

/-- The response is left behind, and is read for the other repository. -/
theorem not_right_session : ¬∀ e ∈ (session.run id 7 none).events, e.Right id := by
  have hevents : (session.run id 7 none).events = [.call none (some 7), .read 8 (some 7)] := rfl
  intro hright
  rw [hevents] at hright
  have hread : Own id 8 (some 7) := hright (.read 8 (some 7)) (by simp)
  exact absurd (hread 7 rfl) (by decide)

end SetupHookSignals

end Code

end Magit.Client.HooksInfo
