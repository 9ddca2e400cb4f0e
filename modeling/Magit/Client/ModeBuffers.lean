import Magit.Git.Libgit2

/-!
# Client/ModeBuffers — the buffer of a mode in a repository

A buffer remembers, in `magit--default-directory`, the string that named its repository when it was
created, and is found again by this string.  The server names a repository without the slash at the
end, `magit-toplevel` with it.  So there is one buffer for each mode, repository and value, and it is
found, exactly as long as what is looked up has been created by the same name
(`oneEachAlong_iff`).
-/

namespace Magit.Client.ModeBuffers

open Git

/-! ## Buffers -/

/-- A buffer of a mode that is derived from `magit-mode`. -/
structure Buffer (μ ν : Type) where
  mode : μ
  /-- `magit--default-directory`. -/
  directory : Text
  /-- `magit-buffer-locked-p`. -/
  locked : Bool
  /-- `magit-buffer-value`. -/
  value : Option ν
  deriving DecidableEq

/-- The directories and the working trees that they are in. -/
structure Repositories (ρ : Type) where
  repository : Text → ρ
  /-- `magit-toplevel`. -/
  toplevel : Text → Option Text
  /-- `git_repository_workdir`. -/
  workdir : ρ → Option Text
  repository_toplevel : ∀ directory topdir, toplevel directory = some topdir →
    repository topdir = repository directory
  repository_workdir : ∀ r dir, workdir r = some dir → repository dir.dropLast = r
  /-- It is made by `file-name-as-directory`. -/
  toplevel_slash : ∀ directory topdir, toplevel directory = some topdir →
    topdir.getLast? = some '/'
  workdir_slash : ∀ r dir, workdir r = some dir → dir.dropLast.getLast? ≠ some '/'

variable {μ ν ρ : Type} [DecidableEq μ] [DecidableEq ν]

/-- The buffer is locked to the value, or is not locked if there is none. -/
def Buffer.isLockedTo (b : Buffer μ ν) : Option ν → Bool
  | some v => b.locked && b.value = some v
  | none => !b.locked

/-- `magit-get-mode-buffer-new`, without a frame. -/
def magitGetModeBufferNew (s : List (Buffer μ ν)) (topdir : Text) (mode : μ) (value : Option ν) :
    Option ℕ :=
  s.findIdx? fun b => b.mode = mode && (b.directory = topdir && b.isLockedTo value)

/-- `magit-generate-new-buffer`, and the value that the bindings give the buffer. -/
def magitGenerateNewBuffer (mode : μ) (value : Option ν) (directory : Text) (bindings : Option ν) :
    Buffer μ ν :=
  ⟨mode, directory, value.isSome, bindings⟩

/-- What the two functions to set a buffer up have in common: the buffers after it, and the buffer. -/
def setupBuffer (s : List (Buffer μ ν)) (topdir : Text) (mode : μ) (locked : Bool)
    (bindings : Option ν) : List (Buffer μ ν) × Option ℕ :=
  let value := if locked then bindings else none
  match magitGetModeBufferNew s topdir mode value with
  | some i => (s.modify i fun b => { b with value := bindings }, some i)
  | none => (s ++ [magitGenerateNewBuffer mode value topdir bindings], some s.length)

namespace Repositories

variable (g : Repositories ρ)

/-- The root in a response, "trim last slash".  There is no response for a bare repository. -/
def root (r : ρ) : Option Text := (g.workdir r).map List.dropLast

/-- `magit-get-mode-buffer`, without a frame.  It signals outside of a repository. -/
def magitGetModeBuffer (s : List (Buffer μ ν)) (directory : Text) (mode : μ) (value : Option ν) :
    Option (Option ℕ) :=
  (g.toplevel directory).map fun topdir => magitGetModeBufferNew s topdir mode value

/-- `magit-setup-buffer-internal-new`, on the response for a repository. -/
def magitSetupBufferInternalNew (s : List (Buffer μ ν)) (r : ρ) (mode : μ) (locked : Bool)
    (bindings : Option ν) : List (Buffer μ ν) × Option ℕ :=
  match g.root r with
  | some topdir => setupBuffer s topdir mode locked bindings
  | none => (s, none)

/-- `magit-setup-buffer-internal`, in a directory. -/
def magitSetupBufferInternal (s : List (Buffer μ ν)) (directory : Text) (mode : μ) (locked : Bool)
    (bindings : Option ν) : List (Buffer μ ν) × Option ℕ :=
  match g.toplevel directory with
  | some topdir => setupBuffer s topdir mode locked bindings
  | none => (s, none)

/-- Shows the buffer there is for the value, and kills this one; or locks this one to the value, or
unlocks it. -/
def switchOrLock (s : List (Buffer μ ν)) (i : ℕ) (b : Buffer μ ν) (value : Option ν) :
    List (Buffer μ ν) × Option ℕ :=
  match g.magitGetModeBuffer s b.directory b.mode value with
  | some (some j) => (s.eraseIdx i, some j)
  | some none => (s.set i { b with locked := value.isSome }, none)
  | none => (s, none)

/-- `magit-toggle-buffer-lock`, in one of the buffers, with the buffer that is displayed instead. -/
def magitToggleBufferLock (s : List (Buffer μ ν)) (i : ℕ) : List (Buffer μ ν) × Option ℕ :=
  match s[i]? with
  | none => (s, none)
  | some b =>
    if b.locked then g.switchOrLock s i b none
    else
      match b.value with
      | some v => g.switchOrLock s i b (some v)
      | none => (s, none)

/-- The buffer that `magit-refresh` refreshes besides the current one, which is in a directory and not
a status buffer. -/
def magitRefresh (status : μ) (s : List (Buffer μ ν)) (directory : Text) : Option ℕ :=
  (g.magitGetModeBuffer s directory status none).join

end Repositories

/-! ## Commands -/

/-- The commands that create, lock, refresh and kill such buffers. -/
inductive Command (μ ν ρ : Type)
  | setupNew (repository : ρ) (mode : μ) (locked : Bool) (bindings : Option ν)
  | setup (directory : Text) (mode : μ) (locked : Bool) (bindings : Option ν)
  | toggleLock (buffer : ℕ)
  | refresh (directory : Text)
  /-- Displaying buffers changes the order in which they are listed. -/
  | display (buffers : List (Buffer μ ν))
  | kill (buffer : ℕ)

/-- What is looked up: the buffer of a mode in a repository, locked to a value or not locked, by the
name of the repository. -/
structure Sought (μ ν ρ : Type) where
  repository : ρ
  topdir : Text
  mode : μ
  value : Option ν

section

variable (g : Repositories ρ) (status : μ)

/-- A command, with the buffer that it gets to. -/
def step (s : List (Buffer μ ν)) : Command μ ν ρ → List (Buffer μ ν) × Option ℕ
  | .setupNew r mode locked bindings => g.magitSetupBufferInternalNew s r mode locked bindings
  | .setup directory mode locked bindings => g.magitSetupBufferInternal s directory mode locked bindings
  | .toggleLock i => g.magitToggleBufferLock s i
  | .refresh directory => (s, g.magitRefresh status s directory)
  | .display buffers => (if buffers.Perm s then buffers else s, none)
  | .kill i => (s.eraseIdx i, none)

/-- What a command is to get to if there is one. -/
def sought (s : List (Buffer μ ν)) : Command μ ν ρ → Option (Sought μ ν ρ)
  | .setupNew r mode locked bindings =>
    (g.root r).map fun topdir => ⟨r, topdir, mode, if locked then bindings else none⟩
  | .setup directory mode locked bindings =>
    (g.toplevel directory).map fun topdir =>
      ⟨g.repository directory, topdir, mode, if locked then bindings else none⟩
  | .toggleLock i =>
    s[i]?.bind fun b =>
      if b.locked || b.value.isSome then
        (g.toplevel b.directory).map fun topdir =>
          ⟨g.repository b.directory, topdir, b.mode, if b.locked then none else b.value⟩
      else none
  | .refresh directory =>
    (g.toplevel directory).map fun topdir => ⟨g.repository directory, topdir, status, none⟩
  | .display _ => none
  | .kill _ => none

/-- The buffer is the one of the mode in the repository that is locked to the value, or not locked. -/
def Buffer.IsFor (b : Buffer μ ν) (r : ρ) (mode : μ) (value : Option ν) : Prop :=
  b.mode = mode ∧ g.repository b.directory = r ∧ b.isLockedTo value = true

/-- **There is at most one buffer** of a mode in a repository that is not locked, and one for each
value that is locked to it. -/
def OneEach (s : List (Buffer μ ν)) : Prop :=
  s.Pairwise fun b c => ∀ r mode value, b.IsFor g r mode value → ¬ c.IsFor g r mode value

/-- The command gets to the buffer that it is to get to. -/
def Finds (s : List (Buffer μ ν)) (cmd : Command μ ν ρ) : Prop :=
  ∀ q ∈ sought g status s cmd, ∀ i b, s[i]? = some b → b.IsFor g q.repository q.mode q.value →
    (step g status s cmd).2 = some i

/-- The buffers that a command is to get to were created by the name that it looks up. -/
def NamedAlike (s : List (Buffer μ ν)) (cmd : Command μ ν ρ) : Prop :=
  ∀ q ∈ sought g status s cmd, ∀ b ∈ s, b.IsFor g q.repository q.mode q.value →
    b.directory = q.topdir

/-- At every point of a run there is at most one buffer each, and the next command finds it. -/
def OneEachAlong (s : List (Buffer μ ν)) : List (Command μ ν ρ) → Prop
  | [] => OneEach g s
  | cmd :: cmds => OneEach g s ∧ Finds g status s cmd ∧ OneEachAlong (step g status s cmd).1 cmds

/-- The same along a run. -/
def NamedAlikeAlong (s : List (Buffer μ ν)) : List (Command μ ν ρ) → Prop
  | [] => True
  | cmd :: cmds => NamedAlike g status s cmd ∧ NamedAlikeAlong (step g status s cmd).1 cmds

end

/-! ## Looking a buffer up -/

variable {g : Repositories ρ} {status : μ} {s : List (Buffer μ ν)} {topdir : Text} {mode : μ}
  {value : Option ν} {i : ℕ}

/-- A buffer that is found has the mode, the directory and the value that were asked for. -/
theorem exists_of_magitGetModeBufferNew (h : magitGetModeBufferNew s topdir mode value = some i) :
    ∃ b, s[i]? = some b ∧ b.mode = mode ∧ b.directory = topdir ∧ b.isLockedTo value = true := by
  obtain ⟨hi, hb, -⟩ := List.findIdx?_eq_some_iff_getElem.mp h
  simp only [Bool.and_eq_true, decide_eq_true_eq] at hb
  exact ⟨s[i], List.getElem?_eq_getElem hi, hb⟩

/-- If none is found, there is none in that directory. -/
theorem not_mem_of_magitGetModeBufferNew (h : magitGetModeBufferNew s topdir mode value = none)
    {b : Buffer μ ν} (hb : b ∈ s) (hmode : b.mode = mode) (hdir : b.directory = topdir) :
    ¬ b.isLockedTo value = true := by
  intro hlocked
  have hnone := List.findIdx?_eq_none_iff.mp h b hb
  simp [hmode, hdir, hlocked] at hnone

omit [DecidableEq μ] in
/-- Two places with buffers for the same are one. -/
theorem OneEach.eq (hs : OneEach g s) {r : ρ} {j : ℕ} {b c : Buffer μ ν} (hi : s[i]? = some b)
    (hj : s[j]? = some c) (hb : b.IsFor g r mode value) (hc : c.IsFor g r mode value) : i = j := by
  obtain ⟨hilt, rfl⟩ := List.getElem?_eq_some_iff.mp hi
  obtain ⟨hjlt, rfl⟩ := List.getElem?_eq_some_iff.mp hj
  have hpairs := List.pairwise_iff_getElem.mp hs
  rcases Nat.lt_trichotomy i j with hij | hij | hij
  · exact absurd hc (hpairs i j hilt hjlt hij r mode value hb)
  · exact hij
  · exact absurd hb (hpairs j i hjlt hilt hij r mode value hc)

/-- A buffer is found exactly if the name that is looked up is the one it was created by. -/
theorem magitGetModeBufferNew_eq_iff (hs : OneEach g s) {b : Buffer μ ν} (hi : s[i]? = some b)
    (hb : b.IsFor g (g.repository topdir) mode value) :
    magitGetModeBufferNew s topdir mode value = some i ↔ b.directory = topdir := by
  constructor
  · intro h
    obtain ⟨c, hc, -, hdir, -⟩ := exists_of_magitGetModeBufferNew h
    rw [hi] at hc
    cases hc
    exact hdir
  · intro hdir
    rcases h : magitGetModeBufferNew s topdir mode value with _ | j
    · exact absurd hb.2.2
        (not_mem_of_magitGetModeBufferNew h (List.mem_of_getElem? hi) hb.1 hdir)
    · obtain ⟨c, hj, hmode, hdir', hlocked⟩ := exists_of_magitGetModeBufferNew h
      have hc : c.IsFor g (g.repository topdir) mode value := ⟨hmode, by rw [hdir'], hlocked⟩
      rw [hs.eq hi hj hb hc]

/-! ## One command -/

omit [DecidableEq μ] [DecidableEq ν] in
/-- The directory that a command looks for is in the repository that it is about. -/
theorem repository_of_sought {cmd : Command μ ν ρ} {q : Sought μ ν ρ}
    (hq : sought g status s cmd = some q) : g.repository q.topdir = q.repository := by
  cases cmd with
  | setupNew r mode locked bindings =>
    obtain ⟨topdir, htop, rfl⟩ := Option.map_eq_some_iff.mp hq
    obtain ⟨dir, hdir, rfl⟩ := Option.map_eq_some_iff.mp htop
    exact g.repository_workdir r dir hdir
  | setup directory mode locked bindings =>
    obtain ⟨topdir, htop, rfl⟩ := Option.map_eq_some_iff.mp hq
    exact g.repository_toplevel directory topdir htop
  | toggleLock i =>
    obtain ⟨b, -, hb⟩ := Option.bind_eq_some_iff.mp hq
    split at hb
    · obtain ⟨topdir, htop, rfl⟩ := Option.map_eq_some_iff.mp hb
      exact g.repository_toplevel b.directory topdir htop
    · cases hb
  | refresh directory =>
    obtain ⟨topdir, htop, rfl⟩ := Option.map_eq_some_iff.mp hq
    exact g.repository_toplevel directory topdir htop
  | display buffers => cases hq
  | kill i => cases hq

/-- A command returns a buffer that was there exactly if that was found. -/
theorem setupBuffer_snd (locked : Bool) (bindings : Option ν) (hi : i < s.length) :
    (setupBuffer s topdir mode locked bindings).2 = some i ↔
      magitGetModeBufferNew s topdir mode (if locked then bindings else none) = some i := by
  rw [setupBuffer]
  rcases magitGetModeBufferNew s topdir mode (if locked then bindings else none) with _ | j
  · constructor
    · intro h
      cases h
      exact absurd hi (Nat.lt_irrefl _)
    · exact fun h => nomatch h
  · exact Iff.rfl

theorem switchOrLock_snd {b : Buffer μ ν} (htop : g.toplevel b.directory = some topdir) (j : ℕ) :
    (g.switchOrLock s j b value).2 = magitGetModeBufferNew s topdir b.mode value := by
  rw [Repositories.switchOrLock, Repositories.magitGetModeBuffer, htop, Option.map_some]
  rcases magitGetModeBufferNew s topdir b.mode value with _ | i <;> rfl

/-- A toggle that looks something up, for the value that the buffer has or for none. -/
theorem magitToggleBufferLock_of_sought {q : Sought μ ν ρ}
    (hq : sought g status s (.toggleLock i) = some q) :
    ∃ b, s[i]? = some b ∧ g.toplevel b.directory = some q.topdir ∧ b.mode = q.mode ∧
      g.repository b.directory = q.repository ∧ (q.value = none ∨ q.value = b.value) ∧
      g.magitToggleBufferLock s i = g.switchOrLock s i b q.value := by
  obtain ⟨b, hi, hb⟩ := Option.bind_eq_some_iff.mp hq
  refine ⟨b, hi, ?_⟩
  rw [Repositories.magitToggleBufferLock, hi]
  rcases hlocked : b.locked with _ | _
  · rcases hvalue : b.value with _ | v
    · simp [hlocked, hvalue] at hb
    · simp only [hlocked, hvalue, Bool.false_or, Option.isSome_some, if_true, Bool.false_eq_true,
        if_false] at hb
      obtain ⟨topdir, htop, rfl⟩ := Option.map_eq_some_iff.mp hb
      exact ⟨htop, rfl, rfl, Or.inr rfl, by simp [hlocked, hvalue]⟩
  · simp only [hlocked, Bool.true_or, if_true] at hb
    obtain ⟨topdir, htop, rfl⟩ := Option.map_eq_some_iff.mp hb
    exact ⟨htop, rfl, rfl, Or.inl rfl, by simp [hlocked]⟩

/-- A toggle that signals. -/
theorem magitToggleBufferLock_of_not_sought (hq : sought g status s (.toggleLock i) = none) :
    g.magitToggleBufferLock s i = (s, none) := by
  rw [sought] at hq
  rw [Repositories.magitToggleBufferLock]
  rcases hi : s[i]? with _ | b
  · rfl
  rw [hi, Option.bind_some] at hq
  have hswitch : g.toplevel b.directory = none →
      ∀ value, g.switchOrLock s i b value = (s, none) := by
    intro htop value
    rw [Repositories.switchOrLock, Repositories.magitGetModeBuffer, htop, Option.map_none]
  rcases hlocked : b.locked with _ | _
  · rcases hvalue : b.value with _ | v
    · simp [hlocked, hvalue]
    · simp only [hlocked, hvalue, Bool.false_or, Option.isSome_some, if_true,
        Option.map_eq_none_iff] at hq
      simp [hlocked, hvalue, hswitch hq]
  · simp only [hlocked, Bool.true_or, if_true, Option.map_eq_none_iff] at hq
    simp [hlocked, hswitch hq]

/-- A command gets to what is looked up. -/
theorem step_snd {cmd : Command μ ν ρ} {q : Sought μ ν ρ} (hq : sought g status s cmd = some q)
    (hi : i < s.length) :
    (step g status s cmd).2 = some i ↔
      magitGetModeBufferNew s q.topdir q.mode q.value = some i := by
  cases cmd with
  | setupNew r mode locked bindings =>
    obtain ⟨topdir, htop, rfl⟩ := Option.map_eq_some_iff.mp hq
    rw [step, Repositories.magitSetupBufferInternalNew, htop]
    exact setupBuffer_snd locked bindings hi
  | setup directory mode locked bindings =>
    obtain ⟨topdir, htop, rfl⟩ := Option.map_eq_some_iff.mp hq
    rw [step, Repositories.magitSetupBufferInternal, htop]
    exact setupBuffer_snd locked bindings hi
  | toggleLock i =>
    obtain ⟨b, -, htop, hmode, -, -, htoggle⟩ := magitToggleBufferLock_of_sought hq
    rw [step, htoggle, switchOrLock_snd htop, hmode]
  | refresh directory =>
    obtain ⟨topdir, htop, rfl⟩ := Option.map_eq_some_iff.mp hq
    rw [step, Repositories.magitRefresh, Repositories.magitGetModeBuffer, htop]
    rfl
  | display buffers => cases hq
  | kill i => cases hq

/-- A command finds the buffer that there is exactly if the directories are named alike. -/
theorem finds_iff (hs : OneEach g s) (cmd : Command μ ν ρ) :
    Finds g status s cmd ↔ NamedAlike g status s cmd := by
  refine forall_congr' fun q => forall_congr' fun hq => ?_
  have hrepository := repository_of_sought hq
  constructor
  · intro hfinds b hb hfor
    obtain ⟨i, hi⟩ := List.mem_iff_getElem?.mp hb
    have hfound := (step_snd hq (List.getElem?_eq_some_iff.mp hi).1).mp (hfinds i b hi hfor)
    rw [← hrepository] at hfor
    exact (magitGetModeBufferNew_eq_iff hs hi hfor).mp hfound
  · intro hnamed i b hi hfor
    have hdir := hnamed b (List.mem_of_getElem? hi) hfor
    rw [← hrepository] at hfor
    exact (step_snd hq (List.getElem?_eq_some_iff.mp hi).1).mpr
      ((magitGetModeBufferNew_eq_iff hs hi hfor).mpr hdir)

/-! ## Buffers that stay apart -/

omit [DecidableEq μ] in
/-- A buffer is locked to one value only. -/
theorem eq_of_isLockedTo (b : Buffer μ ν) (hlocked : b.locked = value.isSome)
    (hvalue : value = none ∨ value = b.value) {value' : Option ν}
    (h : b.isLockedTo value' = true) : value' = value := by
  rcases value with _ | v <;> rcases value' with _ | v'
  · rfl
  · simp [Buffer.isLockedTo, hlocked] at h
  · simp [Buffer.isLockedTo, hlocked] at h
  · rcases hvalue with hnone | hvalue
    · cases hnone
    · simp only [Buffer.isLockedTo, ← hvalue, Bool.and_eq_true, decide_eq_true_eq] at h
      exact h.2.symm

omit [DecidableEq μ] in
/-- New bindings with the value to which a buffer is locked do not unlock it. -/
theorem isLockedTo_bindings {b : Buffer μ ν} (hb : b.isLockedTo value = true) {bindings : Option ν}
    (hvalue : value = none ∨ value = bindings) (value' : Option ν) :
    Buffer.isLockedTo { b with value := bindings } value' = b.isLockedTo value' := by
  rcases value with _ | v
  · simp only [Buffer.isLockedTo, Bool.not_eq_true'] at hb
    rcases value' with _ | v' <;> simp [Buffer.isLockedTo, hb]
  · simp only [Buffer.isLockedTo, Bool.and_eq_true, decide_eq_true_eq] at hb
    rcases hvalue with hnone | hvalue
    · cases hnone
    · rw [← hvalue, ← hb.2]

/-- A buffer for what is looked up is apart from all others if nothing is found. -/
theorem not_isFor_of_not_found {q : Sought μ ν ρ} {cmd : Command μ ν ρ}
    (hq : sought g status s cmd = some q) (hnamed : NamedAlike g status s cmd)
    (hnone : magitGetModeBufferNew s q.topdir q.mode q.value = none) {c : Buffer μ ν} (hc : c ∈ s) :
    ¬ c.IsFor g q.repository q.mode q.value := fun hfor =>
  not_mem_of_magitGetModeBufferNew hnone hc hfor.1 (hnamed q hq c hc hfor) hfor.2.2

omit [DecidableEq μ] in
theorem OneEach.perm (hs : OneEach g s) {s' : List (Buffer μ ν)} (h : s'.Perm s) : OneEach g s' :=
  (h.pairwise_iff fun hbc r mode value hc hb => hbc r mode value hb hc).mpr hs

omit [DecidableEq μ] in
/-- A changed buffer that is for nothing that another one is for keeps `OneEach`. -/
theorem OneEach.set (hs : OneEach g s) {b : Buffer μ ν}
    (h : ∀ j c, j ≠ i → s[j]? = some c →
      ∀ r mode value, b.IsFor g r mode value → ¬ c.IsFor g r mode value) :
    OneEach g (s.set i b) := by
  refine List.pairwise_iff_getElem.mpr fun j k hj hk hjk => ?_
  rw [List.length_set] at hj hk
  rw [List.getElem_set, List.getElem_set]
  split
  · rename_i hij
    rw [if_neg (by omega)]
    exact h k s[k] (by omega) (List.getElem?_eq_getElem hk)
  · rename_i hij
    split
    · rename_i hik
      exact fun r mode value hc hb =>
        h j s[j] (by omega) (List.getElem?_eq_getElem hj) r mode value hb hc
    · exact List.pairwise_iff_getElem.mp hs j k hj hk hjk

/-- Setting up a buffer keeps `OneEach` when the directories are named alike. -/
theorem OneEach.setupBuffer {q : Sought μ ν ρ} {cmd : Command μ ν ρ} (hs : OneEach g s)
    (hq : sought g status s cmd = some q) (hnamed : NamedAlike g status s cmd) (locked : Bool)
    (bindings : Option ν) (hvalue : q.value = if locked then bindings else none) :
    OneEach g (setupBuffer s q.topdir q.mode locked bindings).1 := by
  have hvalue' : q.value = none ∨ q.value = bindings := by
    rcases locked with _ | _
    · exact Or.inl hvalue
    · exact Or.inr hvalue
  rw [ModeBuffers.setupBuffer, ← hvalue]
  rcases hfound : magitGetModeBufferNew s q.topdir q.mode q.value with _ | i
  · refine List.pairwise_append.mpr ⟨hs, List.pairwise_singleton _ _, ?_⟩
    intro c hc b hb r mode value hcfor hbfor
    rw [List.mem_singleton.mp hb] at hbfor
    obtain ⟨rfl, rfl, hlocked⟩ := hbfor
    obtain rfl := eq_of_isLockedTo _ rfl hvalue' hlocked
    refine not_isFor_of_not_found hq hnamed hfound hc ?_
    rw [← repository_of_sought hq]
    exact hcfor
  · obtain ⟨b, hi, -, -, hlocked⟩ := exists_of_magitGetModeBufferNew hfound
    dsimp only
    rw [List.modify_eq_set_getElem?, hi]
    refine hs.set fun j c hj hc r mode value hb hcfor => hj ?_
    have hb' : b.IsFor g r mode value :=
      ⟨hb.1, hb.2.1, (isLockedTo_bindings hlocked hvalue' value).symm.trans hb.2.2⟩
    exact (hs.eq hi hc hb' hcfor).symm

/-- Switching to a locked buffer or locking one keeps `OneEach`. -/
theorem OneEach.switchOrLock {q : Sought μ ν ρ} (hs : OneEach g s)
    (hq : sought g status s (.toggleLock i) = some q)
    (hnamed : NamedAlike g status s (.toggleLock i)) {b : Buffer μ ν}
    (htop : g.toplevel b.directory = some q.topdir) (hmode : b.mode = q.mode)
    (hrepository : g.repository b.directory = q.repository)
    (hvalue : q.value = none ∨ q.value = b.value) :
    OneEach g (g.switchOrLock s i b q.value).1 := by
  rw [Repositories.switchOrLock, Repositories.magitGetModeBuffer, htop, Option.map_some, hmode]
  rcases hfound : magitGetModeBufferNew s q.topdir q.mode q.value with _ | j
  · refine hs.set fun j c _ hc r mode value hb hcfor => ?_
    obtain ⟨rfl, rfl, hlocked⟩ := hb
    obtain rfl := eq_of_isLockedTo { b with locked := q.value.isSome } rfl hvalue hlocked
    refine not_isFor_of_not_found hq hnamed hfound (List.mem_of_getElem? hc) ?_
    rw [← hrepository]
    exact hcfor
  · exact List.Pairwise.eraseIdx i hs

/-- **A step keeps `OneEach`** when the directories are named alike. -/
theorem OneEach.step (hs : OneEach g s) {cmd : Command μ ν ρ} (hnamed : NamedAlike g status s cmd) :
    OneEach g (step g status s cmd).1 := by
  cases cmd with
  | setupNew r mode locked bindings =>
    rw [ModeBuffers.step, Repositories.magitSetupBufferInternalNew]
    rcases hroot : g.root r with _ | topdir
    · exact hs
    · refine hs.setupBuffer (q := ⟨r, topdir, mode, if locked then bindings else none⟩)
        ?_ hnamed locked bindings rfl
      rw [sought, hroot, Option.map_some]
  | setup directory mode locked bindings =>
    rw [ModeBuffers.step, Repositories.magitSetupBufferInternal]
    rcases htop : g.toplevel directory with _ | topdir
    · exact hs
    · refine hs.setupBuffer
        (q := ⟨g.repository directory, topdir, mode, if locked then bindings else none⟩)
        ?_ hnamed locked bindings rfl
      rw [sought, htop, Option.map_some]
  | toggleLock i =>
    rcases hq : sought g status s (.toggleLock i) with _ | q
    · rw [ModeBuffers.step, magitToggleBufferLock_of_not_sought hq]
      exact hs
    · obtain ⟨b, -, htop, hmode, hrepository, hvalue, htoggle⟩ :=
        magitToggleBufferLock_of_sought hq
      rw [ModeBuffers.step, htoggle]
      exact hs.switchOrLock hq hnamed htop hmode hrepository hvalue
  | refresh directory => exact hs
  | display buffers =>
    rw [ModeBuffers.step]
    dsimp only
    split
    · rename_i hperm
      exact hs.perm hperm
    · exact hs
  | kill i => exact List.Pairwise.eraseIdx i hs

/-! ## Runs -/

/-- **There is one buffer each along a run, and every command finds it, exactly if** what each command
is to get to was created by the name that it looks up. -/
theorem oneEachAlong_iff_of_oneEach (hs : OneEach g s) (cmds : List (Command μ ν ρ)) :
    OneEachAlong g status s cmds ↔ NamedAlikeAlong g status s cmds := by
  induction cmds generalizing s with
  | nil => exact iff_of_true hs trivial
  | cons cmd cmds ih =>
    rw [OneEachAlong, NamedAlikeAlong, finds_iff hs]
    constructor
    · rintro ⟨-, hnamed, hrest⟩
      exact ⟨hnamed, (ih (hs.step hnamed)).mp hrest⟩
    · rintro ⟨hnamed, hrest⟩
      exact ⟨hs, hnamed, (ih (hs.step hnamed)).mpr hrest⟩

/-- A run begins with no buffers. -/
theorem oneEachAlong_iff (g : Repositories ρ) (status : μ) (cmds : List (Command μ ν ρ)) :
    OneEachAlong g status [] cmds ↔ NamedAlikeAlong g status [] cmds :=
  oneEachAlong_iff_of_oneEach List.Pairwise.nil cmds

/-- The server's name for a repository is never that of `magit-toplevel`. -/
theorem root_ne_toplevel {r : ρ} {root directory : Text} (hroot : g.root r = some root)
    (htop : g.toplevel directory = some topdir) : root ≠ topdir := by
  obtain ⟨dir, hdir, rfl⟩ := Option.map_eq_some_iff.mp hroot
  intro heq
  exact g.workdir_slash r dir hdir (heq ▸ g.toplevel_slash directory topdir htop)

omit [DecidableEq μ] in
/-- A refresh does not find a status buffer that was created on a response. -/
theorem not_namedAlike_refresh {b : Buffer μ ν} {r : ρ} {directory : Text} (hb : b ∈ s)
    (hfor : b.IsFor g r status none) (hroot : g.root r = some b.directory)
    (htop : g.toplevel directory = some topdir) (hdirectory : g.repository directory = r) :
    ¬ NamedAlike g status s (.refresh directory) := by
  intro hnamed
  have hq : sought g status s (.refresh directory) = some ⟨r, topdir, status, none⟩ := by
    rw [sought, htop, Option.map_some, hdirectory]
  exact root_ne_toplevel hroot htop (hnamed _ hq b hb hfor)

/-- One repository, at `/r/`. -/
def oneRepository : Repositories Unit where
  repository _ := ()
  toplevel _ := some "/r/".toList
  workdir _ := some "/r/".toList
  repository_toplevel _ _ _ := rfl
  repository_workdir _ _ _ := rfl
  toplevel_slash _ topdir htop := by
    cases htop
    decide
  workdir_slash _ dir hdir := by
    cases hdir
    decide

/-- The status buffer from a response, and then the other one. -/
theorem not_oneEachAlong_both : ¬ OneEachAlong oneRepository () []
    ([.setupNew () () false none, .setup "/r".toList () false none] :
      List (Command Unit Unit Unit)) := by
  rintro ⟨-, -, -, -, hs⟩
  have htwo : OneEach oneRepository
      [(⟨(), "/r".toList, false, none⟩ : Buffer Unit Unit), ⟨(), "/r/".toList, false, none⟩] := hs
  exact List.rel_of_pairwise_cons htwo (List.mem_singleton_self _) () () none ⟨rfl, rfl, rfl⟩
    ⟨rfl, rfl, rfl⟩

end Magit.Client.ModeBuffers
