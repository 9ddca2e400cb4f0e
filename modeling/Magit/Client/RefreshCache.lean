import Magit.Emacs.AssocCache
import Magit.Emacs.Buffer
import Magit.Msgpack.Object

/-!
# Client/RefreshCache — what git says during a refresh

During a refresh the functions that run git keep what they return in one cache, under the directory
and the arguments.  The key does not say which function asked, though they make different things of
git's answer: a call returns what it would without the cache if and only if what every earlier call
with its key made of the answer is what it would make of it (`refresh_cache_transparent_iff`).
-/

namespace Magit.Client

open Emacs

/-! ## Arguments -/

/-- An argument: a string, or lists of arguments. -/
inductive Arg
  | nil
  | str (text : Text)
  | cons (car cdr : Arg)
  deriving DecidableEq

namespace Arg

/-- The texts of one argument. -/
def flatten : Arg → List Text
  | nil => []
  | str text => [text]
  | cons car cdr => flatten car ++ flatten cdr

end Arg

/-- `flatten-tree` -/
def flattenTree (args : List Arg) : List Text := args.flatMap Arg.flatten

theorem flattenTree_map_str (args : List Text) : flattenTree (args.map Arg.str) = args := by
  induction args with
  | nil => rfl
  | cons arg args ih => rw [List.map_cons, flattenTree, List.flatMap_cons, ← flattenTree, ih]; rfl

/-! ## Calls -/

/-- What git answers in a directory: the exit code, the output, and what is in a buffer that takes
both the output and the errors. -/
structure Answer where
  exit : ℕ
  stdout : Text
  mixed : Text

/-- What a function returns. -/
inductive Value
  | nil
  | t
  | str (text : Text)
  deriving DecidableEq

/-- What a function signals. -/
inductive Signal
  | argsOutOfRange
  | magitInvalidGitBoolean (output : Text)
  deriving DecidableEq

/-- `magit--refresh-cache`, under whose keys are a directory and arguments. -/
abbrev RefreshCache := AssocCache (Text × List Arg) Value

/-- `magit--with-refresh-cache`, which is nothing but its body if there is no cache. -/
def magitWithRefreshCache (key : Text × List Arg) (body : Except Signal Value)
    (cache : Option RefreshCache) : Except Signal Value × Option RefreshCache :=
  match cache with
  | some cache =>
    let (result, cache) := cache.call key body
    (result, some cache)
  | none => (body, none)

section

variable (git : Text → List Text → Answer) (dir : Text)

/-- `(unless (bobp) …)`, the first line. -/
def firstLine (text : Text) : Value := if text = [] then .nil else .str (lineText text)

/-- `magit-git-string`, as a call that is cached. -/
def magitGitString (args : List Arg) :=
  let args := flattenTree args
  magitWithRefreshCache (dir, args.map .str) (.ok (firstLine (git dir args).stdout))

/-- `magit-git-str` -/
def magitGitStr (args : List Arg) :=
  let args := flattenTree args
  magitWithRefreshCache (dir, args.map .str) (.ok (firstLine (git dir args).stdout))

/-- `magit-git-output` -/
def magitGitOutput (args : List Arg) :=
  let args := flattenTree args
  magitWithRefreshCache (dir, args.map .str) (.ok (.str (git dir args).stdout))

/-- The arguments are flattened for git only, and not in the key. -/
def magitGitStringP (args : List Arg) :=
  let answer := git dir (flattenTree args)
  magitWithRefreshCache (dir, args)
    (.ok (if answer.exit = 0 then firstLine answer.mixed else .nil))

/-- `magit-git-config-p` -/
def magitGitConfigP (variableName : Text) (default : Bool) :=
  let args := ["config".toList, "--bool".toList, "--default".toList,
    if default then "true".toList else "false".toList, variableName]
  let answer := git dir args
  let output := answer.mixed.dropLast
  magitWithRefreshCache (dir, args.map .str)
    (if answer.mixed = [] then .error .argsOutOfRange
    else if answer.exit = 0 then .ok (if output = "true".toList then .t else .nil)
    else .error (.magitInvalidGitBoolean output))

end

/-- What is called. -/
inductive GitRequest
  | string (args : List Arg)
  | str (args : List Arg)
  | output (args : List Arg)
  | stringP (args : List Arg)
  | configP (variableName : Text) (default : Bool)

/-- A call in a working directory. -/
structure GitCall where
  dir : Text
  request : GitRequest

/-- A run of calls, each through the cache the one before it left behind. -/
def runCalls (git : Text → List Text → Answer) :
    Option RefreshCache → List GitCall → List (Except Signal Value)
  | _, [] => []
  | cache, c :: calls =>
    let (result, cache) :=
      match c.request with
      | .string args => magitGitString git c.dir args cache
      | .str args => magitGitStr git c.dir args cache
      | .output args => magitGitOutput git c.dir args cache
      | .stringP args => magitGitStringP git c.dir args cache
      | .configP variableName default => magitGitConfigP git c.dir variableName default cache
    result :: runCalls git cache calls

/-! ## What a call makes of the answer -/

/-- The forms in which a call returns git's answer. -/
inductive Format
  | line
  | whole
  | lineP
  | boolean
  deriving DecidableEq

/-- What a function makes of the answer. -/
def Format.value (answer : Answer) : Format → Except Signal Value
  | line => .ok (firstLine answer.stdout)
  | whole => .ok (.str answer.stdout)
  | lineP => .ok (if answer.exit = 0 then firstLine answer.mixed else .nil)
  | boolean =>
    if answer.mixed = [] then .error .argsOutOfRange
    else if answer.exit = 0 then
      .ok (if answer.mixed.dropLast = "true".toList then .t else .nil)
    else .error (.magitInvalidGitBoolean answer.mixed.dropLast)

namespace GitCall

variable (c : GitCall)

/-- How the function reads the answer. -/
def format : Format :=
  match c.request with
  | .string _ | .str _ => .line
  | .output _ => .whole
  | .stringP _ => .lineP
  | .configP _ _ => .boolean

/-- The arguments as they stand in the key. -/
def keyArgs : List Arg :=
  match c.request with
  | .string args | .str args | .output args => (flattenTree args).map .str
  | .stringP args => args
  | .configP variableName default =>
    ["config".toList, "--bool".toList, "--default".toList,
      if default then "true".toList else "false".toList, variableName].map .str

/-- The key that the function looks up in the cache. -/
def key : Text × List Arg := (c.dir, c.keyArgs)

/-- The arguments git is given. -/
def gitArgs : List Text := flattenTree c.keyArgs

/-- What git answers the call. -/
def answer (git : Text → List Text → Answer) : Answer := git c.dir c.gitArgs

/-- What the call returns without a cache. -/
def value (git : Text → List Text → Answer) : Except Signal Value := c.format.value (c.answer git)

end GitCall

variable (git : Text → List Text → Answer)

/-- Calls with one key are given one answer. -/
theorem answer_eq_of_key {a b : GitCall} (h : a.key = b.key) : a.answer git = b.answer git := by
  obtain ⟨hdir, hargs⟩ := Prod.mk.inj h
  rw [GitCall.answer, GitCall.answer, hdir, GitCall.gitArgs, GitCall.gitArgs, hargs]

/-- The first call is answered, with the cache that it leaves for the others. -/
theorem runCalls_cons (cache : Option RefreshCache) (c : GitCall) (calls : List GitCall) :
    runCalls git cache (c :: calls)
      = (magitWithRefreshCache c.key (c.value git) cache).1
        :: runCalls git (magitWithRefreshCache c.key (c.value git) cache).2 calls := by
  obtain ⟨dir, request⟩ := c
  have hflat (args : List Arg) :
      flattenTree ((flattenTree args).map Arg.str) = flattenTree args := flattenTree_map_str _
  cases request with
  | string args =>
    simp only [GitCall.value, GitCall.answer, GitCall.gitArgs, GitCall.keyArgs, hflat]
    rfl
  | str args =>
    simp only [GitCall.value, GitCall.answer, GitCall.gitArgs, GitCall.keyArgs, hflat]
    rfl
  | output args =>
    simp only [GitCall.value, GitCall.answer, GitCall.gitArgs, GitCall.keyArgs, hflat]
    rfl
  | stringP args => rfl
  | configP variableName default =>
    simp only [GitCall.value, GitCall.answer, GitCall.gitArgs, GitCall.keyArgs, flattenTree_map_str]
    rfl

/-- Without a cache every call makes what it makes of git's answer. -/
theorem runCalls_none (calls : List GitCall) :
    runCalls git none calls = calls.map (·.value git) := by
  induction calls with
  | nil => rfl
  | cons c calls ih => rw [runCalls_cons, List.map_cons, ← ih]; rfl

/-- With a cache, the calls are looked up in it by their keys. -/
theorem runCalls_some (cache : RefreshCache) (calls : List GitCall) :
    runCalls git (some cache) calls = (cache.run GitCall.key (·.value git) calls).1 := by
  induction calls generalizing cache with
  | nil => rfl
  | cons c calls ih =>
    rw [runCalls_cons, AssocCache.run]
    exact congrArg _ (ih _)

/-! ## Answers that the formats do not tell apart -/

/-- What a call of the first format keeps of the answer is what one of the second returns. -/
def Interchangeable (answer : Answer) : Format → Format → Prop
  | .line, .line | .whole, .whole | .lineP, .lineP | .boolean, .boolean => True
  | .line, .whole | .whole, .line => answer.stdout ≠ [] ∧ '\n' ∉ answer.stdout
  | .line, .lineP | .lineP, .line =>
    (answer.stdout ≠ [] ↔ answer.exit = 0 ∧ answer.mixed ≠ [])
      ∧ (answer.stdout ≠ [] → lineText answer.mixed = lineText answer.stdout)
  | .whole, .lineP | .lineP, .whole =>
    answer.exit = 0 ∧ answer.mixed ≠ [] ∧ lineText answer.mixed = answer.stdout
  | .line, .boolean =>
    answer.stdout = [] ∧ answer.exit = 0 ∧ answer.mixed ≠ []
      ∧ answer.mixed.dropLast ≠ "true".toList
  | .boolean, .line =>
    answer.exit = 0 → answer.mixed ≠ [] →
      answer.stdout = [] ∧ answer.mixed.dropLast ≠ "true".toList
  | .boolean, .whole | .boolean, .lineP => answer.exit ≠ 0 ∨ answer.mixed = []
  | .whole, .boolean | .lineP, .boolean => False

theorem lineText_eq_self_iff {text : Text} : lineText text = text ↔ '\n' ∉ text := by
  rw [lineText, List.takeWhile_eq_self_iff]
  exact ⟨fun h hmem => absurd (h _ hmem) (by decide), fun h c hc => by
    rw [bne_iff_ne]; rintro rfl; exact h hc⟩

theorem firstLine_eq_str_iff {text line : Text} :
    firstLine text = .str line ↔ text ≠ [] ∧ lineText text = line := by
  by_cases h : text = [] <;> simp [firstLine, h]

theorem firstLine_eq_nil_iff {text : Text} : firstLine text = .nil ↔ text = [] := by
  by_cases h : text = [] <;> simp [firstLine, h]

theorem firstLine_ne_t (text : Text) : firstLine text ≠ .t := by
  by_cases h : text = [] <;> simp [firstLine, h]

theorem firstLine_eq_firstLine_iff {text text' : Text} :
    firstLine text = firstLine text'
      ↔ (text ≠ [] ↔ text' ≠ []) ∧ (text ≠ [] → lineText text' = lineText text) := by
  by_cases h : text = [] <;> by_cases h' : text' = [] <;> simp [firstLine, h, h', eq_comm]

/-- What `magit-git-string-p` reads. -/
def readP (answer : Answer) : Text := if answer.exit = 0 then answer.mixed else []

theorem readP_ne_nil_iff {answer : Answer} :
    readP answer ≠ [] ↔ answer.exit = 0 ∧ answer.mixed ≠ [] := by
  by_cases h : answer.exit = 0 <;> simp [readP, h]

theorem value_lineP (answer : Answer) :
    Format.value answer .lineP = .ok (firstLine (readP answer)) := by
  by_cases h : answer.exit = 0 <;> simp [Format.value, readP, h, firstLine]

/-- What `magit-git-config-p` returns, if it does. -/
theorem value_boolean_eq_ok_iff {answer : Answer} {value : Value} :
    Format.value answer .boolean = .ok value
      ↔ answer.exit = 0 ∧ answer.mixed ≠ []
        ∧ (if answer.mixed.dropLast = "true".toList then .t else .nil) = value := by
  rw [Format.value]
  by_cases hmixed : answer.mixed = []
  · simp [hmixed]
  · by_cases hexit : answer.exit = 0 <;> simp [hmixed, hexit]

theorem firstLine_eq_whole_iff (answer : Answer) :
    firstLine answer.stdout = .str answer.stdout ↔ Interchangeable answer .line .whole := by
  rw [firstLine_eq_str_iff, lineText_eq_self_iff]
  rfl

/-- The first lines with and without the check are the same value exactly if the one can stand for
the other. -/
theorem firstLine_eq_readP_iff (answer : Answer) :
    firstLine answer.stdout = firstLine (readP answer) ↔ Interchangeable answer .line .lineP := by
  rw [firstLine_eq_firstLine_iff, readP_ne_nil_iff, Interchangeable]
  refine and_congr_right fun hne => forall_congr' fun hout => ?_
  rw [readP, if_pos (hne.mp hout).1]

/-- The checked first line and the whole output are the same value exactly if the one can stand for
the other. -/
theorem readP_eq_whole_iff (answer : Answer) :
    firstLine (readP answer) = .str answer.stdout ↔ Interchangeable answer .lineP .whole := by
  rw [firstLine_eq_str_iff, readP_ne_nil_iff, Interchangeable, and_assoc]
  refine and_congr_right fun hexit => ?_
  rw [readP, if_pos hexit]

/-- A boolean is kept as the value of a call that reads a line, if it is kept, exactly if it is
false and there is no line. -/
theorem boolean_eq_firstLine_iff (output text : Text) :
    (if output = "true".toList then Value.t else .nil) = firstLine text
      ↔ text = [] ∧ output ≠ "true".toList := by
  split
  · exact iff_of_false (firstLine_ne_t text).symm fun h => h.2 ‹_›
  · rw [eq_comm, firstLine_eq_nil_iff]
    exact (and_iff_left ‹_›).symm

theorem boolean_ne_str (output text : Text) :
    (if output = "true".toList then Value.t else .nil) ≠ .str text := by
  split <;> simp

/-- The formats are interchangeable exactly if what the first keeps is what the second returns. -/
theorem interchangeable_iff (answer : Answer) (f g : Format) :
    Interchangeable answer f g ↔ ∀ v, f.value answer = .ok v → g.value answer = .ok v := by
  have hok {value : Value} {p : Value → Prop} :
      (∀ v, (.ok value : Except Signal Value) = .ok v → p v) ↔ p value := by simp
  have hsame (f : Format) : True ↔ ∀ v, f.value answer = .ok v → f.value answer = .ok v :=
    iff_of_true trivial fun _ => id
  cases f with
  | line =>
    cases g with
    | line => exact hsame .line
    | whole =>
      rw [← firstLine_eq_whole_iff, Format.value, Format.value, hok, Except.ok.injEq, eq_comm]
    | lineP =>
      rw [← firstLine_eq_readP_iff, value_lineP, Format.value, hok, Except.ok.injEq, eq_comm]
    | boolean =>
      simp only [Format.value.eq_1, hok, value_boolean_eq_ok_iff, boolean_eq_firstLine_iff]
      rw [Interchangeable]
      tauto
  | whole =>
    cases g with
    | line =>
      change Interchangeable answer .line .whole ↔ _
      rw [← firstLine_eq_whole_iff, Format.value, Format.value, hok, Except.ok.injEq]
    | whole => exact hsame .whole
    | lineP =>
      change Interchangeable answer .lineP .whole ↔ _
      rw [← readP_eq_whole_iff, value_lineP, Format.value, hok, Except.ok.injEq]
    | boolean =>
      simp only [Format.value.eq_2, hok, value_boolean_eq_ok_iff]
      exact iff_of_false id fun h => boolean_ne_str _ _ h.2.2
  | lineP =>
    cases g with
    | line =>
      change Interchangeable answer .line .lineP ↔ _
      rw [← firstLine_eq_readP_iff, value_lineP, Format.value, hok, Except.ok.injEq]
    | whole =>
      rw [← readP_eq_whole_iff, value_lineP, Format.value, hok, Except.ok.injEq, eq_comm]
    | lineP => exact hsame .lineP
    | boolean =>
      simp only [value_lineP, hok, value_boolean_eq_ok_iff, boolean_eq_firstLine_iff]
      exact iff_of_false id fun h => readP_ne_nil_iff.mpr ⟨h.1, h.2.1⟩ h.2.2.1
  | boolean =>
    have hkept {p : Value → Prop} : (∀ v, Format.value answer .boolean = .ok v → p v)
        ↔ (answer.exit = 0 → answer.mixed ≠ [] →
          p (if answer.mixed.dropLast = "true".toList then .t else .nil)) := by
      simp only [value_boolean_eq_ok_iff]
      exact ⟨fun h hexit hmixed => h _ ⟨hexit, hmixed, rfl⟩, fun h v hv => hv.2.2 ▸ h hv.1 hv.2.1⟩
    have hnever {p : Prop} (h : answer.exit = 0 → answer.mixed ≠ [] → ¬ p) :
        (answer.exit ≠ 0 ∨ answer.mixed = [])
          ↔ (answer.exit = 0 → answer.mixed ≠ [] → p) := by
      tauto
    cases g with
    | line =>
      rw [hkept, Interchangeable]
      refine forall₂_congr fun hexit hmixed => ?_
      rw [← boolean_eq_firstLine_iff, Format.value, Except.ok.injEq, eq_comm]
    | whole =>
      rw [hkept, Interchangeable]
      refine hnever fun hexit hmixed hvalue => ?_
      exact boolean_ne_str _ _ (Except.ok.inj hvalue).symm
    | lineP =>
      rw [hkept, Interchangeable]
      refine hnever fun hexit hmixed hvalue => ?_
      rw [value_lineP, Except.ok.injEq, eq_comm, boolean_eq_firstLine_iff] at hvalue
      exact readP_ne_nil_iff.mpr ⟨hexit, hmixed⟩ hvalue.1
    | boolean => exact hsame .boolean

/-! ## A refresh -/

/-- **Calls within a refresh return what they would without the cache** if and only if, of any two
with one key, what the earlier keeps of git's answer is what the later would make of it. -/
theorem refresh_cache_transparent_iff (calls : List GitCall) :
    runCalls git (some .empty) calls = runCalls git none calls
      ↔ calls.Pairwise fun a b =>
        a.key = b.key → Interchangeable (b.answer git) a.format b.format := by
  rw [runCalls_none, runCalls_some, AssocCache.run_empty_eq_map_iff]
  refine iff_of_eq (congrArg (List.Pairwise · calls) ?_)
  funext a b
  refine propext (forall_congr' fun hkey => ?_)
  simp only [interchangeable_iff, GitCall.value, answer_eq_of_key git hkey]

/-- The first line of the output, kept by `magit-git-str`, is returned as the whole of it. -/
theorem line_returned_as_output :
    let git : Text → List Text → Answer := fun _ _ => ⟨0, "a\nb\n".toList, "a\nb\n".toList⟩
    let args := [Arg.str "tag".toList]
    let calls : List GitCall := [⟨"/work/".toList, .str args⟩, ⟨"/work/".toList, .output args⟩]
    runCalls git (some .empty) calls = [.ok (.str "a".toList), .ok (.str "a".toList)]
      ∧ runCalls git none calls = [.ok (.str "a".toList), .ok (.str "a\nb\n".toList)]
      ∧ runCalls git (some .empty) calls ≠ runCalls git none calls := by
  intro git args calls
  have hcached : runCalls git (some .empty) calls
      = [.ok (.str "a".toList), .ok (.str "a".toList)] := rfl
  have hrun : runCalls git none calls
      = [.ok (.str "a".toList), .ok (.str "a\nb\n".toList)] := rfl
  refine ⟨hcached, hrun, ?_⟩
  rw [hcached, hrun]
  simp

end Magit.Client
