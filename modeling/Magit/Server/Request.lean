import Magit.Git.Worker

/-!
# Server/Request — from a decoded request to the work it queues

`msgpack_handler_recv` walks the entries of a request map, later entries overriding earlier ones,
and hands a request with an id and a known command to `git_handler_queue_git_status`, which fills
the `git_root_req_T` the worker will run on.
-/

namespace Magit.Server

open Git MsgpackObject

variable {δ : Type}

def errInvalidKeyType : ℤ := 1
def errInvalidKeyValType : ℤ := 2
def errInvalidCmdValType : ℤ := 3
def errInvalidPwdValType : ℤ := 4
def errUnexpectedMsg : ℤ := 5

def msgkeyIdUint : ℕ := 0
def msgkeyCmdUint : ℕ := 1
def msgkeyPwdStr : ℕ := 2

/-- `CMD_GIT_STATUS` -/
def cmdGitStatus : ℕ := 1

/-- The conversion of a `uint64_t` to an enumeration, which is 32 bits wide. -/
def toCEnum (u64 : UInt64) : ℕ := u64.toNat % 2 ^ 32

/-- What has been read of a request. -/
structure Request where
  id : UInt64 := 0
  cmd : UInt64 := 0
  pwd : Option Text := none

/-- The body of the loop: one entry of the request map. -/
def readEntry (req : Request) (entry : MsgpackObject × MsgpackObject) : Except ℤ Request :=
  match entry.1 with
  | .positiveInteger u64 =>
    if toCEnum u64 = msgkeyIdUint then
      match entry.2 with
      | .positiveInteger val => .ok { req with id := val }
      | _ => .error errInvalidKeyValType
    else if toCEnum u64 = msgkeyCmdUint then
      match entry.2 with
      | .positiveInteger val => .ok { req with cmd := val }
      | _ => .error errInvalidCmdValType
    else if toCEnum u64 = msgkeyPwdStr then
      match entry.2 with
      | .str val => .ok { req with pwd := some val }
      | _ => .error errInvalidPwdValType
    else .ok req
  | _ => .error errInvalidKeyType

/-- The loop over the entries of the map. -/
def readEntries (req : Request) : List (MsgpackObject × MsgpackObject) → Except ℤ Request
  | [] => .ok req
  | entry :: entries =>
    match readEntry req entry with
    | .error e => .error e
    | .ok req => readEntries req entries

/-- `g_repo` with what libgit2 says about it, `g_dot_git_dir`, and the code `uv_queue_work`
returns. -/
structure GitHandler (δ : Type) where
  repo : Option (Libgit2 δ)
  dotGitDir : Option Text
  uvQueueWork : ℤ := 0

/-- The request as it waits for its worker. -/
def gitHandlerQueueGitStatus (g : GitHandler δ) (id : UInt64) (pwd : Option Text) :
    Except ℤ GitRootReqT :=
  match g.repo with
  | none => .error (-1)
  | some repo =>
    match repo.workdir.or repo.path with
    | none => .error (-1)
    | some repoPath =>
      let data : GitRootReqT :=
        { id := id, pwd := pwd, result := -1, repoPath := some repoPath, dotGitDir := g.dotGitDir }
      if g.uvQueueWork = 0 then .ok data else .error g.uvQueueWork

/-- `msgpack_handler_recv`: the code it returns, which is an error even if all went well, and the
work it queued.  The object is `none` if the bytes could not be unpacked. -/
def msgpackHandlerRecv (g : GitHandler δ) (obj : Option MsgpackObject) : ℤ × Option GitRootReqT :=
  match obj with
  | some (.map entries) =>
    match readEntries {} entries with
    | .error e => (e, none)
    | .ok req =>
      if req.id ≠ 0 ∧ req.cmd ≠ 0 then
        if toCEnum req.cmd = cmdGitStatus then
          (errUnexpectedMsg, (gitHandlerQueueGitStatus g req.id req.pwd).toOption)
        else (errUnexpectedMsg, none)
      else (errUnexpectedMsg, none)
  | _ => (-1, none)

/-! ## The id of a request -/

/-- Whether an entry is read as the id. -/
def isIdEntry (entry : MsgpackObject × MsgpackObject) : Bool :=
  match entry.1 with
  | .positiveInteger u64 => toCEnum u64 == msgkeyIdUint
  | _ => false

/-- The id a request map carries: the value of its last id entry. -/
def requestId (entries : List (MsgpackObject × MsgpackObject)) : Option MsgpackObject :=
  (entries.reverse.find? isIdEntry).map Prod.snd

/-- Only the entry with the id changes it. -/
theorem readEntry_id {req req' : Request} {entry : MsgpackObject × MsgpackObject}
    (h : readEntry req entry = .ok req') :
    if isIdEntry entry then entry.2 = .positiveInteger req'.id else req'.id = req.id := by
  obtain ⟨key, val⟩ := entry
  cases key with
  | positiveInteger u64 =>
    rw [readEntry] at h
    dsimp only at h
    by_cases hid : toCEnum u64 = msgkeyIdUint
    · rw [if_pos hid] at h
      rw [if_pos (by simpa [isIdEntry] using hid)]
      cases val <;> simp only [reduceCtorEq, Except.ok.injEq] at h
      rw [← h]
    · rw [if_neg hid] at h
      rw [if_neg (by simpa [isIdEntry] using hid)]
      split at h
      · cases val <;> simp only [reduceCtorEq, Except.ok.injEq] at h
        rw [← h]
      · split at h
        · cases val <;> simp only [reduceCtorEq, Except.ok.injEq] at h
          rw [← h]
        · rw [Except.ok.inj h]
  | _ => simp [readEntry] at h

/-- The id that is read is the last one in the request. -/
theorem readEntries_id {entries : List (MsgpackObject × MsgpackObject)} {req req' : Request}
    (h : readEntries req entries = .ok req') :
    (requestId entries).getD (.positiveInteger req.id) = .positiveInteger req'.id := by
  induction entries generalizing req with
  | nil => rw [Except.ok.inj h]; rfl
  | cons entry entries ih =>
    rw [readEntries] at h
    cases hentry : readEntry req entry with
    | error e => rw [hentry] at h; simp at h
    | ok next =>
      rw [hentry] at h
      have hnext := readEntry_id hentry
      have hrest := ih h
      rw [requestId, List.reverse_cons, List.find?_append, List.find?_singleton]
      rw [requestId] at hrest
      cases hlast : entries.reverse.find? isIdEntry with
      | some last => rw [hlast] at hrest; exact hrest
      | none =>
        rw [hlast] at hrest
        have hid : next.id = req'.id := MsgpackObject.positiveInteger.inj hrest
        rw [Option.none_or]
        split at hnext
        · rw [if_pos ‹_›, ← hid]
          exact hnext
        · rw [if_neg ‹_›, ← hid, hnext]
          rfl

/-! ## The work a request queues -/

/-- **What a queued request waits with.** -/
theorem queued_data {g : GitHandler δ} {obj : Option MsgpackObject} {data : GitRootReqT}
    (h : (msgpackHandlerRecv g obj).2 = some data) :
    ∃ entries, obj = some (.map entries) ∧ requestId entries = some (.positiveInteger data.id)
      ∧ data.id ≠ 0 ∧ data.result = -1 := by
  unfold msgpackHandlerRecv at h
  split at h
  · rename_i entries
    cases hreq : readEntries {} entries with
    | error e => simp [hreq] at h
    | ok req =>
      simp only [hreq] at h
      split_ifs at h with hset hcmd
      have hid : data.id = req.id ∧ data.result = -1 := by
        unfold gitHandlerQueueGitStatus at h
        split at h
        · simp [Except.toOption] at h
        split at h
        · simp [Except.toOption] at h
        dsimp only at h
        split_ifs at h
        · exact Option.some.inj h ▸ ⟨rfl, rfl⟩
        · simp [Except.toOption] at h
      have hread := readEntries_id hreq
      refine ⟨entries, rfl, ?_, hid.1 ▸ hset.1, hid.2⟩
      cases hentry : requestId entries with
      | some val => rw [hentry] at hread; rw [hid.1, ← hread]; rfl
      | none =>
        rw [hentry] at hread
        exact absurd (MsgpackObject.positiveInteger.inj hread).symm hset.1
  · simp at h

/-! ## The request of the status buffer -/

/-- The map `magit-status-req` has sent under an id. -/
def statusRequest (id : UInt64) (defaultDir : Text) : List (MsgpackObject × MsgpackObject) :=
  [(.positiveInteger 0, .positiveInteger id), (.positiveInteger 1, .positiveInteger 1),
    (.positiveInteger 2, .str defaultDir)]

theorem requestId_statusRequest (id : UInt64) (defaultDir : Text) :
    requestId (statusRequest id defaultDir) = some (.positiveInteger id) := rfl

/-- Such a request is queued whenever its id is not 0 and the repository has a path. -/
theorem queued_statusRequest {g : GitHandler δ} {id : UInt64} (hid : id ≠ 0) (defaultDir : Text) :
    (msgpackHandlerRecv g (some (.map (statusRequest id defaultDir)))).2
      = (gitHandlerQueueGitStatus g id (some defaultDir)).toOption := by
  have hread : readEntries {} (statusRequest id defaultDir) = .ok ⟨id, 1, some defaultDir⟩ := rfl
  have hcmd : id ≠ 0 ∧ (1 : UInt64) ≠ 0 := ⟨hid, by decide⟩
  rw [msgpackHandlerRecv]
  simp only [hread]
  rw [if_pos hcmd]
  rfl

end Magit.Server
