import Magit.Server.Request

/-!
# Server/RequestKeys — which requests are queued

The protocol's request is a map with an id that is not zero under key 0, the command 1 under key 1
and a directory under key 2.  `msgpack_handler_recv` converts keys and commands to enumerations
before it compares them, and so reads the request of the map whose keys and commands are cut to
their lower 32 bits (`queued_eq`).
-/

namespace Magit.Server

open Git MsgpackObject

/-- The value of the last pair with a key. -/
def lastValue (key : ℕ) (entries : List (MsgpackObject × MsgpackObject)) : Option MsgpackObject :=
  (entries.reverse.find? fun entry => entry.1.isNat key).map Prod.snd

/-- A pair whose key is a positive integer and whose value has the type the key requires. -/
def wellTyped : MsgpackObject × MsgpackObject → Bool
  | (.positiveInteger key, val) =>
    if key.toNat = msgkeyIdUint ∨ key.toNat = msgkeyCmdUint then
      match val with
      | .positiveInteger _ => true
      | _ => false
    else if key.toNat = msgkeyPwdStr then
      match val with
      | .str _ => true
      | _ => false
    else true
  | _ => false

/-- The id and the directory of the protocol's request, if an object is one. -/
def protocolRequest : MsgpackObject → Option (UInt64 × Option Text)
  | .map entries =>
    if entries.all wellTyped then
      match lastValue msgkeyIdUint entries, lastValue msgkeyCmdUint entries with
      | some (.positiveInteger id), some (.positiveInteger cmd) =>
        if id ≠ 0 ∧ cmd.toNat = cmdGitStatus then
          match lastValue msgkeyPwdStr entries with
          | some (.str pwd) => some (id, some pwd)
          | _ => some (id, none)
        else none
      | _, _ => none
    else none
  | _ => none

/-- The lower 32 bits. -/
def lower (u64 : UInt64) : UInt64 := UInt64.ofNat (toCEnum u64)

/-- A pair with its key cut to its lower 32 bits, and so its value if that key is the command's. -/
def cutEntry : MsgpackObject × MsgpackObject → MsgpackObject × MsgpackObject
  | (.positiveInteger key, .positiveInteger val) =>
    (.positiveInteger (lower key),
      .positiveInteger (if toCEnum key = msgkeyCmdUint then lower val else val))
  | (.positiveInteger key, val) => (.positiveInteger (lower key), val)
  | entry => entry

/-- A message with its keys and its command cut. -/
def cut : MsgpackObject → MsgpackObject
  | .map entries => .map (entries.map cutEntry)
  | obj => obj

theorem toNat_lower (u64 : UInt64) : (lower u64).toNat = toCEnum u64 := by
  rw [lower, UInt64.toNat_ofNat', toCEnum]
  omega

/-- A pair of a map that the loop gets past. -/
inductive ReadsEntry (req : Request) : MsgpackObject × MsgpackObject → Request → Prop
  | id {key val : UInt64} (hkey : toCEnum key = msgkeyIdUint) :
    ReadsEntry req (.positiveInteger key, .positiveInteger val) { req with id := val }
  | cmd {key val : UInt64} (hkey : toCEnum key = msgkeyCmdUint) :
    ReadsEntry req (.positiveInteger key, .positiveInteger val) { req with cmd := val }
  | pwd {key : UInt64} {val : Text} (hkey : toCEnum key = msgkeyPwdStr) :
    ReadsEntry req (.positiveInteger key, .str val) { req with pwd := some val }
  | other {key : UInt64} {val : MsgpackObject} (hkey : msgkeyPwdStr < toCEnum key) :
    ReadsEntry req (.positiveInteger key, val) req

section

variable {req req' : Request} {entry : MsgpackObject × MsgpackObject}

/-- An entry without error is read as `ReadsEntry` says. -/
theorem readsEntry_of_ok (h : readEntry req entry = .ok req') : ReadsEntry req entry req' := by
  obtain ⟨key, val⟩ := entry
  cases key with
  | positiveInteger key =>
    rw [readEntry] at h
    dsimp only at h
    split_ifs at h with hid hcmd hpwd
    · cases val <;> simp only [reduceCtorEq, Except.ok.injEq] at h
      exact h ▸ .id hid
    · cases val <;> simp only [reduceCtorEq, Except.ok.injEq] at h
      exact h ▸ .cmd hcmd
    · cases val <;> simp only [reduceCtorEq, Except.ok.injEq] at h
      exact h ▸ .pwd hpwd
    · rw [← Except.ok.inj h]
      refine .other ?_
      simp only [msgkeyIdUint, msgkeyCmdUint, msgkeyPwdStr] at hid hcmd hpwd ⊢
      omega
  | _ => simp [readEntry] at h

/-- An entry that is read has the type of its key. -/
theorem ReadsEntry.wellTyped (h : ReadsEntry req entry req') :
    wellTyped (cutEntry entry) = true := by
  cases h with
  | id hkey | cmd hkey | pwd hkey =>
    simp [cutEntry, Server.wellTyped, toNat_lower, hkey, msgkeyIdUint, msgkeyCmdUint, msgkeyPwdStr]
  | @other key val hkey =>
    have hne : ∀ k ≤ msgkeyPwdStr, toCEnum key ≠ k := fun k hk => by omega
    have hid := hne msgkeyIdUint (by decide)
    have hcmd := hne msgkeyCmdUint (by decide)
    have hpwd := hne msgkeyPwdStr (by decide)
    cases val <;> simp [cutEntry, Server.wellTyped, toNat_lower, hid, hcmd, hpwd]

/-- An entry with the type of its key is read. -/
theorem exists_readEntry (h : Server.wellTyped (cutEntry entry) = true) (req : Request) :
    ∃ req', readEntry req entry = .ok req' := by
  obtain ⟨key, val⟩ := entry
  cases key with
  | positiveInteger key =>
    rw [readEntry]
    dsimp only
    split_ifs with hid hcmd hpwd
    · cases val <;> simp [cutEntry, Server.wellTyped, toNat_lower, hid] at h ⊢
    · cases val <;> simp [cutEntry, Server.wellTyped, toNat_lower, hcmd] at h ⊢
    · cases val <;>
        simp [cutEntry, Server.wellTyped, toNat_lower, hpwd, msgkeyIdUint, msgkeyCmdUint,
          msgkeyPwdStr] at h ⊢
    · exact ⟨req, rfl⟩
  | _ => cases val <;> simp [cutEntry, Server.wellTyped] at h

end

/-! ## What has been read -/

/-- The last value of a key is in the other entries, or else in the first one. -/
theorem lastValue_cons (key : ℕ) (entry : MsgpackObject × MsgpackObject)
    (entries : List (MsgpackObject × MsgpackObject)) :
    lastValue key (entry :: entries)
      = (lastValue key entries).or (lastValue key [entry]) := by
  rw [lastValue, List.reverse_cons, List.find?_append, Option.map_or]
  rfl

/-- What the loop keeps of the pairs it has read, beginning with `req`. -/
structure Kept (req : Request) (entries : List (MsgpackObject × MsgpackObject)) (req' : Request) :
    Prop where
  id : (lastValue msgkeyIdUint (entries.map cutEntry)).getD (.positiveInteger req.id)
    = .positiveInteger req'.id
  cmd : (lastValue msgkeyCmdUint (entries.map cutEntry)).getD (.positiveInteger (lower req.cmd))
    = .positiveInteger (lower req'.cmd)
  pwd : (lastValue msgkeyPwdStr (entries.map cutEntry)).or (req.pwd.map .str) = req'.pwd.map .str

section

variable {req req' next : Request} {entry : MsgpackObject × MsgpackObject}
  {entries : List (MsgpackObject × MsgpackObject)}

/-- What is read of one entry. -/
theorem ReadsEntry.kept (h : ReadsEntry req entry req') : Kept req [entry] req' := by
  cases h with
  | id hkey | cmd hkey | pwd hkey =>
    constructor <;>
      simp [lastValue, cutEntry, isNat, toNat_lower, hkey, msgkeyIdUint,
        msgkeyCmdUint, msgkeyPwdStr]
  | @other key val hkey =>
    have hne : ∀ k ≤ msgkeyPwdStr, toCEnum key ≠ k := fun k hk => by omega
    have hid := hne msgkeyIdUint (by decide)
    have hcmd := hne msgkeyCmdUint (by decide)
    have hpwd := hne msgkeyPwdStr (by decide)
    constructor <;> cases val <;>
      simp [lastValue, cutEntry, isNat, toNat_lower, hid, hcmd, hpwd]

theorem Kept.nil (req : Request) : Kept req [] req := ⟨rfl, rfl, Option.none_or⟩

/-- What is read of an entry and then of the others. -/
theorem Kept.cons (h : Kept req [entry] next) (hrest : Kept next entries req') :
    Kept req (entry :: entries) req' where
  id := by
    rw [List.map_cons, lastValue_cons, Option.getD_or, ← hrest.id, ← h.id, List.map_singleton]
  cmd := by
    rw [List.map_cons, lastValue_cons, Option.getD_or, ← hrest.cmd, ← h.cmd, List.map_singleton]
  pwd := by
    rw [List.map_cons, lastValue_cons, Option.or_assoc, ← hrest.pwd, ← h.pwd, List.map_singleton]

/-- Entries that are read have the types of their keys, and their last values are kept. -/
theorem readEntries_ok (h : readEntries req entries = .ok req') :
    (entries.map cutEntry).all Server.wellTyped = true ∧ Kept req entries req' := by
  induction entries generalizing req with
  | nil => exact ⟨rfl, Except.ok.inj h ▸ .nil req⟩
  | cons entry entries ih =>
    rw [readEntries] at h
    cases hentry : readEntry req entry with
    | error e => simp [hentry] at h
    | ok next =>
      rw [hentry] at h
      have hreads := readsEntry_of_ok hentry
      obtain ⟨htyped, hkept⟩ := ih h
      rw [List.map_cons, List.all_cons, hreads.wellTyped, htyped]
      exact ⟨rfl, hreads.kept.cons hkept⟩

/-- Entries with the types of their keys are read. -/
theorem exists_readEntries (h : (entries.map cutEntry).all Server.wellTyped = true)
    (req : Request) : ∃ req', readEntries req entries = .ok req' := by
  induction entries generalizing req with
  | nil => exact ⟨req, rfl⟩
  | cons entry entries ih =>
    rw [List.map_cons, List.all_cons, Bool.and_eq_true] at h
    obtain ⟨next, hnext⟩ := exists_readEntry h.1 req
    rw [readEntries, hnext]
    exact ih h.2 next

end

/-! ## Accepted requests -/

variable {δ : Type}

/-- What `msgpack_handler_recv` hands on of a request. -/
def queueRequest (g : GitHandler δ) (request : UInt64 × Option Text) : Option GitRootReqT :=
  (gitHandlerQueueGitStatus g request.1 request.2).toOption

/-- What the protocol asks for, said of what is kept. -/
theorem protocolRequest_of_kept {entries : List (MsgpackObject × MsgpackObject)} {req : Request}
    (htyped : (entries.map cutEntry).all wellTyped = true) (h : Kept {} entries req) :
    protocolRequest (cut (.map entries))
      = if req.id ≠ 0 ∧ toCEnum req.cmd = cmdGitStatus then some (req.id, req.pwd) else none := by
  obtain ⟨hid, hcmd, hpwd⟩ := h
  rw [Option.map_none, Option.or_none] at hpwd
  rw [cut, protocolRequest, if_pos htyped, hpwd]
  cases hid' : lastValue msgkeyIdUint (entries.map cutEntry) with
  | none =>
    rw [hid', Option.getD_none] at hid
    rw [if_neg fun hset => hset.1 (MsgpackObject.positiveInteger.inj hid).symm]
  | some id =>
    rw [hid', Option.getD_some] at hid
    subst hid
    cases hcmd' : lastValue msgkeyCmdUint (entries.map cutEntry) with
    | none =>
      rw [hcmd', Option.getD_none] at hcmd
      have hlower : (lower req.cmd).toNat = 0 := by rw [← MsgpackObject.positiveInteger.inj hcmd]; rfl
      rw [toNat_lower] at hlower
      rw [if_neg fun hset => absurd (hlower.symm.trans hset.2) (by decide)]
    | some cmd =>
      rw [hcmd', Option.getD_some] at hcmd
      subst hcmd
      dsimp only
      rw [toNat_lower]
      split_ifs
      · cases req.pwd <;> rfl
      · rfl

/-- **The request that is queued is that of the cut map.** -/
theorem queued_eq (g : GitHandler δ) (obj : MsgpackObject) :
    (msgpackHandlerRecv g (some obj)).2 = (protocolRequest (cut obj)).bind (queueRequest g) := by
  cases obj with
  | map entries =>
    rw [msgpackHandlerRecv]
    by_cases htyped : (entries.map cutEntry).all wellTyped = true
    · obtain ⟨req, hreq⟩ := exists_readEntries htyped {}
      have hkept := (readEntries_ok hreq).2
      rw [protocolRequest_of_kept htyped hkept, hreq]
      have hset : toCEnum req.cmd = cmdGitStatus → req.cmd ≠ 0 := by
        intro hcmd hzero
        rw [hzero] at hcmd
        exact absurd hcmd (by decide)
      dsimp only
      split_ifs <;> grind [queueRequest]
    · rw [cut, protocolRequest, if_neg htyped, Option.bind_none]
      cases hreq : readEntries {} entries with
      | error e => rfl
      | ok req => exact absurd (readEntries_ok hreq).1 htyped
  | _ => rfl

/-- A server that is ready to queue work: `main` has opened the repository, which has a path. -/
def GitHandler.Ready (g : GitHandler δ) : Prop :=
  g.uvQueueWork = 0 ∧ ∃ repo, g.repo = some repo ∧ (repo.workdir.or repo.path).isSome

/-- A ready server queues a request with its id and its directory. -/
theorem queueRequest_of_ready {g : GitHandler δ} (h : g.Ready) (request : UInt64 × Option Text) :
    ∃ data, queueRequest g request = some data ∧ data.id = request.1 ∧ data.pwd = request.2 := by
  obtain ⟨hqueue, repo, hrepo, hpath⟩ := h
  obtain ⟨path, hpath⟩ := Option.isSome_iff_exists.mp hpath
  let data : GitRootReqT :=
    { id := request.1, pwd := request.2, result := -1, repoPath := some path,
      dotGitDir := g.dotGitDir }
  refine ⟨data, ?_, rfl, rfl⟩
  rw [queueRequest, gitHandlerQueueGitStatus, hrepo]
  dsimp only
  rw [hpath]
  dsimp only
  rw [if_pos hqueue]
  rfl

/-- A ready server queues a job exactly for the protocol's requests, with the request's id and
directory. -/
def AcceptsExactly (obj : MsgpackObject) : Prop :=
  ∀ {δ : Type} (g : GitHandler δ), g.Ready →
    (msgpackHandlerRecv g (some obj)).2.map (fun data => (data.id, data.pwd)) = protocolRequest obj

/-- What a ready handler queues is what the protocol asks for. -/
theorem queued_map_eq {g : GitHandler δ} (h : g.Ready) (obj : MsgpackObject) :
    (msgpackHandlerRecv g (some obj)).2.map (fun data => (data.id, data.pwd))
      = protocolRequest (cut obj) := by
  rw [queued_eq]
  cases protocolRequest (cut obj) with
  | none => rfl
  | some request =>
    obtain ⟨data, hdata, hid, hpwd⟩ := queueRequest_of_ready h request
    rw [Option.bind_some, hdata, Option.map_some, hid, hpwd]

/-- A server in a work tree that is ready. -/
def readyHandler : GitHandler Unit where
  repo := some RefStore.init.libgit2
  dotGitDir := none

theorem ready_readyHandler : readyHandler.Ready := ⟨rfl, _, rfl, rfl⟩

/-- **Requests are told apart exactly where 32 bits tell them apart.** -/
theorem acceptsExactly_iff (obj : MsgpackObject) :
    AcceptsExactly obj ↔ protocolRequest (cut obj) = protocolRequest obj :=
  ⟨fun h => (queued_map_eq ready_readyHandler obj).symm.trans (h readyHandler ready_readyHandler),
    fun h _ _ hg => (queued_map_eq hg obj).trans h⟩

/-- Key 2³² + 1 is taken for the command. -/
theorem not_acceptsExactly_wideKey : ¬ AcceptsExactly
    (.map [(.positiveInteger 0, .positiveInteger 7),
      (.positiveInteger 4294967297, .positiveInteger 1)]) := by
  intro h
  have hqueued := (queued_map_eq ready_readyHandler _).symm.trans (h _ ready_readyHandler)
  exact absurd hqueued (by decide)

end Magit.Server
