import Magit.Protocol.Response
import Magit.Server.Request

/-!
# Protocol/Answer — the answer to an accepted request

A request that `msgpack_handler_recv` queues is worked on and then answered or dropped.  Two
questions decide whether its sender hears of it: whether the worker's condition holds, which an
unborn `HEAD` prevents (`answered_once_iff`), and whether the id survives the `int` it is packed
through (`id_echoed_iff`).
-/

namespace Magit.Protocol

open Git Server WireItem MsgpackObject

variable {δ : Type}

/-- What is sent for the work that waits in `data`, once it has run. -/
def answers (lg : Libgit2 δ) (data : GitRootReqT) : List MagitResT :=
  afterGitRoot (gitRootWorker lg data) 0

/-- The id the client reads off a packed response, `(cdr (assq 0 msg))`. -/
def responseId (items : List WireItem) : Option MsgpackObject :=
  match unpack items with
  | some (.map msg) => assq 0 msg
  | _ => none

theorem responseId_msgpackHandlerBufCreate (res : MagitResT) :
    responseId (msgpackHandlerBufCreate res) = some (ofInt (toCInt res.id)) := by
  rw [responseId, unpack_msgpackHandlerBufCreate]
  exact assq_entries .id (resEntries res)

theorem answers_eq_of_result {lg : Libgit2 δ} {data : GitRootReqT}
    (h : 0 ≤ (gitRootWorker lg data).result) :
    answers lg data = [afterGitRootRes (gitRootWorker lg data)] := by
  rw [answers, afterGitRoot, if_neg (by simp), if_neg (not_lt.mpr h)]

/-- An answer has the id of the request. -/
theorem id_of_mem_answers {lg : Libgit2 δ} {data : GitRootReqT} {res : MagitResT}
    (h : res ∈ answers lg data) : res.id = data.id := by
  rw [answers, afterGitRoot, if_neg (by simp)] at h
  split_ifs at h
  · simp at h
  · rw [List.mem_singleton.mp h]
    exact id_gitRootWorker lg data

/-- A server for the work tree of `s`. -/
def handler (s : RefStore) : GitHandler Unit where
  repo := some s.libgit2
  dotGitDir := some "/work/.git/".toList

/-- What a status request waits with there. -/
def statusData (id : UInt64) : GitRootReqT where
  id := id
  pwd := some "/work/".toList
  repoPath := some "/work/".toList
  dotGitDir := some "/work/.git/".toList
  result := -1

theorem queued_handler (s : RefStore) {id : UInt64} (hid : id ≠ 0) :
    (msgpackHandlerRecv (handler s) (some (.map (statusRequest id "/work/".toList)))).2
      = some (statusData id) :=
  queued_statusRequest hid _

/-! ## Whether an answer is sent -/

/-- The worker reports success and exactly one response is sent, which carries the request's id,
also on the wire if the id is one an `int` holds. -/
def AnsweredOnce (lg : Libgit2 δ) (data : GitRootReqT) : Prop :=
  (gitRootWorker lg data).result = 0
    ∧ ∃ res, answers lg data = [res] ∧ res.id = data.id
      ∧ (data.id.toNat < 2 ^ 31 →
          responseId (msgpackHandlerBufCreate res) = some (.positiveInteger data.id))

/-- A repository that passes the gating steps is answered once. -/
theorem answeredOnce_of_gating {lg : Libgit2 δ} {data : GitRootReqT} (hdata : data.result = -1)
    (hopen : 0 ≤ lg.openExt) (hg : gating lg = true) : AnsweredOnce lg data := by
  have hresult : (gitRootWorker lg data).result = 0 := by
    rw [result_gitRootWorker lg hdata hopen, if_pos hg]
  have hid : (afterGitRootRes (gitRootWorker lg data)).id = data.id := id_gitRootWorker lg data
  refine ⟨hresult, _, answers_eq_of_result hresult.ge, hid, fun hlt => ?_⟩
  rw [responseId_msgpackHandlerBufCreate, hid, (ofInt_toCInt_eq_iff _).mpr hlt]

/-- What is answered once has passed the gating steps. -/
theorem gating_of_answeredOnce {lg : Libgit2 δ} {data : GitRootReqT} (hdata : data.result = -1)
    (hopen : 0 ≤ lg.openExt) (h : AnsweredOnce lg data) : gating lg = true := by
  have hresult := h.1
  rw [result_gitRootWorker lg hdata hopen] at hresult
  split_ifs at hresult with hg
  exact hg

/-- **When an accepted request is answered.**  In a repository where nothing fails that the steps
do not call normal, a queued request is answered exactly once if and only if `HEAD` is not
unborn. -/
theorem answered_once_iff {g : GitHandler δ} {obj : Option MsgpackObject} {data : GitRootReqT}
    (hqueued : (msgpackHandlerRecv g obj).2 = some data) {lg : Libgit2 δ} {s : RefStore}
    (hs : NormalRepository lg s) : AnsweredOnce lg data ↔ ¬ s.Unborn := by
  obtain ⟨-, -, -, -, hdata⟩ := queued_data hqueued
  rw [← hs.gating_iff]
  constructor
  · intro h
    exact gating_of_answeredOnce hdata hs.opens h
  · intro hg
    exact answeredOnce_of_gating hdata hs.opens hg

/-- A request in a repository with one commit. -/
theorem answered_once_oneCommit : AnsweredOnce RefStore.oneCommit.libgit2 (statusData 1) :=
  (answered_once_iff (queued_handler RefStore.oneCommit (by decide))
    RefStore.normalRepository_oneCommit).mpr RefStore.not_unborn_oneCommit

/-- A request in a repository without a commit is dropped, although an unborn `HEAD` is normal to
the steps that look up the branch and the staged changes. -/
theorem unborn_head_unanswered :
    NormalRepository RefStore.init.libgit2 RefStore.init
      ∧ (msgpackHandlerRecv (handler RefStore.init)
          (some (.map (statusRequest 1 "/work/".toList)))).2 = some (statusData 1)
      ∧ ¬ AnsweredOnce RefStore.init.libgit2 (statusData 1)
      ∧ answers RefStore.init.libgit2 (statusData 1) = []
      ∧ (gitSymbolicRefShortHead RefStore.init.libgit2 []).1 = 0
      ∧ (getStaged RefStore.init.libgit2 []).1 = 0 := by
  have hs := RefStore.normalRepository_init
  have hg := hs.gating_of_unborn RefStore.unborn_init
  have hresult : (gitRootWorker RefStore.init.libgit2 (statusData 1)).result = -1 := by
    rw [result_gitRootWorker _ rfl hs.opens, hg]
    rfl
  refine ⟨hs, queued_handler _ (by decide), fun h => ?_, ?_, rfl, rfl⟩
  · rw [gating_of_answeredOnce rfl hs.opens h] at hg
    exact absurd hg (by decide)
  · rw [answers, afterGitRoot, if_neg (by simp), hresult, if_pos (by decide)]

/-! ## Whether the id survives -/

/-- A request map that is accepted and answered with `res`. -/
def Responds (g : GitHandler δ) (lg : Libgit2 δ) (entries : List (MsgpackObject × MsgpackObject))
    (res : MagitResT) : Prop :=
  ∃ data, (msgpackHandlerRecv g (some (.map entries))).2 = some data ∧ answers lg data = [res]

variable {g : GitHandler δ} {lg lg' : Libgit2 δ}
variable {entries entries' : List (MsgpackObject × MsgpackObject)} {res res' : MagitResT}
variable {id id' : UInt64}

/-- The `uint64_t` members on the way carry the request's id. -/
theorem Responds.id_eq (h : Responds g lg entries res)
    (hid : requestId entries = some (.positiveInteger id)) : res.id = id := by
  obtain ⟨data, hqueued, hres⟩ := h
  obtain ⟨entries', hentries, hdata, -, -⟩ := queued_data hqueued
  cases hentries
  rw [id_of_mem_answers (hres ▸ List.mem_singleton_self res)]
  exact positiveInteger.inj (Option.some.inj (hdata.symm.trans hid))

/-- **When ids are echoed.**  A response carries its request's id if and only if an `int` holds the
id, and two requests with different ids get responses with different ids if and only if the ids
differ in their lower 32 bits. -/
theorem id_echoed_iff (h : Responds g lg entries res)
    (hid : requestId entries = some (.positiveInteger id)) (h' : Responds g lg' entries' res')
    (hid' : requestId entries' = some (.positiveInteger id')) :
    (responseId (msgpackHandlerBufCreate res) = some (.positiveInteger id) ↔ id.toNat < 2 ^ 31)
      ∧ (responseId (msgpackHandlerBufCreate res) ≠ responseId (msgpackHandlerBufCreate res')
          ↔ id.toNat % 2 ^ 32 ≠ id'.toNat % 2 ^ 32) := by
  simp only [responseId_msgpackHandlerBufCreate, h.id_eq hid, h'.id_eq hid', ne_eq,
    Option.some.injEq]
  exact ⟨ofInt_toCInt_eq_iff id, not_congr ofInt_toCInt_inj⟩

/-- The response to a status request in a repository with one commit. -/
def oneCommitRes (id : UInt64) : MagitResT :=
  afterGitRootRes (gitRootWorker RefStore.oneCommit.libgit2 (statusData id))

theorem id_oneCommitRes (id : UInt64) : (oneCommitRes id).id = id :=
  id_gitRootWorker _ (statusData id)

/-- The repository with one commit answers a status request. -/
theorem answers_oneCommit (id : UInt64) :
    answers RefStore.oneCommit.libgit2 (statusData id) = [oneCommitRes id] := by
  have hs := RefStore.normalRepository_oneCommit
  refine answers_eq_of_result (le_of_eq ?_)
  rw [result_gitRootWorker _ rfl hs.opens, hs.gating_of_headOid RefStore.headOid_oneCommit]
  rfl

theorem responds_oneCommit {id : UInt64} (hid : id ≠ 0) :
    Responds (handler RefStore.oneCommit) RefStore.oneCommit.libgit2
      (statusRequest id "/work/".toList) (oneCommitRes id) :=
  ⟨statusData id, queued_handler _ hid, answers_oneCommit id⟩

/-- Requests 1 and 2. -/
theorem id_echoed_one_two :
    responseId (msgpackHandlerBufCreate (oneCommitRes 1)) = some (.positiveInteger 1)
      ∧ responseId (msgpackHandlerBufCreate (oneCommitRes 1))
        ≠ responseId (msgpackHandlerBufCreate (oneCommitRes 2)) := by
  have h := id_echoed_iff (responds_oneCommit (by decide)) (requestId_statusRequest 1 _)
    (responds_oneCommit (by decide)) (requestId_statusRequest 2 _)
  exact ⟨h.1.mpr (by decide), h.2.mpr (by decide)⟩

/-- Requests `1` and `2 ^ 32 + 1` both get a response with the id 1. -/
theorem id_truncated :
    Responds (handler RefStore.oneCommit) RefStore.oneCommit.libgit2
        (statusRequest 4294967297 "/work/".toList) (oneCommitRes 4294967297)
      ∧ Responds (handler RefStore.oneCommit) RefStore.oneCommit.libgit2
        (statusRequest 1 "/work/".toList) (oneCommitRes 1)
      ∧ responseId (msgpackHandlerBufCreate (oneCommitRes 4294967297))
        ≠ some (.positiveInteger 4294967297)
      ∧ responseId (msgpackHandlerBufCreate (oneCommitRes 4294967297))
        = responseId (msgpackHandlerBufCreate (oneCommitRes 1)) := by
  refine ⟨responds_oneCommit (by decide), responds_oneCommit (by decide), ?_, ?_⟩
  · rw [responseId_msgpackHandlerBufCreate, id_oneCommitRes, ne_eq, Option.some.injEq,
      ofInt_toCInt_eq_iff]
    decide
  · rw [responseId_msgpackHandlerBufCreate, responseId_msgpackHandlerBufCreate, id_oneCommitRes,
      id_oneCommitRes, Option.some.injEq, ofInt_toCInt_inj]
    decide

end Magit.Protocol
