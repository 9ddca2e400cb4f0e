import Magit.Client.Info
import Magit.Server.Response

/-!
# Protocol/Response — what the client reads is what the worker produced

The fields of a response pass from the worker's `git_root_req_T` through `magit_res_T` and the
packed map to the constants the client reads them by.  `Complete` says that a message carries every
field over; `response_complete_iff` finds what stands in the way: `after_git_root` leaves
`upstream_branch_master` out, and an integer field that no `int` can hold changes on the way.
-/

namespace Magit.Protocol

open Client Server WireItem

/-- The constant by which the client reads the field of a key; the id is read as `(assq 0 msg)`. -/
def infoEnum : MagitResKey → ℕ
  | .id => 0
  | .gitRoot => magitInfoRootEnum
  | .revHead => magitInfoHeadEnum
  | .magitExtension => magitInfoMagitExtensionsEnum
  | .listZ => magitInfoListZEnum
  | .branch => magitInfoBranchEnum
  | .headLogLine => magitInfoHeadLogLineEnum
  | .upstreamBranch => magitInfoUpstreamBranchEnum
  | .upstreamSubj => magitInfoUpstreamSubjEnum
  | .tagDesc => magitInfoTagDescEnum
  | .optTagDescHead => magitInfoOptTagDescHeadEnum
  | .version => magitInfoVersionEnum
  | .worktreePorcelain => magitInfoWorktreePorcelainEnum
  | .dotGitDir => magitInfoDotGitDirEnum
  | .configStatusShowUntrackedFiles => magitInfoConfigStatusShowUntrackedFilesEnum
  | .status => magitInfoStatusEnum
  | .diff => magitInfoDiffEnum
  | .staged => magitInfoStagedEnum
  | .isBare => magitInfoIsBareEnum
  | .stash => magitInfoStashEnum
  | .branches => magitInfoBranchesEnum
  | .revIdx => magitInfoRevByIdxEnum
  | .logs => magitInfoLogsEnum
  | .revShortHead => magitInfoRevShortHeadEnum
  | .tagMaster => magitInfoTagMasterEnum
  | .tagOriginMaster => magitInfoTagOriginMasterEnum
  | .originHead => magitInfoOriginHeadEnum
  | .tagOriginHead => magitInfoTagOriginHeadEnum
  | .upstreamBranchMaster => magitInfoUpstreamBranchMasterEnum

/-- **The client's constants are the server's numbers.** -/
theorem infoEnum_eq_ctorIdx (key : MagitResKey) : infoEnum key = key.ctorIdx := by
  cases key <;> rfl

/-- What the worker produced for the field a key names; no field is named `MAGIT_EXTENSION`. -/
def produced (data : GitRootReqT) : MagitResKey → Option MsgpackObject
  | .id => some (.positiveInteger data.id)
  | .gitRoot => some (.str (content data.root))
  | .revHead => some (.str (content data.revHead))
  | .magitExtension => none
  | .listZ => some (.str (content data.listZ))
  | .branch => some (.str (content data.branch))
  | .headLogLine => some (.str (content data.headLogLine))
  | .upstreamBranch => some (.str (content data.upstreamBranch))
  | .upstreamSubj => some (.str (content data.upstreamSubj))
  | .tagDesc => some (.str (content data.tagDesc))
  | .optTagDescHead => some (.str (content data.optTagDescHead))
  | .version => some (.str (content data.version))
  | .worktreePorcelain => some (.str (content data.worktreePorcelain))
  | .dotGitDir => some (.str (content data.dotGitDir))
  | .configStatusShowUntrackedFiles => some (.str (content data.configStatusShowUntrackedFiles))
  | .status => some (.str (content data.status))
  | .diff => some (.str (content data.diff))
  | .staged => some (.str (content data.staged))
  | .isBare => some (.positiveInteger data.isBare)
  | .stash => some (.str (content data.stash))
  | .branches => some (.str (content data.branches))
  | .revIdx => some (.str (content data.revisionByIdx))
  | .logs => some (.str (content data.logs))
  | .revShortHead => some (.str (content data.revShortHead))
  | .tagMaster => some (.str (content data.tagMaster))
  | .tagOriginMaster => some (.str (content data.tagOriginMaster))
  | .originHead => some (.str (content data.originHead))
  | .tagOriginHead => some (.str (content data.tagOriginHead))
  | .upstreamBranchMaster => some (.str (content data.upstreamBranchMaster))

/-- A packed message is a map of its declared size with distinct keys, in which every constant of
the client reads what the worker produced for the field of that name. -/
def Complete (data : GitRootReqT) (items : List WireItem) : Prop :=
  ∃ size pairs, items.head? = some (.mapHeader size) ∧ unpack items = some (.map pairs)
    ∧ pairs.length = size ∧ (pairs.map Prod.fst).Nodup
    ∧ ∀ key, magitInfoGet (infoEnum key) pairs = produced data key

/-- The messages `after_git_root` builds. -/
def messages (data : GitRootReqT) (status : ℤ) : List (List WireItem) :=
  (afterGitRoot data status).map msgpackHandlerBufCreate

theorem messages_of_result {data : GitRootReqT} (h : 0 ≤ data.result) :
    messages data 0 = [msgpackHandlerBufCreate (afterGitRootRes data)] := by
  rw [messages, afterGitRoot, if_neg (by simp), if_neg (not_lt.mpr h)]
  rfl

/-- What the client reads by the constant of a key. -/
theorem magitInfoGet_resMsg (res : MagitResT) (key : MagitResKey) :
    magitInfoGet (infoEnum key) (resMsg res) = ((resEntries res).lookup key).map Scalar.object := by
  rw [magitInfoGet_eq_assq, infoEnum_eq_ctorIdx]
  exact assq_entries key (resEntries res)

/-- Every field but three arrives as the worker produced it, whatever it produced. -/
theorem lookup_afterGitRootRes (data : GitRootReqT) {key : MagitResKey} (hid : key ≠ .id)
    (hbare : key ≠ .isBare) (hmaster : key ≠ .upstreamBranchMaster) :
    ((resEntries (afterGitRootRes data)).lookup key).map Scalar.object = produced data key := by
  cases key <;> first
    | exact absurd rfl hid
    | exact absurd rfl hbare
    | exact absurd rfl hmaster
    | rfl

/-- No key is in the response twice. -/
theorem nodup_resMsg (res : MagitResT) : ((resMsg res).map Prod.fst).Nodup := by
  have hkeys : (resMsg res).map Prod.fst
      = ((resEntries res).map Prod.fst).map fun key => ofInt key.ctorIdx := by
    rw [resMsg, List.map_map, List.map_map]
    rfl
  rw [hkeys]
  refine (nodup_keys_resEntries res).map fun a b hab => ?_
  have h := isNat_ofInt_ctorIdx a b
  rw [← hab, isNat_ofInt_ctorIdx, beq_self_eq_true] at h
  exact beq_iff_eq.mp h.symm

/-- What a complete message demands of the worker's results. -/
theorem Complete.of_messages {data : GitRootReqT} (h : 0 ≤ data.result) {items : List WireItem}
    (hitems : messages data 0 = [items]) (hc : Complete data items) :
    content data.upstreamBranchMaster = [] ∧ data.id.toNat < 2 ^ 31
      ∧ data.isBare.toNat < 2 ^ 31 := by
  rw [messages_of_result h, List.singleton_inj] at hitems
  subst hitems
  obtain ⟨size, pairs, -, hpairs, -, -, hread⟩ := hc
  rw [unpack_msgpackHandlerBufCreate, Option.some.injEq, MsgpackObject.map.injEq] at hpairs
  subst hpairs
  have hmaster := hread .upstreamBranchMaster
  have hid := hread .id
  have hbare := hread .isBare
  rw [magitInfoGet_resMsg] at hmaster hid hbare
  refine ⟨?_, (ofInt_toCInt_eq_iff _).mp (Option.some.inj hid),
    (ofInt_toCInt_eq_iff _).mp (Option.some.inj hbare)⟩
  exact (MsgpackObject.str.inj (Option.some.inj hmaster)).symm

/-- What fits into the response arrives. -/
theorem complete_of_fits {data : GitRootReqT} (hmaster : content data.upstreamBranchMaster = [])
    (hid : data.id.toNat < 2 ^ 31) (hbare : data.isBare.toNat < 2 ^ 31) :
    Complete data (msgpackHandlerBufCreate (afterGitRootRes data)) := by
  refine ⟨28, resMsg (afterGitRootRes data), ?_, unpack_msgpackHandlerBufCreate _,
    length_resMsg _, nodup_resMsg _, fun key => ?_⟩
  · rw [msgpackHandlerBufCreate_eq]
    rfl
  rw [magitInfoGet_resMsg]
  by_cases h1 : key = .id
  · subst h1
    exact congrArg some ((ofInt_toCInt_eq_iff _).mpr hid)
  by_cases h2 : key = .isBare
  · subst h2
    exact congrArg some ((ofInt_toCInt_eq_iff _).mpr hbare)
  by_cases h3 : key = .upstreamBranchMaster
  · subst h3
    exact congrArg (fun t => some (MsgpackObject.str t)) hmaster.symm
  · exact lookup_afterGitRootRes data h1 h2 h3

/-- **When a response is complete.**  Every field the worker produced reaches the client under the
constant of its name if and only if the worker left `upstream_branch_master` empty and both integer
fields fit an `int`. -/
theorem response_complete_iff {data : GitRootReqT} (h : 0 ≤ data.result) :
    (∃ items, messages data 0 = [items] ∧ Complete data items)
      ↔ content data.upstreamBranchMaster = [] ∧ data.id.toNat < 2 ^ 31
        ∧ data.isBare.toNat < 2 ^ 31 := by
  constructor
  · rintro ⟨items, hitems, hc⟩
    exact hc.of_messages h hitems
  · rintro ⟨hmaster, hid, hbare⟩
    exact ⟨_, messages_of_result h, complete_of_fits hmaster hid hbare⟩

/-- What a worker found in a work tree on the branch `topic` with a staged and an untracked file. -/
def topicData : GitRootReqT where
  id := 7
  root := some "/work/".toList
  dotGitDir := some "/work/.git/".toList
  revHead := some "8f3b2c1d8f3b2c1d8f3b2c1d8f3b2c1d8f3b2c1d".toList
  branch := some "topic".toList
  upstreamBranch := some "origin/topic".toList
  headLogLine := some "8f3b2c1 Fix the parser".toList
  subj := some "Fix the parser".toList
  upstreamSubj := some "Add the parser".toList
  status := some "A  parser.c\n?? notes\n".toList
  staged := some "diff --git a/parser.c b/parser.c\n".toList

/-- All of it arrives. -/
theorem response_complete_topic :
    ∃ items, messages topicData 0 = [items] ∧ Complete topicData items :=
  (response_complete_iff (by decide)).mpr ⟨rfl, by decide, by decide⟩

/-- The upstream of `master` is found and does not arrive. -/
theorem upstream_branch_master_lost :
    ¬ ∀ data : GitRootReqT, 0 ≤ data.result →
        ∃ items, messages data 0 = [items] ∧ Complete data items := by
  intro h
  have hresult : 0 ≤ ({ id := 1, upstreamBranchMaster := some "origin/master\n".toList } :
      GitRootReqT).result := le_refl 0
  obtain ⟨items, hitems, hc⟩ := h _ hresult
  exact absurd (hc.of_messages hresult hitems).1 (by decide)

end Magit.Protocol
