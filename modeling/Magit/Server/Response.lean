import Magit.Framing.LengthPrefix
import Magit.Msgpack.Object

/-!
# Server/Response — from the worker's results to the bytes of a response

A request's `git_root_req_T` collects what the worker finds out; `after_git_root` copies it into a
`magit_res_T`, `msgpack_handler_buf_create` packs that as a map, and `msgpack_handler_send` writes
the map behind its length.
-/

namespace Magit.Server

open Framing WireItem

/-- `git_root_req_T`; a `kstring_t *` is `none` while it is NULL. -/
structure GitRootReqT where
  id : UInt64
  pwd : Option Text := none
  repoPath : Option Text := none
  dotGitDir : Option Text := none
  root : Option Text := none
  revHead : Option Text := none
  listZ : Option Text := none
  branch : Option Text := none
  upstreamBranch : Option Text := none
  headLogLine : Option Text := none
  subj : Option Text := none
  upstreamSubj : Option Text := none
  tagDesc : Option Text := none
  optTagDescHead : Option Text := none
  version : Option Text := none
  worktreePorcelain : Option Text := none
  configStatusShowUntrackedFiles : Option Text := none
  status : Option Text := none
  diff : Option Text := none
  staged : Option Text := none
  isBare : UInt64 := 0
  stash : Option Text := none
  branches : Option Text := none
  revisionByIdx : Option Text := none
  logs : Option Text := none
  revShortHead : Option Text := none
  tagMaster : Option Text := none
  tagOriginMaster : Option Text := none
  originHead : Option Text := none
  tagOriginHead : Option Text := none
  upstreamBranchMaster : Option Text := none
  result : ℤ := 0

/-- `magit_res_T`; a member that an initialiser leaves out is zero. -/
structure MagitResT where
  id : UInt64 := 0
  gitRoot : Option Text := none
  revHead : Option Text := none
  listZ : Option Text := none
  branch : Option Text := none
  upstreamBranch : Option Text := none
  headLogLine : Option Text := none
  upstreamSubj : Option Text := none
  tagDesc : Option Text := none
  optTagDescHead : Option Text := none
  version : Option Text := none
  worktreePorcelain : Option Text := none
  dotGitDir : Option Text := none
  configStatusShowUntrackedFiles : Option Text := none
  status : Option Text := none
  diff : Option Text := none
  staged : Option Text := none
  isBare : UInt64 := 0
  stash : Option Text := none
  branches : Option Text := none
  revisionByIdx : Option Text := none
  logs : Option Text := none
  revShortHead : Option Text := none
  tagMaster : Option Text := none
  tagOriginMaster : Option Text := none
  originHead : Option Text := none
  tagOriginHead : Option Text := none
  upstreamBranchMaster : Option Text := none

/-- `enum MAGIT_RES_KEY`, in its order; a key's number is its place. -/
inductive MagitResKey
  | id
  | gitRoot
  | revHead
  | magitExtension
  | listZ
  | branch
  | headLogLine
  | upstreamBranch
  | upstreamSubj
  | tagDesc
  | optTagDescHead
  | version
  | worktreePorcelain
  | dotGitDir
  | configStatusShowUntrackedFiles
  | status
  | diff
  | staged
  | isBare
  | stash
  | branches
  | revIdx
  | logs
  | revShortHead
  | tagMaster
  | tagOriginMaster
  | originHead
  | tagOriginHead
  | upstreamBranchMaster
  deriving DecidableEq, Repr

/-- The `magit_res_T` of `after_git_root`.  The last line of its initialiser names
`upstream_branch` a second time, and no line names `upstream_branch_master`. -/
def afterGitRootRes (data : GitRootReqT) : MagitResT where
  id := data.id
  gitRoot := data.root
  revHead := data.revHead
  listZ := data.listZ
  branch := data.branch
  headLogLine := data.headLogLine
  upstreamSubj := data.upstreamSubj
  tagDesc := data.tagDesc
  optTagDescHead := data.optTagDescHead
  version := data.version
  worktreePorcelain := data.worktreePorcelain
  dotGitDir := data.dotGitDir
  configStatusShowUntrackedFiles := data.configStatusShowUntrackedFiles
  status := data.status
  diff := data.diff
  staged := data.staged
  isBare := data.isBare
  stash := data.stash
  branches := data.branches
  revisionByIdx := data.revisionByIdx
  logs := data.logs
  revShortHead := data.revShortHead
  tagMaster := data.tagMaster
  tagOriginMaster := data.tagOriginMaster
  originHead := data.originHead
  tagOriginHead := data.tagOriginHead
  upstreamBranch := data.upstreamBranch

/-- The responses `after_git_root` sends: one, unless the work failed. -/
def afterGitRoot (data : GitRootReqT) (status : ℤ) : List MagitResT :=
  if status ≠ 0 then []
  else if data.result < 0 then []
  else [afterGitRootRes data]

/-- `append_key_val_str` -/
def appendKeyValStr (packer : List WireItem) (key : MagitResKey) (val : Option Text) :
    List WireItem :=
  let packer := msgpackPackInt packer key.ctorIdx
  match val with
  | some val => msgpackPackStrBody (msgpackPackStr packer val.length) val
  | none => msgpackPackStr packer 0

/-- The value goes through the `int` parameter of `msgpack_pack_int`. -/
def appendKeyValInt (packer : List WireItem) (key : MagitResKey) (val : UInt64) : List WireItem :=
  let packer := msgpackPackInt packer key.ctorIdx
  msgpackPackInt packer (toCInt val)

/-- `msgpack_handler_buf_create` -/
def msgpackHandlerBufCreate (res : MagitResT) : List WireItem :=
  let packer := msgpackPackMap [] 28
  let packer := appendKeyValInt packer .id res.id
  let packer := appendKeyValStr packer .gitRoot res.gitRoot
  let packer := appendKeyValStr packer .revHead res.revHead
  let packer := appendKeyValStr packer .listZ res.listZ
  let packer := appendKeyValStr packer .branch res.branch
  let packer := appendKeyValStr packer .headLogLine res.headLogLine
  let packer := appendKeyValStr packer .upstreamBranch res.upstreamBranch
  let packer := appendKeyValStr packer .upstreamSubj res.upstreamSubj
  let packer := appendKeyValStr packer .tagDesc res.tagDesc
  let packer := appendKeyValStr packer .optTagDescHead res.optTagDescHead
  let packer := appendKeyValStr packer .version res.version
  let packer := appendKeyValStr packer .worktreePorcelain res.worktreePorcelain
  let packer := appendKeyValStr packer .dotGitDir res.dotGitDir
  let packer := appendKeyValStr packer .configStatusShowUntrackedFiles
    res.configStatusShowUntrackedFiles
  let packer := appendKeyValStr packer .status res.status
  let packer := appendKeyValStr packer .diff res.diff
  let packer := appendKeyValStr packer .staged res.staged
  let packer := appendKeyValInt packer .isBare res.isBare
  let packer := appendKeyValStr packer .stash res.stash
  let packer := appendKeyValStr packer .branches res.branches
  let packer := appendKeyValStr packer .revIdx res.revisionByIdx
  let packer := appendKeyValStr packer .logs res.logs
  let packer := appendKeyValStr packer .revShortHead res.revShortHead
  let packer := appendKeyValStr packer .tagMaster res.tagMaster
  let packer := appendKeyValStr packer .tagOriginMaster res.tagOriginMaster
  let packer := appendKeyValStr packer .originHead res.originHead
  let packer := appendKeyValStr packer .tagOriginHead res.tagOriginHead
  appendKeyValStr packer .upstreamBranchMaster res.upstreamBranchMaster

/-- `msgpack_handler_send`: the bytes written to standard output, for the bytes `msg` the packed
map takes. -/
def msgpackHandlerSend (msg : List UInt8) : List UInt8 :=
  let len := msg.length % 2 ^ 32
  [UInt8.ofNat ((len >>> 24) &&& 0xff), UInt8.ofNat ((len >>> 16) &&& 0xff),
    UInt8.ofNat ((len >>> 8) &&& 0xff), UInt8.ofNat (len &&& 0xff)] ++ msg

/-- **A response goes out as a frame**, unless its length needs more than four bytes. -/
theorem msgpackHandlerSend_eq_encode (msg : List UInt8) : msgpackHandlerSend msg = encode msg := by
  have hmask (n : ℕ) : n &&& 0xff = n % 2 ^ 8 := Nat.and_two_pow_sub_one_eq_mod n 8
  simp only [msgpackHandlerSend, encode, be32, hmask, Nat.shiftRight_eq_div_pow, List.cons_append,
    List.nil_append, List.cons.injEq, and_true, ← UInt8.toNat_inj, UInt8.toNat_ofNat']
  omega

/-! ## The packed map, entry by entry -/

/-- The content of a `kstring_t *`. -/
def content (val : Option Text) : Text := val.getD []

/-- A text is appended as one entry, an absent one as the empty text. -/
theorem appendKeyValStr_eq (packer : List WireItem) (key : MagitResKey) (val : Option Text) :
    appendKeyValStr packer key val
      = packer ++ entryItems [((key.ctorIdx : ℤ), .str (content val))] := by
  cases val <;> simp [appendKeyValStr, msgpackPackInt, msgpackPackStr, msgpackPackStrBody,
    entryItems, Scalar.items, content]

theorem appendKeyValInt_eq (packer : List WireItem) (key : MagitResKey) (val : UInt64) :
    appendKeyValInt packer key val
      = packer ++ entryItems [((key.ctorIdx : ℤ), .int (toCInt val))] := by
  simp [appendKeyValInt, msgpackPackInt, entryItems, Scalar.items]

/-- The entries of a response, in the order they are packed. -/
def resEntries (res : MagitResT) : List (MagitResKey × Scalar) :=
  [(.id, .int (toCInt res.id)),
    (.gitRoot, .str (content res.gitRoot)),
    (.revHead, .str (content res.revHead)),
    (.listZ, .str (content res.listZ)),
    (.branch, .str (content res.branch)),
    (.headLogLine, .str (content res.headLogLine)),
    (.upstreamBranch, .str (content res.upstreamBranch)),
    (.upstreamSubj, .str (content res.upstreamSubj)),
    (.tagDesc, .str (content res.tagDesc)),
    (.optTagDescHead, .str (content res.optTagDescHead)),
    (.version, .str (content res.version)),
    (.worktreePorcelain, .str (content res.worktreePorcelain)),
    (.dotGitDir, .str (content res.dotGitDir)),
    (.configStatusShowUntrackedFiles, .str (content res.configStatusShowUntrackedFiles)),
    (.status, .str (content res.status)),
    (.diff, .str (content res.diff)),
    (.staged, .str (content res.staged)),
    (.isBare, .int (toCInt res.isBare)),
    (.stash, .str (content res.stash)),
    (.branches, .str (content res.branches)),
    (.revIdx, .str (content res.revisionByIdx)),
    (.logs, .str (content res.logs)),
    (.revShortHead, .str (content res.revShortHead)),
    (.tagMaster, .str (content res.tagMaster)),
    (.tagOriginMaster, .str (content res.tagOriginMaster)),
    (.originHead, .str (content res.originHead)),
    (.tagOriginHead, .str (content res.tagOriginHead)),
    (.upstreamBranchMaster, .str (content res.upstreamBranchMaster))]

/-- **The packer writes a map header for 28 entries and those entries.** -/
theorem msgpackHandlerBufCreate_eq (res : MagitResT) :
    msgpackHandlerBufCreate res
      = .mapHeader 28 :: entryItems ((resEntries res).map fun e => ((e.1.ctorIdx : ℤ), e.2)) := by
  simp only [msgpackHandlerBufCreate, appendKeyValStr_eq, appendKeyValInt_eq, msgpackPackMap,
    resEntries, List.map_cons, List.map_nil, entryItems, List.flatMap_cons, List.flatMap_nil,
    List.append_assoc, List.append_nil, List.nil_append, List.cons_append]

/-- The keys of a response are pairwise distinct. -/
theorem nodup_keys_resEntries (res : MagitResT) : ((resEntries res).map Prod.fst).Nodup := by
  simp [resEntries]

/-- The message a response decodes to. -/
def resMsg (res : MagitResT) : List (MsgpackObject × MsgpackObject) :=
  (resEntries res).map fun e => (ofInt e.1.ctorIdx, e.2.object)

theorem length_resMsg (res : MagitResT) : (resMsg res).length = 28 := rfl

/-- **A response is read back as its entries.** -/
theorem unpack_msgpackHandlerBufCreate (res : MagitResT) :
    unpack (msgpackHandlerBufCreate res) = some (.map (resMsg res)) := by
  rw [msgpackHandlerBufCreate_eq]
  refine (unpack_entryItems ((resEntries res).map fun e => ((e.1.ctorIdx : ℤ), e.2))).trans ?_
  rw [List.map_map]
  rfl

theorem MagitResKey.ctorIdx_lt (key : MagitResKey) : key.ctorIdx < 29 := by
  cases key <;> decide

theorem MagitResKey.ctorIdx_injective : Function.Injective MagitResKey.ctorIdx :=
  Function.LeftInverse.injective MagitResKey.ofNat_ctorIdx

/-- A key's number names that key and no other. -/
theorem isNat_ofInt_ctorIdx (key key' : MagitResKey) :
    (ofInt key'.ctorIdx).isNat key.ctorIdx = (key == key') := by
  have hlt := key'.ctorIdx_lt
  have hnum : (UInt64.ofNat key'.ctorIdx).toNat = key'.ctorIdx := by
    rw [UInt64.toNat_ofNat']
    omega
  rw [ofInt, if_pos (Int.natCast_nonneg _), Int.toNat_natCast, MsgpackObject.isNat_positiveInteger,
    hnum, Bool.eq_iff_iff, beq_iff_eq, beq_iff_eq, MagitResKey.ctorIdx_injective.eq_iff, eq_comm]

/-- The value under a key, found by the key's number. -/
theorem assq_entries (key : MagitResKey) (entries : List (MagitResKey × Scalar)) :
    MsgpackObject.assq key.ctorIdx (entries.map fun e => (ofInt e.1.ctorIdx, e.2.object))
      = (entries.lookup key).map Scalar.object := by
  induction entries with
  | nil => rfl
  | cons e entries ih =>
    rw [List.map_cons, MsgpackObject.assq_cons, isNat_ofInt_ctorIdx, ih, List.lookup_cons]
    cases key == e.1 <;> rfl

end Magit.Server
