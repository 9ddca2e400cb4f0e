import Magit.Msgpack.Object

/-!
# Client/Info — reading a field of a response

`magit-status.el` keeps one constant for each field of a response and reads a field with
`magit-info-get`.
-/

namespace Magit.Client

def magitInfoRootEnum : ℕ := 1
def magitInfoHeadEnum : ℕ := 2
def magitInfoMagitExtensionsEnum : ℕ := 3
def magitInfoListZEnum : ℕ := 4
def magitInfoBranchEnum : ℕ := 5
def magitInfoHeadLogLineEnum : ℕ := 6
def magitInfoUpstreamBranchEnum : ℕ := 7
def magitInfoUpstreamSubjEnum : ℕ := 8
def magitInfoTagDescEnum : ℕ := 9
def magitInfoOptTagDescHeadEnum : ℕ := 10
def magitInfoVersionEnum : ℕ := 11
def magitInfoWorktreePorcelainEnum : ℕ := 12
def magitInfoDotGitDirEnum : ℕ := 13
def magitInfoConfigStatusShowUntrackedFilesEnum : ℕ := 14
def magitInfoStatusEnum : ℕ := 15
def magitInfoDiffEnum : ℕ := 16
def magitInfoStagedEnum : ℕ := 17
def magitInfoIsBareEnum : ℕ := 18
def magitInfoStashEnum : ℕ := 19
def magitInfoBranchesEnum : ℕ := 20
def magitInfoRevByIdxEnum : ℕ := 21
def magitInfoLogsEnum : ℕ := 22
def magitInfoRevShortHeadEnum : ℕ := 23
def magitInfoTagMasterEnum : ℕ := 24
def magitInfoTagOriginMasterEnum : ℕ := 25
def magitInfoOriginHeadEnum : ℕ := 26
def magitInfoTagOriginHeadEnum : ℕ := 27
def magitInfoUpstreamBranchMasterEnum : ℕ := 28

/-- `(when info (alist-get key info))`. -/
def magitInfoGet (key : ℕ) (info : List (MsgpackObject × MsgpackObject)) : Option MsgpackObject :=
  if info.isEmpty then none else MsgpackObject.assq key info

theorem magitInfoGet_eq_assq (key : ℕ) (info : List (MsgpackObject × MsgpackObject)) :
    magitInfoGet key info = MsgpackObject.assq key info := by
  cases info <;> rfl

end Magit.Client
