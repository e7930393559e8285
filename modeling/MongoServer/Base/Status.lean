import Mathlib.Data.Int.Notation

/-!
What a call reports when it does not succeed.
-/
namespace MongoServer

structure Status where
  code : ℤ
  reason : String
  deriving DecidableEq

/-- A call that does not succeed: it reports a status, or an invariant does not hold. -/
inductive Failure where
  | status (status : Status)
  | invariant
  deriving DecidableEq

namespace ErrorCodes

def InternalError : ℤ := 1

def BadValue : ℤ := 2

def NoSuchKey : ℤ := 4

def GraphContainsCycle : ℤ := 5

def UnknownError : ℤ := 8

def FailedToParse : ℤ := 9

def UnsupportedFormat : ℤ := 12

def TypeMismatch : ℤ := 14

def IllegalOperation : ℤ := 20

def NamespaceNotFound : ℤ := 26

def RoleNotFound : ℤ := 31

def RolesNotRelated : ℤ := 32

def PrivilegeNotFound : ℤ := 33

def NoMatchingDocument : ℤ := 47

def NamespaceExists : ℤ := 48

def ExceededTimeLimit : ℤ := 50

def ShardKeyNotFound : ℤ := 61

def StaleShardVersion : ℤ := 63

def MultipleErrorsOccurred : ℤ := 65

def InvalidOptions : ℤ := 72

def InvalidNamespace : ℤ := 73

def NoMatchParseContext : ℤ := 81

def NoProgressMade : ℤ := 82

def IncompatibleShardingMetadata : ℤ := 105

def CommandNotSupported : ℤ := 115

def ConflictingOperationInProgress : ℤ := 117

def InvalidSyncSource : ℤ := 119

def OplogStartMissing : ℤ := 120

def StaleEpoch : ℤ := 150

def ViewDepthLimitExceeded : ℤ := 165

def OptionNotSupportedOnView : ℤ := 167

def ViewPipelineMaxSizeExceeded : ℤ := 195

def NotMaster : ℤ := 10107

def DuplicateKey : ℤ := 11000

def ShardKeyTooBig : ℤ := 13334

def CallbackCanceled : ℤ := 90

def ShutdownInProgress : ℤ := 91

def CommandOnShardedViewNotSupportedOnMongod : ℤ := 169

end ErrorCodes
end MongoServer
