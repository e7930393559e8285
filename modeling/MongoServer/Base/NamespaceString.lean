/-!
The names of collections and views.
-/
namespace MongoServer

structure NamespaceString where
  db : String
  coll : String
  deriving DecidableEq

namespace NamespaceString

variable (nss : NamespaceString)

def ns : String := nss.db ++ "." ++ nss.coll

def isSystemDotIndexes : Bool := nss.coll = "system.indexes"

def isSystem : Bool := "system.".toList.isPrefixOf nss.coll.toList

def validCollectionName (coll : String) : Bool :=
  coll ≠ "" && coll.toList.head? ≠ some '.' && coll.toList.all fun c => c ≠ '\x00' && c ≠ '$'

end NamespaceString
end MongoServer
