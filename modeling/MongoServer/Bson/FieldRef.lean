import MongoServer.Bson.Value

/-!
Dotted paths, split into their parts.
-/
namespace MongoServer

/-- The parts of a path, which may be empty. -/
structure FieldRef where
  parts : List (List UInt8)
  deriving DecidableEq

namespace FieldRef

def dot : UInt8 := 0x2e

/-- An empty path has no part; any other has one more part than dots. -/
def parse (path : List UInt8) : FieldRef := if path.isEmpty then ⟨[]⟩ else ⟨path.splitOn dot⟩

variable (path : FieldRef)

def numParts : ℕ := path.parts.length

/-- From one part up to another. -/
def dottedSubstring (startPart endPart : ℕ) : List UInt8 :=
  [dot].intercalate ((path.parts.take endPart).drop startPart)

def dottedField : List UInt8 := path.dottedSubstring 0 path.numParts

theorem dottedField_parse (bytes : List UInt8) : (parse bytes).dottedField = bytes := by
  unfold parse
  split_ifs with h
  · simp only [List.isEmpty_iff] at h
    subst h
    rfl
  · simp only [dottedField, dottedSubstring, numParts, List.take_length, List.drop_zero]
    exact List.intercalate_splitOn dot

end FieldRef
end MongoServer
