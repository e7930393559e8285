import MongoServer.Bson.Value

/-!
Versions of a collection's chunks: a major and a minor number in one 64-bit word, scoped to
an epoch.
-/
namespace MongoServer

structure ChunkVersion where
  combined : UInt64
  epoch : OID
  deriving DecidableEq

namespace ChunkVersion

theorem ext {v w : ChunkVersion} (hcombined : v.combined = w.combined)
    (hepoch : v.epoch = w.epoch) : v = w := by
  cases v
  cases w
  simp only at hcombined hepoch
  rw [hcombined, hepoch]

variable (v : ChunkVersion)

def toLong : UInt64 := v.combined

def majorVersion : UInt32 := (v.combined >>> 32).toUInt32

def minorVersion : UInt32 := (v.combined &&& 0xFFFFFFFF).toUInt32

def ofParts (major minor : UInt32) (epoch : OID) : ChunkVersion :=
  ⟨minor.toUInt64 ||| (major.toUInt64 <<< 32), epoch⟩

/-- No check at all; its epoch has zero time and the largest rest. -/
def IGNORED : ChunkVersion := ⟨0, ⟨List.replicate 4 0 ++ List.replicate 8 255, rfl⟩⟩

theorem minorVersion_eq : v.minorVersion = v.combined.toUInt32 := by
  unfold minorVersion
  apply UInt32.toNat_inj.mp
  simp only [UInt64.toNat_toUInt32, UInt64.toNat_and]
  have hmask : (0xFFFFFFFF : UInt64).toNat = 2 ^ 32 - 1 := rfl
  rw [hmask, Nat.and_two_pow_sub_one_eq_mod, Nat.mod_mod]

theorem toNat_combined :
    v.combined.toNat = v.majorVersion.toNat * 2 ^ 32 + v.minorVersion.toNat := by
  have hlt := v.combined.toNat_lt
  have hmajor : v.majorVersion.toNat = v.combined.toNat / 2 ^ 32 := by
    unfold majorVersion
    rw [UInt64.toNat_toUInt32, UInt64.toNat_shiftRight]
    have hshift : (32 : UInt64).toNat % 64 = 32 := rfl
    rw [hshift, Nat.shiftRight_eq_div_pow]
    exact Nat.mod_eq_of_lt (by omega)
  rw [hmajor, minorVersion_eq, UInt64.toNat_toUInt32]
  omega

theorem combined_eq_iff {v w : ChunkVersion} :
    v.combined = w.combined ↔ v.majorVersion = w.majorVersion ∧ v.minorVersion = w.minorVersion := by
  constructor
  · intro h
    unfold majorVersion minorVersion
    rw [h]
    exact ⟨rfl, rfl⟩
  · rintro ⟨hmajor, hminor⟩
    apply UInt64.toNat_inj.mp
    rw [toNat_combined, toNat_combined, hmajor, hminor]

end ChunkVersion
end MongoServer
