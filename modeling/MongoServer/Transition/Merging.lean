import Mathlib.Data.List.Basic
import Mathlib.Logic.Function.Basic
import Mathlib.Order.Defs.Unbundled

/-!
Streams that are merged by taking the first element of one of them at a time. What has been taken
from a stream is a beginning of it, and if it is always a least first element that is taken, then
ordered streams give an ordered result.
-/
namespace Transition
open List Function
variable {κ α : Type*} [DecidableEq κ]

/-- What comes from one stream, in its order. -/
def takenFrom (out : List (κ × α)) (k : κ) : List α :=
  (out.filter fun p => p.1 = k).map Prod.snd

/-- The elements of all the streams, each in its order. -/
def Interleaves (streams : κ → List α) (l : List α) : Prop :=
  ∃ out : List (κ × α), out.map Prod.snd = l ∧ ∀ k, takenFrom out k = streams k

/-- Each stream has been divided into what was taken and what remains. -/
def Merging (streams remaining : κ → List α) (out : List (κ × α)) : Prop :=
  ∀ k, takenFrom out k ++ remaining k = streams k

section Merging
variable {streams remaining : κ → List α} {out : List (κ × α)} {k : κ} {a : α} {rest : List α}

theorem takenFrom_append_self : takenFrom (out ++ [(k, a)]) k = takenFrom out k ++ [a] := by
  simp [takenFrom]

theorem takenFrom_append_of_ne {j : κ} (h : j ≠ k) :
    takenFrom (out ++ [(k, a)]) j = takenFrom out j := by
  simp [takenFrom, h.symm]

theorem Merging.start (streams : κ → List α) : Merging streams streams [] := fun _ => rfl

theorem Merging.take (h : Merging streams remaining out) (hk : remaining k = a :: rest) :
    Merging streams (update remaining k rest) (out ++ [(k, a)]) := by
  intro j
  by_cases hj : j = k
  · subst hj
    rw [update_self, takenFrom_append_self, append_assoc, singleton_append, ← hk]
    exact h j
  · rw [update_of_ne hj, takenFrom_append_of_ne hj]
    exact h j

theorem Merging.interleaves (h : Merging streams remaining out) (hdone : ∀ k, remaining k = []) :
    Interleaves streams (out.map Prod.snd) := by
  refine ⟨out, rfl, fun k => ?_⟩
  have hk := h k
  rwa [hdone, append_nil] at hk

end Merging

/-- What was taken is ordered and precedes what remains, which is ordered in each stream. -/
structure OrderedMerging (r : α → α → Prop) (remaining : κ → List α) (out : List (κ × α)) :
    Prop where
  sorted : (out.map Prod.snd).Pairwise r
  before : ∀ p ∈ out, ∀ k, ∀ a ∈ remaining k, r p.2 a
  streams : ∀ k, (remaining k).Pairwise r

omit [DecidableEq κ] in
theorem exists_least {r : κ → κ → Prop} (htotal : ∀ a b, r a b ∨ r b a)
    (htrans : ∀ a b c, r a b → r b c → r a c) {l : List κ} (hne : l ≠ []) :
    ∃ a ∈ l, ∀ b ∈ l, r a b := by
  induction l with
  | nil => exact absurd rfl hne
  | cons first rest ih =>
    have hself : r first first := (htotal first first).elim id id
    by_cases hrest : rest = []
    · subst hrest
      exact ⟨first, mem_cons_self, by simpa using hself⟩
    · obtain ⟨a, ha, hleast⟩ := ih hrest
      rcases htotal first a with hfirst | hfirst
      · refine ⟨first, mem_cons_self, forall_mem_cons.mpr ⟨hself, ?_⟩⟩
        exact fun b hb => htrans _ _ _ hfirst (hleast b hb)
      · exact ⟨a, mem_cons_of_mem _ ha, forall_mem_cons.mpr ⟨hfirst, hleast⟩⟩

section OrderedMerging
variable {r : α → α → Prop} {remaining : κ → List α} {out : List (κ × α)} {k : κ} {a : α}
  {rest : List α}

omit [DecidableEq κ] in
theorem OrderedMerging.start (h : ∀ k, (remaining k).Pairwise r) :
    OrderedMerging r remaining [] := ⟨List.Pairwise.nil, by simp, h⟩

/-- A first element that precedes the first elements of the other streams precedes all. -/
theorem OrderedMerging.least [IsTrans α r] (h : OrderedMerging r remaining out)
    (hk : remaining k = a :: rest)
    (hleast : ∀ j, j ≠ k → ∀ b tail, remaining j = b :: tail → r a b) :
    ∀ j, ∀ b ∈ update remaining k rest j, r a b := by
  intro j b hb
  by_cases hj : j = k
  · subst hj
    rw [update_self] at hb
    have hstream := h.streams j
    rw [hk] at hstream
    exact rel_of_pairwise_cons hstream hb
  · rw [update_of_ne hj] at hb
    have hstream := h.streams j
    cases hremaining : remaining j with
    | nil => simp [hremaining] at hb
    | cons first tail =>
      have hfirst := hleast j hj first tail hremaining
      rw [hremaining] at hb hstream
      rcases mem_cons.mp hb with rfl | hb
      · exact hfirst
      · exact IsTrans.trans _ _ _ hfirst (rel_of_pairwise_cons hstream hb)

theorem OrderedMerging.take [IsTrans α r] (h : OrderedMerging r remaining out)
    (hk : remaining k = a :: rest)
    (hleast : ∀ j, j ≠ k → ∀ b tail, remaining j = b :: tail → r a b) :
    OrderedMerging r (update remaining k rest) (out ++ [(k, a)]) := by
  have hsub : ∀ j, ∀ b ∈ update remaining k rest j, b ∈ remaining j := by
    intro j b hb
    by_cases hj : j = k
    · subst hj
      rw [update_self] at hb
      rw [hk]
      exact mem_cons_of_mem a hb
    · rwa [update_of_ne hj] at hb
  constructor
  · rw [map_append, pairwise_append]
    refine ⟨h.sorted, pairwise_singleton r a, ?_⟩
    intro b hb c hc
    obtain ⟨p, hp, rfl⟩ := mem_map.mp hb
    obtain rfl : c = a := by simpa using hc
    exact h.before p hp k c (by simp [hk])
  · exact forall_mem_append.mpr ⟨fun p hp j b hb => h.before p hp j b (hsub j b hb),
      forall_mem_singleton.mpr (h.least hk hleast)⟩
  · intro j
    by_cases hj : j = k
    · subst hj
      rw [update_self]
      have hstream := h.streams j
      rw [hk] at hstream
      exact hstream.of_cons
    · rw [update_of_ne hj]
      exact h.streams j

end OrderedMerging
end Transition
