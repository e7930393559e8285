import Mathlib.Data.List.Sort
import Mathlib.Tactic

/-!
Order statistics of a list whose elements are compared by a relation that need be
transitive only on them.
-/
namespace Quorum
open List

variable {α : Type*} {r : α → α → Prop} [DecidableRel r]

theorem pairwise_insertionSort_on {P : α → Prop} (htotal : ∀ a b, r a b ∨ r b a)
    (htrans : ∀ a b c, P a → P b → P c → r a b → r b c → r a c) {l : List α}
    (hl : ∀ a ∈ l, P a) : (l.insertionSort r).Pairwise r := by
  let r' : {a // P a} → {a // P a} → Prop := fun a b => r a b
  have : Std.Total r' := ⟨fun a b => htotal a b⟩
  have : IsTrans {a // P a} r' :=
    ⟨fun a b c => htrans a b c a.2 b.2 c.2⟩
  have hmap : ((l.attachWith P hl).insertionSort r').map Subtype.val = l.insertionSort r := by
    rw [map_insertionSort r' r Subtype.val _ fun _ _ _ _ => Iff.rfl, attachWith_map_subtype_val]
  rw [← hmap, pairwise_map]
  exact pairwise_insertionSort r' _

theorem le_countP_of_pairwise {l : List α} (hl : l.Pairwise r) (hrefl : ∀ a, r a a) {k : ℕ}
    (hk : k ≤ l.length) {t : α} (ht : l[l.length - k]? = some t) :
    k ≤ l.countP fun x => decide (r t x) := by
  obtain ⟨hlt, hget⟩ := List.getElem?_eq_some_iff.mp ht
  have hdrop := drop_eq_getElem_cons hlt
  rw [hget] at hdrop
  have hpairs : (t :: l.drop (l.length - k + 1)).Pairwise r := hdrop ▸ hl.drop
  have hall : ∀ x ∈ l.drop (l.length - k), decide (r t x) = true := by
    intro x hx
    rw [hdrop] at hx
    rcases mem_cons.mp hx with rfl | hx
    · exact decide_eq_true (hrefl x)
    · exact decide_eq_true (rel_of_pairwise_cons hpairs hx)
  calc k = (l.drop (l.length - k)).length := by rw [length_drop]; omega
    _ = (l.drop (l.length - k)).countP fun x => decide (r t x) :=
      (countP_eq_length.mpr hall).symm
    _ ≤ l.countP fun x => decide (r t x) := (drop_sublist _ _).countP_le

end Quorum
