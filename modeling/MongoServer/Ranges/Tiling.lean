import Mathlib.Order.Basic
import Mathlib.Data.List.Perm.Subperm
import Mathlib.Tactic

/-!
Half-open ranges of a linear order, given by two bounds of each element of a list. The list
tiles an interval if every point of the interval lies in exactly one range and no other point
in any, where the points are those of a set. Ranges may be replaced by others that hold each
point as often.
-/
namespace Ranges
open List

variable {α β L : Type*} [LinearOrder L] {lo hi : α → L} {points : Set L} {a b k : L}
  {l l' rest : List α} {c d : α}

/-- How many ranges hold a point. -/
def countAt (lo hi : α → L) (k : L) (l : List α) : ℕ := l.countP fun c => lo c ≤ k ∧ k < hi c

/-- Every point from `a` up to `b` lies in one range, and no other point in any. -/
def Tiles (lo hi : α → L) (points : Set L) (a b : L) (l : List α) : Prop :=
  ∀ k ∈ points, countAt lo hi k l = if a ≤ k ∧ k < b then 1 else 0

theorem countAt_append (k : L) (l l' : List α) :
    countAt lo hi k (l ++ l') = countAt lo hi k l + countAt lo hi k l' :=
  countP_append

theorem countAt_singleton (k : L) (c : α) :
    countAt lo hi k [c] = if lo c ≤ k ∧ k < hi c then 1 else 0 := by
  unfold countAt
  rw [countP_singleton]
  split_ifs <;> simp_all

theorem countAt_perm (h : l.Perm l') (k : L) : countAt lo hi k l = countAt lo hi k l' :=
  h.countP_eq _

theorem countAt_map {lo' hi' : β → L} {f : α → β}
    (hf : ∀ c ∈ l, lo' (f c) = lo c ∧ hi' (f c) = hi c) (k : L) :
    countAt lo' hi' k (l.map f) = countAt lo hi k l := by
  unfold countAt
  rw [countP_map]
  refine countP_congr fun c hc => ?_
  rw [Function.comp_apply, (hf c hc).1, (hf c hc).2]

/-- Ranges that follow each other without a gap. -/
inductive Consecutive (lo hi : α → L) : L → List α → L → Prop
  | nil (a : L) : Consecutive lo hi a [] a
  | cons {c : α} {l : List α} {b : L} (hle : lo c ≤ hi c) (h : Consecutive lo hi (hi c) l b) :
      Consecutive lo hi (lo c) (c :: l) b

theorem Consecutive.le (h : Consecutive lo hi a l b) : a ≤ b := by
  induction h with
  | nil => exact le_refl _
  | cons hle _ ih => exact hle.trans ih

theorem Consecutive.eq_lo (h : Consecutive lo hi a (c :: l) b) : a = lo c := by
  cases h
  rfl

theorem Consecutive.tail (h : Consecutive lo hi a (c :: l) b) :
    lo c ≤ hi c ∧ Consecutive lo hi (hi c) l b := by
  cases h with
  | cons hle h => exact ⟨hle, h⟩

theorem Consecutive.eq_of_nil (h : Consecutive lo hi a [] b) : a = b := by
  cases h
  rfl

section
variable (h : Consecutive lo hi a l b)
include h

theorem Consecutive.countAt (k : L) : countAt lo hi k l = if a ≤ k ∧ k < b then 1 else 0 := by
  induction h with
  | nil a =>
    have hnone : ¬(a ≤ k ∧ k < a) := fun h => absurd h.2 (not_lt.mpr h.1)
    rw [if_neg hnone]
    rfl
  | @cons c l b hle h ih =>
    have hspan := h.le
    have hsplit : Ranges.countAt lo hi k (c :: l) =
        Ranges.countAt lo hi k [c] + Ranges.countAt lo hi k l := countAt_append k [c] l
    rw [hsplit, countAt_singleton, ih]
    rcases lt_or_ge k (lo c) with hk | hk
    · rw [if_neg fun h => absurd h.1 (not_le.mpr hk),
        if_neg fun h => absurd (hle.trans h.1) (not_le.mpr hk),
        if_neg fun h => absurd h.1 (not_le.mpr hk)]
    · rcases lt_or_ge k (hi c) with hk' | hk'
      · rw [if_pos ⟨hk, hk'⟩, if_neg fun h => absurd h.1 (not_le.mpr hk'),
          if_pos ⟨hk, hk'.trans_le hspan⟩]
      · rw [if_neg fun h => absurd h.2 (not_lt.mpr hk'), Nat.zero_add]
        exact if_congr ⟨fun h => ⟨hk, h.2⟩, fun h => ⟨hk', h.2⟩⟩ rfl rfl

theorem Consecutive.bounds (hc : c ∈ l) : a ≤ lo c ∧ hi c ≤ b := by
  induction h with
  | nil => simp at hc
  | cons hle h ih =>
    rcases mem_cons.mp hc with rfl | hc
    · exact ⟨le_refl _, h.le⟩
    · exact ⟨hle.trans (ih hc).1, (ih hc).2⟩

theorem Consecutive.pairwise : l.Pairwise fun c d => hi c ≤ lo d := by
  induction h with
  | nil => exact List.Pairwise.nil
  | cons hle h ih => exact pairwise_cons.mpr ⟨fun d hd => (h.bounds hd).1, ih⟩

theorem Consecutive.nodup (hlt : ∀ c ∈ l, lo c < hi c) : (l.map lo).Nodup := by
  rw [nodup_iff_pairwise_ne, pairwise_map]
  exact h.pairwise.imp_of_mem fun hc _ hle => ((hlt _ hc).trans_le hle).ne

end

section Lookup
variable {x y : L}

theorem consecutive_of_isChain (h : (c :: l).IsChain fun c d => hi c = lo d)
    (hle : ∀ d ∈ c :: l, lo d ≤ hi d) :
    Consecutive lo hi (lo c) (c :: l) (hi ((c :: l).getLast (cons_ne_nil c l))) := by
  induction l generalizing c with
  | nil => exact .cons (hle c mem_cons_self) (.nil _)
  | cons d l ih =>
    obtain ⟨hc, hle⟩ := forall_mem_cons.mp hle
    obtain ⟨hcd, h⟩ := isChain_cons_cons.mp h
    exact .cons hc (hcd ▸ ih h hle)

section
variable (h : Consecutive lo hi a l b)
include h

theorem Consecutive.exists_hi (hl : l ≠ []) : ∃ c ∈ l, hi c = b := by
  induction h with
  | nil => exact absurd rfl hl
  | @cons c l b hle h ih =>
    by_cases hl : l = []
    · subst hl
      exact ⟨c, mem_cons_self, h.eq_of_nil⟩
    · obtain ⟨d, hd, hend⟩ := ih hl
      exact ⟨d, mem_cons_of_mem _ hd, hend⟩

/-- From the first range that ends after `x` through the first that ends after `y` are
those that meet the closed interval from `x` to `y`. -/
theorem Consecutive.mem_slice (hlt : ∀ c ∈ l, lo c < hi c) (hay : a ≤ y) (hxy : x ≤ y) (d : α) :
    d ∈ (l.take (l.findIdx (fun c => y < hi c) + 1)).drop (l.findIdx fun c => x < hi c) ↔
      d ∈ l ∧ x < hi d ∧ lo d ≤ y := by
  induction h with
  | nil => simp
  | @cons c l b hle h ih =>
    have hrest : ∀ e ∈ l, hi c ≤ lo e := fun e he => (h.bounds he).1
    have hltRest : ∀ e ∈ l, lo e < hi e := (forall_mem_cons.mp hlt).2
    by_cases hy : y < hi c
    · -- the interval ends in the first range
      have hx : x < hi c := hxy.trans_lt hy
      simp only [findIdx_cons, hx, hy, decide_true, cond_true, Nat.zero_add,
        take_succ_cons, take_zero, drop_zero, mem_cons, not_mem_nil, or_false]
      constructor
      · rintro rfl
        exact ⟨Or.inl rfl, hx, hay⟩
      · rintro ⟨rfl | hd, -, hle⟩
        · rfl
        · exact absurd ((hrest d hd).trans hle) (not_le.mpr hy)
    · have ih := ih hltRest (not_lt.mp hy)
      by_cases hx : x < hi c
      · -- it starts in the first range and goes on
        have hfirst : (l.findIdx fun e => x < hi e) = 0 := by
          cases l with
          | nil => rfl
          | cons e l =>
            have he : x < hi e := hx.trans_le ((hrest e mem_cons_self).trans
              (hltRest e mem_cons_self).le)
            simp [findIdx_cons, he]
        rw [hfirst, drop_zero] at ih
        simp only [findIdx_cons, hx, hy, decide_true, decide_false, cond_true, cond_false,
          take_succ_cons, drop_zero, mem_cons, ih]
        constructor
        · rintro (rfl | ⟨hd, hmeets⟩)
          · exact ⟨Or.inl rfl, hx, hay⟩
          · exact ⟨Or.inr hd, hmeets⟩
        · rintro ⟨rfl | hd, hmeets⟩
          · exact Or.inl rfl
          · exact Or.inr ⟨hd, hmeets⟩
      · simp only [findIdx_cons, hx, hy, decide_false, cond_false, take_succ_cons,
          drop_succ_cons, mem_cons, ih]
        constructor
        · rintro ⟨hd, hmeets⟩
          exact ⟨Or.inr hd, hmeets⟩
        · rintro ⟨rfl | hd, hmeets⟩
          · exact absurd hmeets.1 hx
          · exact ⟨hd, hmeets⟩

theorem Consecutive.isChain : l.IsChain fun c d => hi c = lo d := by
  induction h with
  | nil => exact .nil
  | @cons c l b hle h ih =>
    cases l with
    | nil => exact .singleton c
    | cons d l => exact .cons_cons h.eq_lo ih

theorem Consecutive.exists_find (hk : a ≤ k) (hb : k < b) :
    ∃ c ∈ l, l.find? (fun c => k < hi c) = some c ∧ lo c ≤ k ∧ k < hi c := by
  induction h with
  | nil => exact absurd hb (not_lt.mpr hk)
  | @cons c l b hle h ih =>
    by_cases hc : k < hi c
    · exact ⟨c, mem_cons_self, find?_cons_of_pos (decide_eq_true hc), hk, hc⟩
    · obtain ⟨d, hd, hfind, hin⟩ := ih (not_lt.mp hc) hb
      exact ⟨d, mem_cons_of_mem _ hd, by rw [find?_cons_of_neg (by simpa using hc), hfind], hin⟩

end

end Lookup

theorem Tiles.replace {old new : List α} (h : Tiles lo hi points a b l)
    (hl : l.Perm (old ++ rest)) (hl' : l'.Perm (new ++ rest))
    (hsame : ∀ k, countAt lo hi k new = countAt lo hi k old) : Tiles lo hi points a b l' := by
  intro k hk
  rw [countAt_perm hl', countAt_append, hsame, ← countAt_append, ← countAt_perm hl, h k hk]

theorem Tiles.eq_of_mem (h : Tiles lo hi points a b l) (hk : k ∈ points) (hc : c ∈ l)
    (hd : d ∈ l) (hck : lo c ≤ k ∧ k < hi c) (hdk : lo d ≤ k ∧ k < hi d) : c = d := by
  by_contra hne
  have hsub : [c, d].Subperm l :=
    subperm_of_subset (by simp [hne]) (by simp [hc, hd])
  have htwo : 2 ≤ countAt lo hi k l :=
    calc 2 = [c, d].countP fun c => lo c ≤ k ∧ k < hi c := by simp [hck, hdk]
      _ ≤ _ := hsub.countP_le _
  rw [h k hk] at htwo
  split_ifs at htwo <;> omega

theorem Consecutive.eq_of_mem (h : Consecutive lo hi a l b) (hc : c ∈ l) (hd : d ∈ l)
    (hck : lo c ≤ k ∧ k < hi c) (hdk : lo d ≤ k ∧ k < hi d) : c = d :=
  Tiles.eq_of_mem (fun k _ => h.countAt k) (Set.mem_univ k) hc hd hck hdk

end Ranges
