import Mathlib.Data.Finset.Card
import Mathlib.Data.List.Basic
import Mathlib.Order.Basic
import Mathlib.Tactic

/-!
Half-open ranges of a linear order, kept in a list by where they start. The ranges that meet a
given one are a slice of the list, and a point lies in the last range that starts at or before it
or in none. Ranges that follow each other without a gap may be joined. What no range holds falls
into holes, and a function that finds the next hole enumerates all of them.
-/
namespace Ranges
open List

section Slices
variable {α : Type*} {p : α → Bool} {l : List α}

/-- What satisfies a predicate is followed by what satisfies it. -/
def Upward (p : α → Bool) (l : List α) : Prop := l.Pairwise fun a b => p a = true → p b = true

theorem Upward.drop_findIdx (h : Upward p l) : l.drop (l.findIdx p) = l.filter p := by
  induction l with
  | nil => rfl
  | cons a l ih =>
    obtain ⟨ha, hl⟩ := pairwise_cons.mp h
    cases hp : p a with
    | true =>
      have hall : ∀ b ∈ a :: l, p b = true := forall_mem_cons.mpr ⟨hp, fun b hb => ha b hb hp⟩
      rw [filter_eq_self.mpr hall, findIdx_cons, hp]
      rfl
    | false =>
      rw [filter_cons_of_neg (by simp [hp]), findIdx_cons, hp]
      exact ih hl

theorem Upward.take_findIdx (h : Upward p l) : l.take (l.findIdx p) = l.filter fun a => !p a := by
  induction l with
  | nil => rfl
  | cons a l ih =>
    obtain ⟨ha, hl⟩ := pairwise_cons.mp h
    cases hp : p a with
    | true =>
      have hnone : ∀ b ∈ a :: l, ¬(!p b) = true := by
        simpa [hp] using fun b hb => ha b hb hp
      rw [filter_eq_nil_iff.mpr hnone, findIdx_cons, hp]
      rfl
    | false =>
      rw [filter_cons_of_pos (by simp [hp]), findIdx_cons, hp]
      exact congrArg (a :: ·) (ih hl)

theorem Upward.getElem?_findIdx (h : Upward p l) : l[l.findIdx p]? = (l.filter p).head? := by
  rw [← h.drop_findIdx, head?_drop]

theorem Upward.getElem?_before (h : Upward p l) :
    (if l.findIdx p = 0 then none else l[l.findIdx p - 1]?) =
      (l.filter fun a => !p a).getLast? := by
  rw [← h.take_findIdx, getLast?_take]
  split_ifs with hzero
  · rfl
  · have hlt : l.findIdx p - 1 < l.length := by
      have hle : l.findIdx p ≤ l.length := findIdx_le_length
      omega
    rw [getElem?_eq_getElem hlt]
    rfl

theorem countP_lt_countP {q : α → Bool} {a : α} (h : ∀ b ∈ l, p b = true → q b = true)
    (ha : a ∈ l) (hp : p a = false) (hq : q a = true) : l.countP p < l.countP q := by
  have hsame : (l.filter q).countP p = l.countP p := by
    rw [countP_filter]
    exact countP_congr fun b hb => by simpa using h b hb
  rw [← hsame, countP_eq_length_filter (p := q), countP_lt_length_iff]
  exact ⟨a, mem_filter.mpr ⟨ha, hq⟩, hp⟩

end Slices

section Sorted
variable {α L : Type*} [LinearOrder L] {lo hi : α → L} {l : List α} {a b k : L} {c : α}

/-- The ranges are not empty, and each ends before the later ones start. -/
structure Apart (lo hi : α → L) (l : List α) : Prop where
  nonempty : ∀ c ∈ l, lo c < hi c
  ordered : l.Pairwise fun c d => hi c ≤ lo d

theorem Apart.filter (h : Apart lo hi l) (p : α → Bool) : Apart lo hi (l.filter p) :=
  ⟨fun c hc => h.nonempty c (mem_filter.mp hc).1, h.ordered.filter p⟩

theorem Apart.tail (h : Apart lo hi (c :: l)) : Apart lo hi l :=
  ⟨fun d hd => h.nonempty d (mem_cons_of_mem _ hd), (pairwise_cons.mp h.ordered).2⟩

section
variable (h : Apart lo hi l)
include h

theorem Apart.lo_lt : l.Pairwise fun c d => lo c < lo d :=
  h.ordered.imp_of_mem fun hc _ hle => (h.nonempty _ hc).trans_le hle

theorem Apart.upward_lo_le (a : L) : Upward (fun c => a ≤ lo c) l :=
  h.lo_lt.imp fun hlt hc => decide_eq_true ((of_decide_eq_true hc).trans hlt.le)

theorem Apart.upward_lt_lo (a : L) : Upward (fun c => a < lo c) l :=
  h.lo_lt.imp fun hlt hc => decide_eq_true ((of_decide_eq_true hc).trans hlt)

theorem Apart.upward_lt_hi (a : L) : Upward (fun c => a < hi c) l :=
  h.ordered.imp_of_mem fun _ hd hle hc =>
    decide_eq_true (((of_decide_eq_true hc).trans_le hle).trans (h.nonempty _ hd))

theorem Apart.of_ne {d : α} (hc : c ∈ l) (hd : d ∈ l) (hne : c ≠ d) :
    hi c ≤ lo d ∨ hi d ≤ lo c := by
  have hsymm : Std.Symm fun x y => hi x ≤ lo y ∨ hi y ≤ lo x := ⟨fun _ _ => Or.symm⟩
  exact (h.ordered.imp (S := fun x y => hi x ≤ lo y ∨ hi y ≤ lo x) Or.inl).forall hc hd hne

theorem Apart.slice_eq_filter (hab : a < b) :
    (l.take (l.findIdx fun c => b ≤ lo c)).drop (l.findIdx fun c => a < hi c) =
      l.filter fun c => lo c < b && a < hi c := by
  induction l with
  | nil => rfl
  | cons c l ih =>
    by_cases hc : a < hi c
    · -- every range from here on ends after the start of the given one
      have hup := h.upward_lt_hi a
      have hall : ∀ d ∈ c :: l, a < hi d := forall_mem_cons.mpr ⟨hc, fun d hd =>
        of_decide_eq_true (rel_of_pairwise_cons hup hd (decide_eq_true hc))⟩
      have hzero : (c :: l).findIdx (fun d => a < hi d) = 0 := by simp [findIdx_cons, hc]
      rw [hzero, drop_zero, (h.upward_lo_le b).take_findIdx]
      refine filter_congr fun d hd => ?_
      simp [hall d hd, ← not_le]
    · have hlo : lo c < b :=
        (h.nonempty c mem_cons_self).trans_le ((not_lt.mp hc).trans hab.le)
      simp only [findIdx_cons, hc, hlo.not_ge, decide_false, cond_false, take_succ_cons,
        drop_succ_cons, Bool.and_false, Bool.false_eq_true, not_false_eq_true,
        filter_cons_of_neg]
      exact ih h.tail

end

def Held (lo hi : α → L) (l : List α) (k : L) : Prop := ∃ c ∈ l, lo c ≤ k ∧ k < hi c

theorem held_append (l l' : List α) (k : L) :
    Held lo hi (l ++ l') k ↔ Held lo hi l k ∨ Held lo hi l' k := by
  simp [Held, or_and_right, exists_or]

theorem last_eq_none (hlast : (l.filter fun c => !(k < lo c : Bool)).getLast? = none) :
    ∀ c ∈ l, k < lo c := by
  have hnil := filter_eq_nil_iff.mp (getLast?_eq_none_iff.mp hlast)
  simpa using hnil

theorem first_eq_none (hfirst : (l.filter fun c => (k < lo c : Bool)).head? = none) :
    ∀ c ∈ l, lo c ≤ k := by
  have hnil := filter_eq_nil_iff.mp (head?_eq_none_iff.mp hfirst)
  simpa using hnil

section
variable (h : Apart lo hi l)
include h

/-- The first range that ends after a point is the one before the first that starts at or after
it, if that one ends after it. -/
theorem Apart.findIdx_lt_hi (a : L) : l.findIdx (fun c => a < hi c) =
      if (if l.findIdx (fun c => a ≤ lo c) = 0 then none
        else l[l.findIdx (fun c => a ≤ lo c) - 1]?).any (fun c => a < hi c) = true
      then l.findIdx (fun c => a ≤ lo c) - 1 else l.findIdx fun c => a ≤ lo c := by
  induction l with
  | nil => rfl
  | cons c l ih =>
    by_cases hlo : a ≤ lo c
    · have hhi : a < hi c := hlo.trans_lt (h.nonempty c mem_cons_self)
      simp [findIdx_cons, hlo, hhi]
    · have hidx : (c :: l).findIdx (fun d => a ≤ lo d) = l.findIdx (fun d => a ≤ lo d) + 1 := by
        simp [findIdx_cons, hlo]
      rw [hidx, if_neg (Nat.succ_ne_zero _), Nat.add_sub_cancel]
      by_cases hhi : a < hi c
      · have hzero : l.findIdx (fun d => a ≤ lo d) = 0 := by
          cases l with
          | nil => rfl
          | cons d l =>
            have hd : a ≤ lo d :=
              hhi.le.trans (rel_of_pairwise_cons h.ordered mem_cons_self)
            simp [findIdx_cons, hd]
        simp [hzero, findIdx_cons, hhi]
      · have hidx' : (c :: l).findIdx (fun d => a < hi d) = l.findIdx (fun d => a < hi d) + 1 := by
          simp [findIdx_cons, hhi]
        rw [hidx', ih h.tail]
        cases hm : l.findIdx (fun d => a ≤ lo d) with
        | zero => simp [hhi]
        | succ m =>
          rw [if_neg (Nat.succ_ne_zero _), Nat.add_sub_cancel, getElem?_cons_succ]
          split_ifs
          · rfl
          · rfl

theorem Apart.findIdx_hi_le_lo (hab : a < b) :
    l.findIdx (fun c => a < hi c) ≤ l.findIdx fun c => b ≤ lo c := by
  rw [← not_lt]
  intro hlt
  have hlen : l.findIdx (fun c => b ≤ lo c) < l.length := hlt.trans_le findIdx_le_length
  have hlo : b ≤ lo l[l.findIdx fun c => b ≤ lo c] := by
    simpa using findIdx_getElem (w := hlen)
  have hnot := of_decide_eq_false (not_of_lt_findIdx hlt)
  exact hnot (hab.trans (hlo.trans_lt (h.nonempty _ (getElem_mem hlen))))

theorem Apart.last_spec (hlast : (l.filter fun c => !(k < lo c : Bool)).getLast? = some c) :
    c ∈ l ∧ lo c ≤ k ∧ ∀ d ∈ l, lo d ≤ k → hi d ≤ hi c := by
  obtain ⟨ys, hys⟩ := getLast?_eq_some_iff.mp hlast
  have hmem : ∀ d, d ∈ ys ++ [c] ↔ d ∈ l ∧ lo d ≤ k := by
    intro d
    rw [← hys, mem_filter]
    simp
  obtain ⟨hc, hck⟩ := (hmem c).mp (by simp)
  refine ⟨hc, hck, fun d hd hdk => ?_⟩
  have hordered : (ys ++ [c]).Pairwise fun c d => hi c ≤ lo d := hys ▸ h.ordered.filter _
  rcases mem_append.mp ((hmem d).mpr ⟨hd, hdk⟩) with hd | hd
  · have hle := (pairwise_append.mp hordered).2.2 d hd c (mem_singleton_self c)
    exact hle.trans (h.nonempty c hc).le
  · rw [mem_singleton.mp hd]

theorem Apart.first_spec (hfirst : (l.filter fun c => (k < lo c : Bool)).head? = some c) :
    c ∈ l ∧ k < lo c ∧ ∀ d ∈ l, k < lo d → lo c ≤ lo d := by
  obtain ⟨ys, hys⟩ := head?_eq_some_iff.mp hfirst
  have hmem : ∀ d, d ∈ c :: ys ↔ d ∈ l ∧ k < lo d := by
    intro d
    rw [← hys, mem_filter, decide_eq_true_iff]
  obtain ⟨hc, hck⟩ := (hmem c).mp mem_cons_self
  refine ⟨hc, hck, fun d hd hdk => ?_⟩
  have hordered : (c :: ys).Pairwise fun c d => lo c < lo d := hys ▸ h.lo_lt.filter _
  rcases mem_cons.mp ((hmem d).mpr ⟨hd, hdk⟩) with rfl | hd
  · exact le_refl _
  · exact (rel_of_pairwise_cons hordered hd).le

theorem Apart.held_iff_last : Held lo hi l k ↔
      ((l.filter fun c => !(k < lo c : Bool)).getLast?.any fun c => k < hi c) = true := by
  cases hlast : (l.filter fun c => !(k < lo c : Bool)).getLast? with
  | none =>
    have hafter := last_eq_none hlast
    refine iff_of_false ?_ (by simp)
    rintro ⟨c, hc, hle, -⟩
    exact absurd (hafter c hc) (not_lt.mpr hle)
  | some c =>
    obtain ⟨hc, hle, hends⟩ := h.last_spec hlast
    rw [Option.any_some, decide_eq_true_iff]
    constructor
    · rintro ⟨d, hd, hdle, hlt⟩
      exact hlt.trans_le (hends d hd hdle)
    · intro hlt
      exact ⟨c, hc, hle, hlt⟩

end

end Sorted

section Holes
variable {α K R L : Type*} [LinearOrder L] {lo hi : α → L} {points : Set L} {held : L → Prop}
  {bot top x y x' y' k : L} {l : List α}

/-- A largest range from `bot` to `top` of which nothing is held. -/
structure IsHole (points : Set L) (held : L → Prop) (bot top x y : L) : Prop where
  bot_le : bot ≤ x
  lt : x < y
  le_top : y ≤ top
  free : ∀ k ∈ points, x ≤ k → k < y → ¬held k
  largest : ∀ x' ∈ points, ∀ y' ∈ points, bot ≤ x' → y' ≤ top → x' ≤ x → y ≤ y' →
    (∀ k ∈ points, x' ≤ k → k < y' → ¬held k) → x' = x ∧ y' = y

theorem IsHole.eq_or_apart (h : IsHole points held bot top x y)
    (h' : IsHole points held bot top x' y') (hx : x ∈ points) (hy : y ∈ points)
    (hx' : x' ∈ points) (hy' : y' ∈ points) : (x = x' ∧ y = y') ∨ y ≤ x' ∨ y' ≤ x := by
  by_cases hapart : y ≤ x' ∨ y' ≤ x
  · exact .inr hapart
  push Not at hapart
  obtain ⟨hlt, hlt'⟩ := hapart
  -- two holes that meet make up one free range
  have hfree : ∀ k ∈ points, min x x' ≤ k → k < max y y' → ¬held k := by
    intro k hk hmin hmax
    rcases le_or_gt x k with hxk | hxk
    · rcases lt_or_ge k y with hky | hky
      · exact h.free k hk hxk hky
      · have hky' : k < y' := (lt_max_iff.mp hmax).resolve_left (not_lt.mpr hky)
        exact h'.free k hk (hlt.le.trans hky) hky'
    · have hx'k : x' ≤ k := (min_le_iff.mp hmin).resolve_left (not_le.mpr hxk)
      exact h'.free k hk hx'k (hxk.trans hlt')
  have hmin : min x x' ∈ points := by
    rcases min_choice x x' with heq | heq
    · rwa [heq]
    · rwa [heq]
  have hmax : max y y' ∈ points := by
    rcases max_choice y y' with heq | heq
    · rwa [heq]
    · rwa [heq]
  have hbot := le_min h.bot_le h'.bot_le
  have htop := max_le h.le_top h'.le_top
  obtain ⟨hmin₁, hmax₁⟩ := h.largest _ hmin _ hmax hbot htop (min_le_left _ _) (le_max_left _ _)
    hfree
  obtain ⟨hmin₂, hmax₂⟩ := h'.largest _ hmin _ hmax hbot htop (min_le_right _ _) (le_max_right _ _)
    hfree
  exact .inl ⟨hmin₁.symm.trans hmin₂, hmax₁.symm.trans hmax₂⟩

/-- The closest ends of ranges around a point that none of them holds are those of a hole. -/
theorem isHole_of_closest (hnonempty : ∀ c ∈ l, lo c < hi c)
    (hpoints : ∀ c ∈ l, lo c ∈ points ∧ hi c ∈ points) (hk : ¬Held lo hi l k) (hx : bot ≤ x ∧ x ≤ k)
    (hxle : ∀ c ∈ l, hi c ≤ k → hi c ≤ x) (hxend : x = bot ∨ ∃ c ∈ l, hi c = x)
    (hy : k < y ∧ y ≤ top) (hyle : ∀ c ∈ l, k < lo c → y ≤ lo c)
    (hyend : y = top ∨ ∃ c ∈ l, lo c = y) : IsHole points (Held lo hi l) bot top x y where
  bot_le := hx.1
  lt := hx.2.trans_lt hy.1
  le_top := hy.2
  free := by
    rintro j - hxj hjy ⟨c, hc, hlo, hhi⟩
    rcases le_or_gt (lo c) k with hck | hck
    · have hend : hi c ≤ k := not_lt.mp fun hlt => hk ⟨c, hc, hck, hlt⟩
      exact absurd (hhi.trans_le (hxle c hc hend)) (not_lt.mpr hxj)
    · exact absurd (hjy.trans_le (hyle c hc hck)) (not_lt.mpr hlo)
  largest := by
    intro x' hx'p y' hy'p hbot htop hx'x hyy' hfree
    constructor
    · by_contra hne
      have hlt : x' < x := lt_of_le_of_ne hx'x hne
      obtain rfl | ⟨c, hc, rfl⟩ := hxend
      · exact absurd hlt (not_lt.mpr hbot)
      · -- the range that ends at the hole holds a point of the larger one
        have hp : max x' (lo c) ∈ points := by
          rcases max_choice x' (lo c) with heq | heq
          · rwa [heq]
          · rw [heq]
            exact (hpoints c hc).1
        have hpc : max x' (lo c) < hi c := max_lt hlt (hnonempty c hc)
        have hpy : max x' (lo c) < y' := (hpc.trans_le hx.2).trans (hy.1.trans_le hyy')
        exact hfree _ hp (le_max_left _ _) hpy ⟨c, hc, le_max_right _ _, hpc⟩
    · by_contra hne
      have hlt : y < y' := lt_of_le_of_ne hyy' (Ne.symm hne)
      obtain rfl | ⟨c, hc, rfl⟩ := hyend
      · exact absurd hlt (not_lt.mpr htop)
      · have hle : x' ≤ lo c := hx'x.trans (hx.2.trans hy.1.le)
        exact hfree _ (hpoints c hc).1 hle hlt ⟨c, hc, le_refl _, hnonempty c hc⟩

theorem IsHole.lt_of_held {c : α} (h : IsHole points (Held lo hi l) bot top x y) (hx : x ∈ points)
    (hk : k ∈ points) (hc : c ∈ l) (hck : lo c ≤ k ∧ k < hi c) (hky : k < y) : hi c < y := by
  by_contra hle
  rcases le_or_gt x k with hxk | hxk
  · exact h.free k hk hxk hky ⟨c, hc, hck⟩
  · exact h.free x hx le_rfl h.lt ⟨c, hc, hck.1.trans hxk.le, h.lt.trans_le (not_lt.mp hle)⟩

/-- What a function that looks for the next hole has to return. -/
def IsNextHole (points : Set L) (held : L → Prop) (bot top k : L) (lo hi : R → L) : Option R → Prop
  | none => ∀ x ∈ points, ∀ y ∈ points, IsHole points held bot top x y → y ≤ k
  | some r => lo r ∈ points ∧ hi r ∈ points ∧ IsHole points held bot top (lo r) (hi r) ∧
      k < hi r ∧ ∀ x ∈ points, ∀ y ∈ points, IsHole points held bot top x y → k < y → hi r ≤ y

/-- Goes on from where the last hole ended, for at most as many calls as given. -/
def enumerate (next : K → Option R) (after : R → K) : ℕ → K → Option (List R)
  | 0, _ => none
  | n + 1, k =>
      match next k with
      | none => some []
      | some r => (enumerate next after n (after r)).map (r :: ·)

theorem IsNextHole.congr {lo' hi' : R → L} {o : Option R} {k' : L}
    (h : IsNextHole points held bot top k' lo' hi' o)
    (hk : ∀ x ∈ points, ∀ y ∈ points, IsHole points held bot top x y → (k < y ↔ k' < y))
    (hle : k ≤ k') : IsNextHole points held bot top k lo' hi' o := by
  cases o with
  | none =>
    intro x hx y hy hole
    have := h x hx y hy hole
    exact not_lt.mp fun hlt => absurd ((hk x hx y hy hole).mp hlt) (not_lt.mpr this)
  | some r =>
    obtain ⟨hlo, hhi, hole, hlt, hleast⟩ := h
    exact ⟨hlo, hhi, hole, hle.trans_lt hlt, fun x hx y hy hole' hky =>
      hleast x hx y hy hole' ((hk x hx y hy hole').mp hky)⟩

/-- With more calls than there are ends of holes left, all holes from a point on are returned,
in order. -/
theorem enumerate_holes {next : K → Option R} {after : R → K} {rank : K → L} {lo hi : R → L}
    (hafter : ∀ r, hi r = rank (after r))
    (hnext : ∀ k, bot ≤ rank k → IsNextHole points held bot top (rank k) lo hi (next k))
    (ends : Finset L) (hends : ∀ k, bot ≤ rank k → ∀ r, next k = some r → hi r ∈ ends)
    (n : ℕ) (k : K) (hbot : bot ≤ rank k) (hn : (ends.filter fun y => rank k < y).card < n) :
    ∃ rs, enumerate next after n k = some rs ∧
      (∀ x ∈ points, ∀ y ∈ points, (∃ r ∈ rs, lo r = x ∧ hi r = y) ↔
        IsHole points held bot top x y ∧ rank k < y) ∧
      rs.Pairwise (fun r s => hi r ≤ lo s) ∧ ∀ r ∈ rs, lo r ∈ points ∧ hi r ∈ points := by
  induction n generalizing k with
  | zero => omega
  | succ n ih =>
    have hspec := hnext k hbot
    rw [enumerate]
    cases hres : next k with
    | none =>
      rw [hres] at hspec
      refine ⟨[], rfl, fun x hx y hy => ?_, List.Pairwise.nil, by simp⟩
      refine iff_of_false (by simp) ?_
      rintro ⟨hole, hlt⟩
      exact absurd hlt (not_lt.mpr (hspec x hx y hy hole))
    | some r =>
      rw [hres] at hspec
      obtain ⟨hlo, hhi, hole, hlt, hleast⟩ := hspec
      have hbot' : bot ≤ rank (after r) := by
        rw [← hafter]
        exact hbot.trans hlt.le
      have hfewer : (ends.filter fun y => rank (after r) < y).card < n := by
        have hsubset : (ends.filter fun y => rank (after r) < y) ⊂
            ends.filter fun y => rank k < y := by
          rw [← hafter, Finset.ssubset_iff_of_subset]
          · exact ⟨hi r, by simp [hends k hbot r hres, hlt], by simp⟩
          · intro y hy
            obtain ⟨hy, hlt'⟩ := Finset.mem_filter.mp hy
            exact Finset.mem_filter.mpr ⟨hy, hlt.trans hlt'⟩
        have := Finset.card_lt_card hsubset
        omega
      obtain ⟨rs, hrs, hmem, hordered, hpoints⟩ := ih (after r) hbot' hfewer
      rw [← hafter] at hmem
      have hlater : ∀ s ∈ rs, hi r ≤ lo s := by
        intro s hs
        obtain ⟨hsx, hsy⟩ := hpoints s hs
        obtain ⟨hole', hafter'⟩ := (hmem _ hsx _ hsy).mp ⟨s, hs, rfl, rfl⟩
        rcases hole.eq_or_apart hole' hlo hhi hsx hsy with ⟨-, heq⟩ | hle | hle
        · exact absurd hafter' heq.not_lt
        · exact hle
        · exact absurd (hafter'.trans_le hle) (not_lt.mpr hole.lt.le)
      refine ⟨r :: rs, by simp [hrs], fun x hx y hy => ?_, pairwise_cons.mpr ⟨hlater, hordered⟩,
        forall_mem_cons.mpr ⟨⟨hlo, hhi⟩, hpoints⟩⟩
      simp only [mem_cons, exists_eq_or_imp, hmem x hx y hy]
      constructor
      · rintro (⟨rfl, rfl⟩ | ⟨hole', hlt'⟩)
        · exact ⟨hole, hlt⟩
        · exact ⟨hole', hlt.trans hlt'⟩
      · rintro ⟨hole', hlt'⟩
        rcases (hleast x hx y hy hole' hlt').lt_or_eq with hlt'' | heq
        · exact .inr ⟨hole', hlt''⟩
        · rcases hole.eq_or_apart hole' hlo hhi hx hy with hsame | hle | hle
          · exact .inl hsame
          · exact absurd (heq ▸ hole'.lt) (not_lt.mpr hle)
          · exact absurd (heq ▸ hole.lt) (not_lt.mpr hle)

end Holes
end Ranges
