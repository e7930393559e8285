import Mathlib.Data.List.TakeWhile
import Mathlib.Order.Basic
import Mathlib.Tactic

/-!
Scans of a sorted list that skip. At every entry a check emits it, skips to a later place, or
stops. If every skip passes over entries that are not wanted, and over the current one, then
the scan emits the wanted entries and needs no more steps than there are entries. Lists of
ordered components have places to skip to: before or after everything that starts with given
components.
-/
namespace SkipScan
open List

section Scan
variable {σ α : Type*}

/-- What to do at an entry. A place to skip to is given by the entries before it. -/
inductive Verdict (σ α : Type*) where
  | emit (s : σ)
  | skip (s : σ) (before : α → Bool)
  | stop

/-- At most as many steps as given. A check may fail, and then the scan does. -/
def scan (check : σ → α → Option (Verdict σ α)) (entries : List α) :
    ℕ → σ → List α → Option (List α)
  | 0, _, _ => none
  | _ + 1, _, [] => some []
  | n + 1, s, e :: rest =>
      match check s e with
      | none => none
      | some (.emit s) => (scan check entries n s rest).map (e :: ·)
      | some (.skip s before) => scan check entries n s (entries.dropWhile before)
      | some .stop => some []

/-- Whatever comes before an entry that is before the place is before it as well. -/
def IsCut (le : α → α → Prop) (entries : List α) (before : α → Bool) : Prop :=
  ∀ a ∈ entries, ∀ b ∈ entries, le a b → before b = true → before a = true

/-- A verdict loses no wanted entry, and a skip passes over the current one. -/
def Right (le : α → α → Prop) (wanted : α → Bool) (entries : List α) (inv : σ → Prop) (e : α) :
    Verdict σ α → Prop
  | .emit s => inv s ∧ wanted e = true
  | .skip s before => inv s ∧ IsCut le entries before ∧ before e = true ∧
      ∀ a ∈ entries, le e a → before a = true → wanted a = false
  | .stop => ∀ a ∈ entries, le e a → wanted a = false

variable {le : α → α → Prop} {wanted before : α → Bool} {entries done rest : List α}
  {inv : σ → Prop} {check : σ → α → Option (Verdict σ α)} {s : σ} {e : α}

theorem filter_dropWhile (h : ∀ a ∈ rest, before a = true → wanted a = false) :
    (rest.dropWhile before).filter wanted = rest.filter wanted := by
  induction rest with
  | nil => rfl
  | cons e rest ih =>
    by_cases he : before e = true
    · have hnot := h e mem_cons_self he
      rw [dropWhile_cons_of_pos he, ih (forall_mem_cons.mp h).2,
        filter_cons_of_neg (by simp [hnot])]
    · rw [dropWhile_cons_of_neg he]

/-- The scan emits the wanted entries, from any place on. -/
theorem scan_eq_filter (hsorted : entries.Pairwise le) (hrefl : ∀ a ∈ entries, le a a)
    (hcheck : ∀ s, inv s → ∀ e ∈ entries, ∃ v, check s e = some v ∧ Right le wanted entries inv e v)
    (hplace : entries = done ++ rest) (hinv : inv s) {n : ℕ} (hn : rest.length < n) :
    scan check entries n s rest = some (rest.filter wanted) := by
  induction n generalizing s done rest with
  | zero => omega
  | succ n ih =>
    cases rest with
    | nil => rfl
    | cons e rest =>
      have he : e ∈ entries := by simp [hplace]
      have hrest : ∀ a ∈ rest, a ∈ entries := fun a ha => by simp [hplace, ha]
      have hordered := hsorted
      rw [hplace, pairwise_append, pairwise_cons] at hordered
      obtain ⟨-, ⟨hafter, -⟩, hbefore⟩ := hordered
      have hn : rest.length < n := by simpa using hn
      obtain ⟨v, hv, hright⟩ := hcheck s hinv e he
      rw [scan, hv]
      cases v with
      | emit s' =>
        have hplace' : entries = (done ++ [e]) ++ rest := by simp [hplace]
        dsimp only
        rw [ih hplace' hright.1 hn, filter_cons_of_pos hright.2]
        rfl
      | skip s' before =>
        obtain ⟨hinv', hcut, hpassed, hlost⟩ := hright
        -- everything up to the current entry is passed over again
        have hpassedAll : ∀ a ∈ done ++ [e], before a = true := forall_mem_append.mpr
          ⟨fun a ha => hcut a (by simp [hplace, ha]) e he (hbefore a ha e mem_cons_self) hpassed,
            forall_mem_singleton.mpr hpassed⟩
        have hsplit : entries = (done ++ [e]) ++ rest := by simp [hplace]
        have hplace' : entries =
            (done ++ [e] ++ rest.takeWhile before) ++ rest.dropWhile before := by
          rw [append_assoc, takeWhile_append_dropWhile, ← hsplit]
        have hdrop : entries.dropWhile before = rest.dropWhile before := by
          rw [hsplit]
          exact dropWhile_append_of_pos hpassedAll
        have hnot : wanted e = false := hlost e he (hrefl e he) hpassed
        dsimp only
        rw [hdrop, ih hplace' hinv' ((length_dropWhile_le before rest).trans_lt hn),
          filter_dropWhile fun a ha => hlost a (hrest a ha) (hafter a ha),
          filter_cons_of_neg (by simp [hnot])]
      | stop =>
        have hnone : ∀ a ∈ e :: rest, wanted a = false := forall_mem_cons.mpr
          ⟨hright e he (hrefl e he), fun a ha => hright a (hrest a ha) (hafter a ha)⟩
        rw [filter_eq_nil_iff.mpr (by simpa using hnone)]

end Scan

section Cuts
variable {L : Type*} [LinearOrder L] {cut a b : List L} {after : Bool}

/-- Keys are ordered by their first component, and then by the others. -/
def LexLe : List L → List L → Prop
  | [], _ => True
  | _ :: _, [] => False
  | a :: as, b :: bs => a < b ∨ a = b ∧ LexLe as bs

theorem LexLe.refl (a : List L) : LexLe a a := by
  induction a with
  | nil => trivial
  | cons x a ih => exact Or.inr ⟨rfl, ih⟩

theorem LexLe.head_le {x y : L} (h : LexLe (x :: a) (y :: b)) : x ≤ y :=
  h.elim le_of_lt fun h => h.1.le

/-- A key comes before the place right before, or right after, the keys that start with the given
components. -/
def Before : List L → Bool → List L → Prop
  | [], after, _ => after = true
  | _ :: _, _, [] => True
  | c :: cut, after, a :: as => a < c ∨ a = c ∧ Before cut after as

theorem Before.of_le (h : Before cut after b) (hab : LexLe a b) : Before cut after a := by
  induction cut generalizing a b with
  | nil => exact h
  | cons c cut ih =>
    cases a with
    | nil => trivial
    | cons x a =>
      cases b with
      | nil => exact hab.elim
      | cons y b =>
        rcases h with hlt | ⟨rfl, h⟩
        · rcases hab with hxy | ⟨rfl, -⟩
          · exact Or.inl (hxy.trans hlt)
          · exact Or.inl hlt
        · rcases hab with hxy | ⟨rfl, hab⟩
          · exact Or.inl hxy
          · exact Or.inr ⟨rfl, ih h hab⟩

/-- A key that comes no earlier than one with the first component of the place, and yet before
the place, has that component too. -/
theorem Before.tail_of_le {x y : L} (h : Before (x :: cut) after (y :: b))
    (hab : LexLe (x :: a) (y :: b)) : y = x ∧ Before cut after b ∧ LexLe a b := by
  rcases h with hlt | ⟨rfl, h⟩
  · rcases hab with hxy | ⟨rfl, -⟩
    · exact absurd hxy hlt.not_gt
    · exact absurd hlt (lt_irrefl _)
  · rcases hab with hxy | ⟨-, hab⟩
    · exact absurd hxy (lt_irrefl _)
    · exact ⟨rfl, h, hab⟩

end Cuts
end SkipScan
