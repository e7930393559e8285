import Mathlib.Data.List.Basic
import Mathlib.Logic.Function.Basic

/-!
Codes from which the coded value can be read back although other text follows, as long as that text
begins with a symbol at which reading stops. Codes of words of one length, of escaped words, of
bracketed words and of trees are of this kind, and so is one such code after another.
-/
namespace Codes
open List
variable {α β γ : Type*}

/-- The text is at its end, or it goes on with one of the given symbols. -/
def Stops (stop : α → Prop) (rest : List α) : Prop := ∀ c ∈ rest.head?, stop c

theorem Stops.nil (stop : α → Prop) : Stops stop [] := by
  intro c hc
  simp at hc

theorem stops_cons {stop : α → Prop} {c : α} {rest : List α} : Stops stop (c :: rest) ↔ stop c := by
  simp [Stops]

theorem Stops.mono {stop stop' : α → Prop} (h : ∀ c, stop c → stop' c) {rest : List α}
    (hr : Stops stop rest) : Stops stop' rest := fun c hc => h c (hr c hc)

/-- A value and the text after its code are known from the two together. -/
def SelfDelimiting (stop : α → Prop) (code : β → List α) : Prop :=
  ∀ a b r s, Stops stop r → Stops stop s → code a ++ r = code b ++ s → a = b ∧ r = s

namespace SelfDelimiting
variable {stop stop' : α → Prop} {code : β → List α} {code' : γ → List α}

theorem mono (h : SelfDelimiting stop' code) (hle : ∀ c, stop c → stop' c) :
    SelfDelimiting stop code := by
  intro a b r s hr hs heq
  exact h a b r s (hr.mono hle) (hs.mono hle) heq

theorem of_length {n : ℕ} (hlen : ∀ a, (code a).length = n) (hinj : Function.Injective code) :
    SelfDelimiting stop code := by
  intro a b r s _ _ heq
  obtain ⟨hcode, hrest⟩ := append_inj heq (by rw [hlen, hlen])
  exact ⟨hinj hcode, hrest⟩

theorem append (h : SelfDelimiting stop' code) (h' : SelfDelimiting stop code')
    (hstop : ∀ b r, Stops stop r → Stops stop' (code' b ++ r)) :
    SelfDelimiting stop fun p : β × γ => code p.1 ++ code' p.2 := by
  rintro ⟨a, a'⟩ ⟨b, b'⟩ r s hr hs heq
  simp only [append_assoc] at heq
  obtain ⟨rfl, hrest⟩ := h a b _ _ (hstop a' r hr) (hstop b' s hs) heq
  obtain ⟨rfl, rfl⟩ := h' a' b' r s hr hs hrest
  exact ⟨rfl, rfl⟩

end SelfDelimiting

section Escape
variable (special : α → Bool) (mark : α)

/-- A mark before every special symbol. -/
def escape (w : List α) : List α := w.flatMap fun c => if special c then [mark, c] else [c]

@[simp] theorem escape_nil : escape special mark [] = [] := rfl

theorem escape_cons (c : α) (w : List α) :
    escape special mark (c :: w) = (if special c then [mark, c] else [c]) ++
      escape special mark w := rfl

theorem escape_append (v w : List α) :
    escape special mark (v ++ w) = escape special mark v ++ escape special mark w := by
  simp [escape]

/-- An escaped word ends at a special symbol that has no mark before it. -/
theorem escape_selfDelimiting (hmark : special mark) :
    SelfDelimiting (fun c => special c ∧ c ≠ mark) (escape special mark) := by
  -- the first symbol of the code of a word is the mark or not special at all
  have hfirst : ∀ c w r s, Stops (fun c => special c ∧ c ≠ mark) r →
      r ≠ escape special mark (c :: w) ++ s := by
    intro c w r s hr heq
    subst heq
    rw [escape_cons] at hr
    by_cases hc : special c
    · rw [if_pos hc] at hr
      exact (stops_cons.mp hr).2 rfl
    · rw [if_neg hc] at hr
      exact hc (stops_cons.mp hr).1
  intro v
  induction v with
  | nil =>
    intro w r s hr hs heq
    cases w with
    | nil => exact ⟨rfl, heq⟩
    | cons c w => exact absurd heq (hfirst c w r s hr)
  | cons c v ih =>
    intro w r s hr hs heq
    cases w with
    | nil => exact absurd heq.symm (hfirst c v s r hs)
    | cons d w =>
      have hhead : c = d ∧ escape special mark v ++ r = escape special mark w ++ s := by
        rw [escape_cons, escape_cons] at heq
        by_cases hc : special c <;> by_cases hd : special d
        · simpa [hc, hd] using heq
        · rw [if_pos hc, if_neg hd] at heq
          exact absurd ((List.cons.inj heq).1 ▸ hmark) hd
        · rw [if_neg hc, if_pos hd] at heq
          exact absurd ((List.cons.inj heq).1 ▸ hmark) hc
        · simpa [hc, hd] using heq
      obtain ⟨rfl, htail⟩ := hhead
      obtain ⟨rfl, rfl⟩ := ih w r s hr hs htail
      exact ⟨rfl, rfl⟩

end Escape

section Bracketed
variable (left right : α) (digit : β → α)

/-- A word in brackets; nothing at all stands for the empty one. -/
def bracketed : List β → List α
  | [] => []
  | b :: w => left :: ((b :: w).map digit ++ [right])

theorem bracketed_stops {stop : α → Prop} {w : List β} {r : List α} (hr : Stops stop r) :
    Stops (fun c => stop c ∨ c = left) (bracketed left right digit w ++ r) := by
  cases w with
  | nil => exact hr.mono fun c hc => Or.inl hc
  | cons b w => exact stops_cons.mpr (Or.inr rfl)

theorem digits_selfDelimiting (hdigit : Function.Injective digit) (hright : ∀ b, digit b ≠ right) :
    SelfDelimiting (fun _ => True) fun w : List β => w.map digit ++ [right] := by
  intro v
  induction v with
  | nil =>
    intro w r s _ _ heq
    cases w with
    | nil => exact ⟨rfl, (List.cons.inj heq).2⟩
    | cons b w => exact absurd (List.cons.inj heq).1.symm (hright b)
  | cons a v ih =>
    intro w r s hr hs heq
    cases w with
    | nil => exact absurd (List.cons.inj heq).1 (hright a)
    | cons b w =>
      obtain ⟨hab, htail⟩ := List.cons.inj heq
      obtain ⟨rfl, rfl⟩ := ih w r s hr hs htail
      exact ⟨by rw [hdigit hab], rfl⟩

theorem bracketed_selfDelimiting (hdigit : Function.Injective digit)
    (hright : ∀ b, digit b ≠ right) :
    SelfDelimiting (fun c => c ≠ left) (bracketed left right digit) := by
  intro v w r s hr hs heq
  cases v with
  | nil =>
    cases w with
    | nil => exact ⟨rfl, heq⟩
    | cons b w =>
      have hfirst : left ≠ left := hr left (by rw [show r = _ from heq]; rfl)
      exact absurd rfl hfirst
  | cons a v =>
    cases w with
    | nil =>
      have hfirst : left ≠ left := hs left (by rw [show s = _ from heq.symm]; rfl)
      exact absurd rfl hfirst
    | cons b w =>
      exact digits_selfDelimiting right digit hdigit hright (a :: v) (b :: w) r s
        (fun _ _ => trivial) (fun _ _ => trivial) (List.cons.inj heq).2

end Bracketed

/-- Trees with a label at each node. -/
inductive Tree (β : Type*) where
  | node (label : β) (children : List (Tree β))

section Trees
variable (left right sep : α) (code : β → List α)

mutual
def encodeTree : Tree β → List α
  | .node label [] => code label
  | .node label (t :: ts) => code label ++ left :: (encodeTree t ++ encodeRest ts)

def encodeRest : List (Tree β) → List α
  | [] => [right]
  | t :: ts => sep :: (encodeTree t ++ encodeRest ts)
end

variable {left right sep code} {stop : α → Prop}
  (hcode : SelfDelimiting (fun c => stop c ∨ c = left) code)
  (hleft : ¬ stop left) (hright : stop right) (hsep : stop sep) (hne : sep ≠ right)

theorem encodeRest_stops (hright : stop right) (hsep : stop sep) (ts : List (Tree β))
    (r : List α) : Stops stop (encodeRest left right sep code ts ++ r) := by
  cases ts with
  | nil => exact stops_cons.mpr hright
  | cons t ts => exact stops_cons.mpr hsep

include hcode hleft hright hsep hne

mutual
theorem encodeTree_inj : ∀ (t u : Tree β) (r s : List α), Stops stop r → Stops stop s →
    encodeTree left right sep code t ++ r = encodeTree left right sep code u ++ s → t = u ∧ r = s
  | .node a [], .node b [], r, s, hr, hs, heq => by
      obtain ⟨rfl, rfl⟩ := hcode a b r s (hr.mono fun _ => Or.inl) (hs.mono fun _ => Or.inl) heq
      exact ⟨rfl, rfl⟩
  | .node a [], .node b (u :: us), r, s, hr, hs, heq => by
      rw [encodeTree, encodeTree, append_assoc] at heq
      obtain ⟨_, hrest⟩ := hcode a b r _ (hr.mono fun _ => Or.inl) (stops_cons.mpr (Or.inr rfl)) heq
      rw [hrest] at hr
      exact absurd (stops_cons.mp hr) hleft
  | .node a (t :: ts), .node b [], r, s, hr, hs, heq => by
      rw [encodeTree, encodeTree, append_assoc] at heq
      obtain ⟨_, hrest⟩ := hcode a b _ s (stops_cons.mpr (Or.inr rfl)) (hs.mono fun _ => Or.inl) heq
      rw [← hrest] at hs
      exact absurd (stops_cons.mp hs) hleft
  | .node a (t :: ts), .node b (u :: us), r, s, hr, hs, heq => by
      simp only [encodeTree, append_assoc, cons_append] at heq
      obtain ⟨rfl, hrest⟩ := hcode a b _ _ (stops_cons.mpr (Or.inr rfl))
        (stops_cons.mpr (Or.inr rfl)) heq
      obtain ⟨rfl, htail⟩ := encodeTree_inj t u _ _
        (encodeRest_stops hright hsep ts r) (encodeRest_stops hright hsep us s)
        (List.cons.inj hrest).2
      obtain ⟨rfl, rfl⟩ := encodeRest_inj ts us r s htail
      exact ⟨rfl, rfl⟩

theorem encodeRest_inj : ∀ (ts us : List (Tree β)) (r s : List α),
    encodeRest left right sep code ts ++ r = encodeRest left right sep code us ++ s →
      ts = us ∧ r = s
  | [], [], r, s, heq => ⟨rfl, (List.cons.inj heq).2⟩
  | [], u :: us, r, s, heq => absurd (List.cons.inj heq).1.symm hne
  | t :: ts, [], r, s, heq => absurd (List.cons.inj heq).1 hne
  | t :: ts, u :: us, r, s, heq => by
      simp only [encodeRest, cons_append, append_assoc, List.cons.injEq, true_and] at heq
      obtain ⟨rfl, htail⟩ := encodeTree_inj t u _ _
        (encodeRest_stops hright hsep ts r) (encodeRest_stops hright hsep us s) heq
      obtain ⟨rfl, rfl⟩ := encodeRest_inj ts us r s htail
      exact ⟨rfl, rfl⟩
end

theorem encodeTree_selfDelimiting :
    SelfDelimiting stop (encodeTree left right sep code) := fun t u r s hr hs heq =>
  encodeTree_inj hcode hleft hright hsep hne t u r s hr hs heq

end Trees

end Codes
