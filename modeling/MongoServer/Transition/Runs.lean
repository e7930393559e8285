import Mathlib.Logic.Relation
import Mathlib.Tactic.SplitIfs

/-!
Runs of a machine whose steps may be refused, under a condition on every step taken, and
computations that may stop with an error.
-/
namespace Transition
open List

universe u

theorem bind_eq_ok {ε : Type*} {α β : Type u} {x : Except ε α} {f : α → Except ε β} {b : β} :
    (x >>= f) = .ok b ↔ ∃ a, x = .ok a ∧ f a = .ok b := by
  cases x with
  | error e | ok a => simp [bind, Except.bind]

theorem bind_pure_eq_ok {ε : Type*} {α β : Type u} {x : Except ε α} {f : α → β} {b : β} :
    (x >>= fun a => pure (f a)) = .ok b ↔ ∃ a, x = .ok a ∧ f a = b := by
  simp [bind_eq_ok, pure, Except.pure]

theorem bind_pure_eq_some {α β : Type u} {x : Option α} {f : α → β} {b : β} :
    (x >>= fun a => pure (f a)) = some b ↔ ∃ a, x = some a ∧ f a = b := by
  simp [Option.bind_eq_some_iff]

theorem map_eq_ok {ε : Type*} {α β : Type u} {x : Except ε α} {f : α → β} {b : β} :
    x.map f = .ok b ↔ ∃ a, x = .ok a ∧ f a = b := by
  cases x with
  | error e | ok a => simp [Except.map]

theorem map_ne_error {ε : Type*} {α β : Type u} {x : Except ε α} {f : α → β} {err : ε}
    (h : x ≠ .error err) : x.map f ≠ .error err := by
  cases x with
  | error e => simpa [Except.map] using h
  | ok a => simp [Except.map]

theorem mapError_eq_ok {ε ε' : Type*} {α : Type u} {x : Except ε α} {f : ε → ε'} {a : α} :
    x.mapError f = .ok a ↔ x = .ok a := by
  cases x with
  | error e | ok a => simp [Except.mapError]

theorem forM_eq_ok {ε α : Type*} {l : List α} {f : α → Except ε PUnit.{u + 1}} :
    l.forM f = .ok PUnit.unit ↔ ∀ a ∈ l, f a = .ok PUnit.unit := by
  induction l with
  | nil => simp [pure, Except.pure]
  | cons a l ih =>
    rw [List.forM, bind_eq_ok, List.forall_mem_cons, ← ih]
    constructor
    · rintro ⟨_, ha, hl⟩
      exact ⟨ha, hl⟩
    · rintro ⟨ha, hl⟩
      exact ⟨_, ha, hl⟩

section Loops
variable {ε α : Type*} {σ : Type u} {f : σ → α → Except ε σ} {l : List α} {s s' : σ}
  {P : List α → σ → Prop}

/-- What every round of a loop keeps holds after the loop, of all elements it has gone over; a
round knows what was before it in the list and what is after it. -/
theorem foldlM_invariant_of_split (hinit : P [] s)
    (hstep : ∀ done a rest, l = done ++ a :: rest → ∀ s s', P done s → f s a = .ok s' →
      P (done ++ [a]) s') (h : l.foldlM f s = .ok s') : P l s' := by
  have hfrom (done rest : List α) (s : σ) (hrest : l = done ++ rest) (hs : P done s)
      (h : rest.foldlM f s = .ok s') : P (done ++ rest) s' := by
    induction rest generalizing done s with
    | nil =>
      cases h
      simpa using hs
    | cons a rest ih =>
      obtain ⟨next, hnext, h⟩ := bind_eq_ok.mp h
      have hdone := hstep done a rest hrest s next hs hnext
      simpa using ih (done ++ [a]) next (by simp [hrest]) hdone h
  exact hfrom [] l s rfl hinit h

theorem foldlM_invariant (hinit : P [] s)
    (hstep : ∀ done, ∀ a ∈ l, ∀ s s', P done s → f s a = .ok s' → P (done ++ [a]) s')
    (h : l.foldlM f s = .ok s') : P l s' := by
  apply foldlM_invariant_of_split hinit _ h
  intro done a rest hsplit
  exact hstep done a (by simp [hsplit])

theorem foldlM_ne_error {err : ε} (h : ∀ s, ∀ a ∈ l, f s a ≠ .error err) :
    l.foldlM f s ≠ .error err := by
  induction l generalizing s with
  | nil => simp [pure, Except.pure]
  | cons a l ih =>
    rw [foldlM_cons]
    cases hstep : f s a with
    | error err' =>
      intro heq
      injection heq with heq
      exact h s a mem_cons_self (heq ▸ hstep)
    | ok next => exact ih fun s b hb => h s b (mem_cons_of_mem _ hb)

/-- A loop whose rounds simulate those of another never stops. -/
theorem foldlM_simulates {τ : Type*} {f : σ → α → Option σ} {g : τ → α → τ} {R : σ → τ → Prop}
    (hstep : ∀ s t a, R s t → ∃ s', f s a = some s' ∧ R s' (g t a)) {t : τ} (h : R s t) :
    ∃ s', l.foldlM f s = some s' ∧ R s' (l.foldl g t) := by
  induction l generalizing s t with
  | nil => exact ⟨s, rfl, h⟩
  | cons a l ih =>
    obtain ⟨next, hnext, h⟩ := hstep s t a h
    obtain ⟨s', hrest, h⟩ := ih h
    exact ⟨s', by simp [hnext, hrest], h⟩

end Loops

variable {σ α : Type*} {step : σ → α → Option σ} {ok ok' : σ → α → Prop}

/-- Reached by steps that are taken in states where they meet the condition. -/
def Steps (step : σ → α → Option σ) (ok : σ → α → Prop) : σ → σ → Prop :=
  Relation.ReflTransGen fun s s' => ∃ a, ok s a ∧ step s a = some s'

theorem Steps.refl (s : σ) : Steps step ok s s :=
  Relation.ReflTransGen.refl

theorem Steps.trans {s₀ s₁ s₂ : σ} (h₁ : Steps step ok s₀ s₁) (h₂ : Steps step ok s₁ s₂) :
    Steps step ok s₀ s₂ :=
  Relation.ReflTransGen.trans h₁ h₂

/-- What holds at the start and is kept by every step holds in every state reached. -/
theorem Steps.invariant {P : σ → Prop} {s₀ s : σ} (h : Steps step ok s₀ s) (hinit : P s₀)
    (hstep : ∀ s a s', P s → ok s a → step s a = some s' → P s') : P s := by
  induction h with
  | refl => exact hinit
  | tail _ hlast ih =>
    obtain ⟨a, hok, ha⟩ := hlast
    exact hstep _ a _ ih hok ha

/-- Runs a list of steps, and stops where one is refused or misses the condition. -/
def runGuarded (step : σ → α → Option σ) (ok : σ → α → Prop) [∀ s a, Decidable (ok s a)] :
    List α → σ → Option σ
  | [], s => some s
  | a :: rest, s => if ok s a then (step s a).bind (runGuarded step ok rest) else none

/-- The condition that is checked may be weaker, if the steps of the list make up for it. -/
theorem Steps.of_runGuarded_of_mem [∀ s a, Decidable (ok' s a)] (as : List α) {s s' : σ}
    (hok : ∀ s, ∀ a ∈ as, ok' s a → ok s a) (h : runGuarded step ok' as s = some s') :
    Steps step ok s s' := by
  induction as generalizing s with
  | nil =>
    obtain rfl := Option.some.inj h
    exact Steps.refl s
  | cons a rest ih =>
    rw [runGuarded] at h
    split_ifs at h with ha
    obtain ⟨s₁, hs₁, hrest⟩ := Option.bind_eq_some_iff.mp h
    exact Relation.ReflTransGen.head ⟨a, hok s a mem_cons_self ha, hs₁⟩
      (ih (fun s b hb => hok s b (mem_cons_of_mem _ hb)) hrest)

theorem Steps.of_runGuarded [∀ s a, Decidable (ok s a)] (as : List α) {s s' : σ}
    (h : runGuarded step ok as s = some s') : Steps step ok s s' :=
  Steps.of_runGuarded_of_mem as (fun _ _ _ ha => ha) h

end Transition
