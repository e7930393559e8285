import Mathlib.Data.List.Perm.Basic
import MongoServer.Transition.Runs

/-!
Threads that run side by side and write to one log. In whatever order they take their steps, the
part of the log that belongs to a thread is what the thread alone has written, so what each thread
orders stays ordered, and when all have finished the log holds what they were given.
-/
namespace Transition
open List

section Projections
variable {κ α : Type*} [DecidableEq κ] (owner : α → κ) {R : α → α → Prop} {l l' : List α}

theorem pairwise_of_filter (h : ∀ k, (l.filter fun a => owner a = k).Pairwise R) :
    l.Pairwise fun a b => owner a = owner b → R a b := by
  induction l with
  | nil => exact List.Pairwise.nil
  | cons a l ih =>
    constructor
    · intro b hb heq
      have hown := h (owner a)
      rw [filter_cons_of_pos (by simp)] at hown
      exact rel_of_pairwise_cons hown (mem_filter.mpr ⟨hb, by simp [heq]⟩)
    · refine ih fun k => (h k).sublist ?_
      exact (sublist_cons_self a l).filter _

theorem perm_of_filter (h : ∀ k, (l.filter fun a => owner a = k).Perm
    (l'.filter fun a => owner a = k)) : l.Perm l' := by
  classical
  rw [perm_iff_count]
  intro a
  have hcount := (h (owner a)).count_eq a
  rwa [count_filter (by simp), count_filter (by simp)] at hcount

theorem subperm_of_filter (h : ∀ k, (l.filter fun a => owner a = k).Subperm
    (l'.filter fun a => owner a = k)) : l.Subperm l' := by
  classical
  rw [subperm_ext_iff]
  intro a _
  have hcount := (h (owner a)).count_le a
  rwa [count_filter (by simp), count_filter (by simp)] at hcount

end Projections

variable {κ σ β α : Type*} [DecidableEq κ]

/-- The states of all threads, and what they have done so far. -/
structure Threads (κ σ α : Type*) where
  state : κ → σ
  log : List α

def Threads.step (next : σ → β → Option (List α × σ)) (t : Threads κ σ α) (choice : κ × β) :
    Option (Threads κ σ α) :=
  (next (t.state choice.1) choice.2).map fun r =>
    ⟨Function.update t.state choice.1 r.2, t.log ++ r.1⟩

def Interleaved (next : σ → β → Option (List α × σ)) : Threads κ σ α → Threads κ σ α → Prop :=
  Steps (Threads.step next) fun _ _ => True

variable {next : σ → β → Option (List α × σ)} {t t' : Threads κ σ α}

/-- What a thread has written is what the log holds of it. -/
theorem Interleaved.filter_log (h : Interleaved next t t') (owner : α → κ)
    (written : σ → List α) (P : κ → σ → Prop)
    (hstep : ∀ k s b out s', P k s → next s b = some (out, s') →
      P k s' ∧ written s' = written s ++ out ∧ ∀ a ∈ out, owner a = k)
    (hinit : ∀ k, P k (t.state k) ∧
      t.log.filter (fun a => owner a = k) = written (t.state k)) (k : κ) :
    P k (t'.state k) ∧ t'.log.filter (fun a => owner a = k) = written (t'.state k) := by
  have hall : ∀ k, P k (t'.state k) ∧
      t'.log.filter (fun a => owner a = k) = written (t'.state k) := by
    refine Steps.invariant (P := fun t => ∀ k, P k (t.state k) ∧
      t.log.filter (fun a => owner a = k) = written (t.state k)) h hinit ?_
    intro s choice s' hs _ hnext k
    obtain ⟨⟨out, new⟩, hout, rfl⟩ := Option.map_eq_some_iff.mp hnext
    obtain ⟨hP, hwritten, howner⟩ := hstep choice.1 _ _ _ _ (hs choice.1).1 hout
    by_cases hk : k = choice.1
    · subst hk
      have hself : out.filter (fun a => owner a = choice.1) = out :=
        filter_eq_self.mpr fun a ha => decide_eq_true (howner a ha)
      simp only [Function.update_self, filter_append, hself, hwritten, (hs choice.1).2]
      exact ⟨hP, trivial⟩
    · have hnone : out.filter (fun a => owner a = k) = [] :=
        filter_eq_nil_iff.mpr fun a ha hak =>
          hk ((of_decide_eq_true hak).symm.trans (howner a ha))
      simp only [Function.update_of_ne hk, filter_append, hnone, append_nil]
      exact hs k
  exact hall k

end Transition
