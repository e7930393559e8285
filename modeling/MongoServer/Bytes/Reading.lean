import Mathlib.Tactic

/-!
Readers over a state that stands before a byte string and a side stream of bits.
`Consumes` is the contract of a reader on what a writer produced: from any state before
those bytes and bits it returns the value and stops right behind them. The rules follow
the structure of a reader, and `T` is what the reader may look at beyond its own bytes.
-/
namespace ByteReading
open List

section Contract
variable {S α β : Type} (At : S → List UInt8 → List Bool → Prop)

/-- Reading `bytes` and `bits` returns `a`, before any admissible tail. -/
def Consumes (T : List UInt8 → Prop) (m : StateT S Option α) (bytes : List UInt8)
    (bits : List Bool) (a : α) : Prop :=
  ∀ st s bs, T s → At st (bytes ++ s) (bits ++ bs) → ∃ st', m st = some (a, st') ∧ At st' s bs

variable {At} {T T' : List UInt8 → Prop} {m : StateT S Option α} {f : α → StateT S Option β}
  {p q : List UInt8} {b c : List Bool} {x : α} {y : β}

namespace Consumes

theorem pure (x : α) : Consumes At T (pure x) [] [] x := by
  intro st s bs _ hat
  exact ⟨st, rfl, hat⟩

theorem bind (hm : Consumes At T' m p b x) (hf : Consumes At T (f x) q c y)
    (htail : ∀ s, T s → T' (q ++ s)) : Consumes At T (m >>= f) (p ++ q) (b ++ c) y := by
  intro st s bs hs hat
  rw [append_assoc, append_assoc] at hat
  obtain ⟨st', hrun, hat'⟩ := hm st (q ++ s) (c ++ bs) (htail s hs) hat
  obtain ⟨st'', hrun', hat''⟩ := hf st' s bs hs hat'
  refine ⟨st'', ?_, hat''⟩
  change (m st).bind (fun r => f r.1 r.2) = some (y, st'')
  rw [hrun]
  exact hrun'

theorem bind_any (hm : Consumes At (fun _ => True) m p b x)
    (hf : Consumes At T (f x) q c y) : Consumes At T (m >>= f) (p ++ q) (b ++ c) y :=
  hm.bind hf fun _ _ => trivial

theorem congr {m' : StateT S Option α} (hm : Consumes At T m' p b x)
    (h : ∀ st s bs, At st (p ++ s) bs → m st = m' st) : Consumes At T m p b x := by
  intro st s bs hs hat
  rw [h st s (b ++ bs) hat]
  exact hm st s bs hs hat

theorem bind_side (hm : Consumes At (fun _ => True) m [] b x)
    (hf : Consumes At T (f x) q [] y) : Consumes At T (m >>= f) q b y := by
  have h := hm.bind_any hf
  rwa [nil_append, append_nil] at h

theorem bind_return (hm : Consumes At T m p b x) (hf : f x = Pure.pure y) :
    Consumes At T (m >>= f) p b y := by
  have hpure : Consumes At T (f x) [] [] y := by
    rw [hf]
    exact pure y
  have h := hm.bind hpure fun s hs => hs
  rwa [append_nil, append_nil] at h

end Consumes

end Contract
end ByteReading
