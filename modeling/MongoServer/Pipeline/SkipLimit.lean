import MongoServer.Bson.Value
import Mathlib.Logic.Relation
import Mathlib.Tactic

/-!
Neighbouring `$skip` and `$limit` stages of a pipeline, which the optimizer coalesces until a
limit and a skip are left. Arguments are added in 64 bits.
-/
namespace MongoServer.Pipeline
open List Relation

inductive Stage where
  | skip (nToSkip : ℤ)
  | limit (limit : ℤ)

/-- The arguments that the parser accepts. -/
def Stage.Accepted : Stage → Prop
  | .skip n => 0 ≤ n ∧ n < 2 ^ 63
  | .limit n => 0 < n ∧ n < 2 ^ 63

/-- What `getNext` returns until the end, for the documents of the stage before. -/
def Stage.output : Stage → List BSONObj → List BSONObj
  | .skip n, input => input.drop n.toNat
  | .limit n, input => input.take n.toNat

def output (stages : List Stage) (input : List BSONObj) : List BSONObj :=
  stages.foldl (fun docs stage => stage.output docs) input

def add64 (a b : ℤ) : ℤ := (a + b).bmod (2 ^ 64)

/-- An iterator into the container: the stages before it, the nearest first, and those after. -/
structure Iterator where
  before : List Stage
  rest : List Stage

def Iterator.stages (itr : Iterator) : List Stage := itr.before.reverse ++ itr.rest

/-- One step back, or none at the beginning. -/
def Iterator.prev : Iterator → Iterator
  | ⟨stage :: before, rest⟩ => ⟨before, stage :: rest⟩
  | itr => itr

def doOptimizeAt (before : List Stage) : Stage → Stage → List Stage → Iterator
  | .skip n, .limit m, rest => Iterator.prev ⟨before, .limit (add64 m n) :: .skip n :: rest⟩
  | .skip n, .skip m, rest => ⟨before, .skip (add64 n m) :: rest⟩
  | .limit n, .limit m, rest => ⟨before, .limit (min n m) :: rest⟩
  | stage, next, rest => ⟨stage :: before, next :: rest⟩

/-- One round of the loop, while there is a next stage. -/
def round : Iterator → Option Iterator
  | ⟨before, stage :: next :: rest⟩ => some (doOptimizeAt before stage next rest)
  | _ => none

def Runs : Iterator → Iterator → Prop := ReflTransGen fun itr next => round itr = some next

/-- The loop ends with these stages. -/
def Optimized (stages left : List Stage) : Prop :=
  ∃ itr, Runs ⟨[], stages⟩ itr ∧ round itr = none ∧ itr.stages = left

/-- A limit, if there is one, and the skip after it. -/
structure Window where
  limit : Option ℤ
  skip : Option ℤ

variable (add : ℤ → ℤ → ℤ)

/-- A stage after a limit and a skip, with a sum of one's own. -/
def Window.after (w : Window) : Stage → Window
  | .skip n => ⟨w.limit, some ((w.skip.map (add · n)).getD n)⟩
  | .limit n =>
      let moved := (w.skip.map (add n)).getD n
      ⟨some ((w.limit.map (min · moved)).getD moved), w.skip⟩

def Window.stages (w : Window) : List Stage :=
  (w.limit.map .limit).toList ++ (w.skip.map .skip).toList

/-- The iterator at the last stage of a window, with the stages that follow. -/
def Window.at (w : Window) (rest : List Stage) : Iterator :=
  match w.limit, w.skip with
  | some l, some s => ⟨[.limit l], .skip s :: rest⟩
  | some l, none => ⟨[], .limit l :: rest⟩
  | none, some s => ⟨[], .skip s :: rest⟩
  | none, none => ⟨[], rest⟩

theorem runs_after (w : Window) (stage : Stage) (rest : List Stage) :
    Runs (w.at (stage :: rest)) ((w.after add64 stage).at rest) := by
  obtain ⟨_ | l, _ | s⟩ := w
  · cases stage <;> exact .refl
  · cases stage with
    | skip n => exact .single rfl
    | limit n => exact .tail (.single rfl) rfl
  · cases stage <;> exact .single rfl
  · cases stage with
    | skip n => exact .single rfl
    | limit n => exact .tail (.tail (.single rfl) rfl) rfl

/-- The window of a sequence of stages. -/
def Window.of (stages : List Stage) : Window := stages.foldl (Window.after add) ⟨none, none⟩

theorem optimized_iff (stages left : List Stage) :
    Optimized stages left ↔ left = (Window.of add64 stages).stages := by
  have hrun (w : Window) : Runs (w.at stages) ((stages.foldl (Window.after add64) w).at []) := by
    induction stages generalizing w with
    | nil => exact .refl
    | cons stage rest ih => exact (runs_after w stage rest).trans (ih _)
  have hlast (w : Window) : round (w.at []) = none ∧ (w.at []).stages = w.stages := by
    obtain ⟨_ | l, _ | s⟩ := w <;> exact ⟨rfl, rfl⟩
  obtain ⟨hend, hstages⟩ := hlast (Window.of add64 stages)
  constructor
  · rintro ⟨itr, hitr, hnone, rfl⟩
    -- a round is a function, so two runs that end are the same
    have hunique : Relator.RightUnique fun itr next => round itr = some next :=
      fun _ _ _ hfirst hsecond => Option.some.inj (hfirst.symm.trans hsecond)
    rcases ReflTransGen.total_of_right_unique hunique hitr (hrun ⟨none, none⟩) with h | h
    · rcases h.cases_head with rfl | ⟨next, hnext, -⟩
      · exact hstages
      · simp [hnone] at hnext
    · rcases h.cases_head with rfl | ⟨next, hnext, -⟩
      · exact hstages
      · exact absurd (hend.symm.trans hnext) (by simp)
  · rintro rfl
    exact ⟨_, hrun ⟨none, none⟩, hend, hstages⟩

theorem output_append (stages : List Stage) (stage : Stage) (input : List BSONObj) :
    output (stages ++ [stage]) input = stage.output (output stages input) := by
  rw [output, foldl_append]
  rfl

/-- What the additions of accepted arguments keep, in 64 bits and over the integers. -/
structure Window.Tracks (w w' : Window) : Prop where
  skip : w.skip = w'.skip.map fun s => s.bmod (2 ^ 64)
  limit : w.limit.isSome = w'.limit.isSome
  nonneg : ∀ s ∈ w'.skip, 0 ≤ s
  pos : ∀ l ∈ w'.limit, 0 < l

variable {stage : Stage} {w w' : Window}

theorem Window.Tracks.after (h : w.Tracks w') (hstage : stage.Accepted) :
    (w.after add64 stage).Tracks (w'.after (· + ·) stage) := by
  obtain ⟨limit, skip⟩ := w
  obtain ⟨limit', skip'⟩ := w'
  obtain ⟨hskip, hlimit, hnonneg, hpos⟩ := h
  dsimp only at hskip hlimit hnonneg hpos
  subst hskip
  cases stage with
  | skip n =>
    obtain ⟨hzero, hlt⟩ := hstage
    have hn : n.bmod (2 ^ 64) = n := Int.bmod_eq_of_le (by omega) (by omega)
    cases skip' with
    | none => exact ⟨congrArg some hn.symm, hlimit, by simp [Window.after, hzero], hpos⟩
    | some s =>
      have hs := hnonneg s rfl
      exact ⟨by simp [Window.after, add64], hlimit, by simp [Window.after]; omega, hpos⟩
  | limit n =>
    refine ⟨rfl, rfl, hnonneg, ?_⟩
    have hmoved : 0 < (skip'.map (n + ·)).getD n := by
      cases skip' with
      | none => exact hstage.1
      | some s => exact Int.add_pos_of_pos_of_nonneg hstage.1 (hnonneg s rfl)
    cases limit' with
    | none => simpa [Window.after] using hmoved
    | some l => simpa [Window.after] using ⟨hpos l rfl, hmoved⟩

theorem tracks_of (stages : List Stage) (h : ∀ stage ∈ stages, stage.Accepted) :
    (Window.of add64 stages).Tracks (Window.of (· + ·) stages) := by
  induction stages using reverseRecOn with
  | nil => exact ⟨rfl, rfl, by simp [Window.of], by simp [Window.of]⟩
  | append_singleton stages stage ih =>
    rw [Window.of, Window.of, foldl_concat, foldl_concat]
    exact (ih fun s hs => h s (mem_append_left _ hs)).after (h stage (by simp))

theorem output_stages (w : Window) (input : List BSONObj) : output w.stages input =
    ((w.limit.map fun l => input.take l.toNat).getD input).drop (w.skip.getD 0).toNat := by
  obtain ⟨_ | l, _ | s⟩ := w <;> simp [output, Window.stages, Stage.output]

theorem output_after (hskip : ∀ s ∈ w.skip, 0 ≤ s) (hstage : stage.Accepted)
    (input : List BSONObj) :
    output (w.after (· + ·) stage).stages input = stage.output (output w.stages input) := by
  obtain ⟨limit, skip⟩ := w
  rw [output_stages, output_stages]
  cases stage with
  | skip n =>
    cases skip with
    | none => simp [Window.after, Stage.output]
    | some s =>
      have hs := hskip s rfl
      simp [Window.after, Stage.output, drop_drop, Int.toNat_add hs hstage.1]
  | limit n =>
    have htoNat : ((skip.map (n + ·)).getD n).toNat = (skip.getD 0).toNat + n.toNat := by
      cases skip with
      | none => simp
      | some s => simp [Int.toNat_add hstage.1.le (hskip s rfl), Nat.add_comm]
    cases limit with
    | none => simp [Window.after, Stage.output, take_drop, htoNat]
    | some l =>
      have hmin : (min l ((skip.map (n + ·)).getD n)).toNat =
          min ((skip.getD 0).toNat + n.toNat) l.toNat := by omega
      simp [Window.after, Stage.output, take_drop, take_take, hmin]

theorem output_window (stages : List Stage) (h : ∀ stage ∈ stages, stage.Accepted)
    (input : List BSONObj) :
    output (Window.of (· + ·) stages).stages input = output stages input := by
  induction stages using reverseRecOn with
  | nil => rfl
  | append_singleton stages stage ih =>
    have hrest : ∀ s ∈ stages, s.Accepted := fun s hs => h s (mem_append_left _ hs)
    rw [Window.of, foldl_concat, output_append, ← ih hrest]
    exact output_after (tracks_of stages hrest).nonneg (h stage (by simp)) input

/-- Windows that return the same have the same sums, if one of them returns anything. -/
theorem Window.Tracks.eq_of_output (h : w.Tracks w')
    (hsame : ∀ input, output w.stages input = output w'.stages input) {input : List BSONObj}
    (hinput : output w'.stages input ≠ []) : w = w' := by
  have hlength (n : ℕ) := congrArg length (hsame (replicate n []))
  have hpos := length_pos_iff.mpr hinput
  simp only [output_stages, length_drop] at hlength hpos
  obtain ⟨limit, skip⟩ := w
  obtain ⟨limit', skip'⟩ := w'
  obtain ⟨hskip, hlimit, hnonneg, hlpos⟩ := h
  dsimp only at hskip hlimit hnonneg hlpos
  have hskips (hget : (skip.getD 0).toNat = (skip'.getD 0).toNat) : skip = skip' := by
    subst hskip
    cases skip' with
    | none => rfl
    | some s =>
      have hs := hnonneg s rfl
      simp only [Option.map_some, Option.getD_some, Option.some.injEq] at hget ⊢
      rcases hs.eq_or_lt with rfl | hs
      · simp
      · omega
  generalize (skip.getD 0).toNat = first at hlength hpos hskips
  generalize (skip'.getD 0).toNat = first' at hlength hpos hskips
  cases limit' with
  | none =>
    obtain rfl := Option.isNone_iff_eq_none.mp (by simpa using hlimit)
    have hn := hlength (first + first' + 1)
    simp at hn
    rw [hskips (by omega)]
  | some l' =>
    obtain ⟨l, rfl⟩ := Option.isSome_iff_exists.mp hlimit
    have hl' := hlpos l' rfl
    simp at hlength hpos
    have h1 := hlength first
    have h2 := hlength first'
    have h3 := hlength (l.toNat + l'.toNat)
    rw [hskips (by omega), show l = l' by omega]

end MongoServer.Pipeline
