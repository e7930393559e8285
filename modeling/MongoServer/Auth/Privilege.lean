import MongoServer.Base.NamespaceString
import Mathlib.Data.List.Basic

/-!
Privileges: sets of actions on patterns of resources.
-/
namespace MongoServer

/-- The types of actions, in the order of their identifiers. One of them stands for all. -/
structure ActionTypes (ActionType : Type) where
  values : List ActionType
  mem_values : ∀ action, action ∈ values
  anyAction : ActionType
  actionToString : ActionType → String

variable {ActionType : Type} {types : ActionTypes ActionType} {action : ActionType}

/-- A set of actions. It holds the one that stands for all only if it holds all. -/
structure ActionSet (types : ActionTypes ActionType) where
  contains : ActionType → Bool
  contains_all : contains types.anyAction → ∀ action, contains action

namespace ActionSet

variable (set : ActionSet types)

def empty : Bool := types.values.all fun action => !set.contains action

theorem empty_iff : set.empty = true ↔ ∀ action, set.contains action = false := by
  simp [empty, types.mem_values]

def allActions : ActionSet types where
  contains := fun _ => true
  contains_all := fun _ _ => rfl

def addAllActionsFromSet (set actions : ActionSet types) : ActionSet types :=
  if h : actions.contains types.anyAction then allActions
  else
    { contains := fun action => set.contains action || actions.contains action
      contains_all := by
        intro hany action
        have hset : set.contains types.anyAction = true := by simpa [h] using hany
        simp [set.contains_all hset action] }

@[simp] theorem contains_addAllActionsFromSet (set actions : ActionSet types)
    (action : ActionType) : (set.addAllActionsFromSet actions).contains action =
      (set.contains action || actions.contains action) := by
  unfold addAllActionsFromSet
  split_ifs with h
  · simp [allActions, actions.contains_all h action]
  · rfl

def isSupersetOf (set other : ActionSet types) : Bool :=
  types.values.all fun action => !other.contains action || set.contains action

def toString : String :=
  if set.contains types.anyAction then types.actionToString types.anyAction
  else ",".intercalate ((types.values.filter set.contains).map types.actionToString)

variable [DecidableEq ActionType]

/-- What is left does not stand for all actions any more, unless nothing was removed. -/
def removeAllActionsFromSet (set other : ActionSet types) : ActionSet types where
  contains action := set.contains action && !other.contains action &&
    (other.empty || action ≠ types.anyAction)
  contains_all := by
    intro hany action
    simp only [ne_eq, not_true_eq_false, decide_false, Bool.or_false, Bool.and_eq_true] at hany
    obtain ⟨⟨hset, -⟩, hempty⟩ := hany
    simp [set.contains_all hset action, (empty_iff other).mp hempty action, hempty]

end ActionSet

inductive MatchType where
  | matchNever
  | matchClusterResource
  | matchDatabaseName
  | matchCollectionName
  | matchExactNamespace
  | matchAnyNormalResource
  | matchAnyResource
  deriving DecidableEq

structure ResourcePattern where
  matchType : MatchType
  ns : NamespaceString
  deriving DecidableEq

variable {pattern : ResourcePattern}

def ResourcePattern.toString (pattern : ResourcePattern) : String :=
  match pattern.matchType with
  | .matchNever => "<no resources>"
  | .matchClusterResource => "<system resource>"
  | .matchDatabaseName => "<database " ++ pattern.ns.db ++ ">"
  | .matchCollectionName => "<collection " ++ pattern.ns.coll ++ " in any database>"
  | .matchExactNamespace => "<" ++ pattern.ns.ns ++ ">"
  | .matchAnyNormalResource => "<all normal resources>"
  | .matchAnyResource => "<all resources>"

structure Privilege (types : ActionTypes ActionType) where
  resourcePattern : ResourcePattern
  actions : ActionSet types

abbrev PrivilegeVector (types : ActionTypes ActionType) := List (Privilege types)

/-- The actions go to the first privilege on the same pattern, if there is one. -/
def addPrivilegeToPrivilegeVector : PrivilegeVector types → Privilege types → PrivilegeVector types
  | [], privilegeToAdd => [privilegeToAdd]
  | privilege :: privileges, privilegeToAdd =>
      if privilege.resourcePattern = privilegeToAdd.resourcePattern then
        { privilege with
          actions := privilege.actions.addAllActionsFromSet privilegeToAdd.actions } :: privileges
      else privilege :: addPrivilegeToPrivilegeVector privileges privilegeToAdd

/-- An action is granted on a pattern by some privilege of the vector. -/
def Grants (privileges : PrivilegeVector types) (pattern : ResourcePattern)
    (action : ActionType) : Prop :=
  ∃ privilege ∈ privileges, privilege.resourcePattern = pattern ∧ privilege.actions.contains action

@[simp] theorem grants_nil (pattern : ResourcePattern) (action : ActionType) :
    ¬ Grants ([] : PrivilegeVector types) pattern action := by
  simp [Grants]

theorem grants_cons {privilege : Privilege types} {privileges : PrivilegeVector types} :
    Grants (privilege :: privileges) pattern action ↔
      (privilege.resourcePattern = pattern ∧ privilege.actions.contains action) ∨
        Grants privileges pattern action := by
  simp [Grants]

theorem grants_addPrivilegeToPrivilegeVector {privileges : PrivilegeVector types}
    {privilege : Privilege types} :
    Grants (addPrivilegeToPrivilegeVector privileges privilege) pattern action ↔
      Grants privileges pattern action ∨
        (privilege.resourcePattern = pattern ∧ privilege.actions.contains action) := by
  induction privileges with
  | nil => simp [addPrivilegeToPrivilegeVector, grants_cons]
  | cons first privileges ih =>
    rw [addPrivilegeToPrivilegeVector]
    split_ifs with hpattern
    · simp only [grants_cons, ActionSet.contains_addAllActionsFromSet, Bool.or_eq_true, hpattern]
      tauto
    · rw [grants_cons, ih, grants_cons]
      tauto

theorem grants_foldl_addPrivilegeToPrivilegeVector {privileges added : PrivilegeVector types} :
    Grants (added.foldl addPrivilegeToPrivilegeVector privileges) pattern action ↔
      Grants privileges pattern action ∨ Grants added pattern action := by
  induction added generalizing privileges with
  | nil => simp
  | cons privilege added ih =>
    rw [List.foldl_cons, ih, grants_addPrivilegeToPrivilegeVector, grants_cons, or_assoc]

end MongoServer
