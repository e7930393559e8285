import Mathlib.Data.List.Count
import Mathlib.Logic.Function.Basic
import MongoServer.Auth.Privilege
import MongoServer.Base.Status

/-!
The graph of user-defined roles. The edges are kept in both directions, and what a role inherits is
computed for all roles at once, by a depth-first search with a stack of its own.
-/
namespace MongoServer
open Function List

/-- A role is named by its full name, `role@db`. -/
structure RoleName where
  fullName : String
  deriving DecidableEq

variable {ActionType : Type} {types : ActionTypes ActionType}

/-- The maps of the graph. An entry is made in all of them when a role is created and erased from
all of them when it is deleted, so there is one list of keys. -/
structure RoleGraph (types : ActionTypes ActionType) where
  allRoles : List RoleName
  roleToSubordinates : RoleName → List RoleName
  roleToIndirectSubordinates : RoleName → List RoleName
  roleToMembers : RoleName → List RoleName
  directPrivilegesForRole : RoleName → PrivilegeVector types
  allPrivilegesForRole : RoleName → PrivilegeVector types

namespace RoleGraph

def empty : RoleGraph types where
  allRoles := []
  roleToSubordinates := fun _ => []
  roleToIndirectSubordinates := fun _ => []
  roleToMembers := fun _ => []
  directPrivilegesForRole := fun _ => []
  allPrivilegesForRole := fun _ => []

variable (graph : RoleGraph types) (role : RoleName)

def roleExists : Prop := role ∈ graph.allRoles

instance : Decidable (graph.roleExists role) :=
  inferInstanceAs (Decidable (role ∈ graph.allRoles))

def roleNotFound : Failure :=
  .status ⟨ErrorCodes.RoleNotFound, "Role: " ++ role.fullName ++ " does not exist"⟩

def createRole : Except Failure (RoleGraph types) :=
  if graph.roleExists role then
    .error (.status ⟨ErrorCodes.DuplicateKey, "Role: " ++ role.fullName ++ " already exists"⟩)
  else .ok { graph with allRoles := role :: graph.allRoles }

def eraseEdge (edges : RoleName → List RoleName) (other : RoleName) : RoleName → List RoleName :=
  update edges other ((edges other).erase role)

def deleteRole : Except Failure (RoleGraph types) :=
  if ¬ graph.roleExists role then .error (roleNotFound role)
  else
    let members := (graph.roleToSubordinates role).foldl (eraseEdge role) graph.roleToMembers
    let subordinates := (members role).foldl (eraseEdge role) graph.roleToSubordinates
    .ok {
      allRoles := graph.allRoles.filter fun other => other ≠ role
      roleToSubordinates := update subordinates role []
      roleToIndirectSubordinates := update graph.roleToIndirectSubordinates role []
      roleToMembers := update members role []
      directPrivilegesForRole := update graph.directPrivilegesForRole role []
      allPrivilegesForRole := update graph.allPrivilegesForRole role [] }

def addRoleToRole (recipient role : RoleName) : Except Failure (RoleGraph types) :=
  if ¬ graph.roleExists recipient then .error (roleNotFound recipient)
  else if ¬ graph.roleExists role then .error (roleNotFound role)
  else if role ∈ graph.roleToSubordinates recipient then .ok graph
  else
    .ok { graph with
      roleToSubordinates := update graph.roleToSubordinates recipient
        (graph.roleToSubordinates recipient ++ [role])
      roleToMembers := update graph.roleToMembers role (graph.roleToMembers role ++ [recipient]) }

def removeRoleFromRole (recipient role : RoleName) : Except Failure (RoleGraph types) :=
  if ¬ graph.roleExists recipient then .error (roleNotFound recipient)
  else if ¬ graph.roleExists role then .error (roleNotFound role)
  else if recipient ∉ graph.roleToMembers role then
    .error (.status ⟨ErrorCodes.RolesNotRelated,
      recipient.fullName ++ " is not a member of " ++ role.fullName⟩)
  else if role ∉ graph.roleToSubordinates recipient then .error .invariant
  else
    .ok { graph with
      roleToMembers := eraseEdge recipient graph.roleToMembers role
      roleToSubordinates := eraseEdge role graph.roleToSubordinates recipient }

def eraseMember (victim : RoleName) (members : RoleName → List RoleName)
    (subordinateRole : RoleName) : Except Failure (RoleName → List RoleName) :=
  if victim ∉ members subordinateRole then .error .invariant
  else .ok (eraseEdge victim members subordinateRole)

def removeAllRolesFromRole (victim : RoleName) : Except Failure (RoleGraph types) :=
  if ¬ graph.roleExists victim then .error (roleNotFound victim)
  else
    match (graph.roleToSubordinates victim).foldlM (eraseMember victim) graph.roleToMembers with
    | .error failure => .error failure
    | .ok members =>
        .ok { graph with
          roleToMembers := members
          roleToSubordinates := update graph.roleToSubordinates victim [] }

def addPrivilegeToRoleNoChecks (graph : RoleGraph types)
    (privilegeToAdd : Privilege types) : RoleGraph types :=
  { graph with
    directPrivilegesForRole := update graph.directPrivilegesForRole role
      (addPrivilegeToPrivilegeVector (graph.directPrivilegesForRole role) privilegeToAdd) }

def addPrivilegesToRole
    (privilegesToAdd : PrivilegeVector types) : Except Failure (RoleGraph types) :=
  if ¬ graph.roleExists role then .error (roleNotFound role)
  else .ok (privilegesToAdd.foldl (addPrivilegeToRoleNoChecks role) graph)

def addPrivilegeToRole (privilegeToAdd : Privilege types) : Except Failure (RoleGraph types) :=
  if ¬ graph.roleExists role then .error (roleNotFound role)
  else .ok (addPrivilegeToRoleNoChecks role graph privilegeToAdd)

def removeAllPrivilegesFromRole : Except Failure (RoleGraph types) :=
  if ¬ graph.roleExists role then .error (roleNotFound role)
  else
    .ok { graph with
      directPrivilegesForRole := update graph.directPrivilegesForRole role [] }

section RemovePrivileges

variable [DecidableEq ActionType]

/-- The loop over the current privileges of a role, up to the first on the same pattern. -/
def removePrivilegeFromVector (role : RoleName) (privilegeToRemove : Privilege types) :
    PrivilegeVector types → Except Failure (PrivilegeVector types)
  | [] => .error (.status ⟨ErrorCodes.PrivilegeNotFound, "Role: " ++ role.fullName ++
      " does not contain any privileges on " ++ privilegeToRemove.resourcePattern.toString⟩)
  | privilege :: privileges =>
      if privilege.resourcePattern = privilegeToRemove.resourcePattern then
        if ¬ privilege.actions.isSupersetOf privilegeToRemove.actions then
          .error (.status ⟨ErrorCodes.PrivilegeNotFound, "Role: " ++ role.fullName ++
            " does not contain a privilege on " ++ privilegeToRemove.resourcePattern.toString ++
            " with actions: " ++ privilegeToRemove.actions.toString⟩)
        else
          let actions := privilege.actions.removeAllActionsFromSet privilegeToRemove.actions
          .ok (if actions.empty then privileges
            else { privilege with actions := actions } :: privileges)
      else (removePrivilegeFromVector role privilegeToRemove privileges).map (privilege :: ·)

def removePrivilegeFromRole (graph : RoleGraph types) (role : RoleName)
    (privilegeToRemove : Privilege types) : Except Failure (RoleGraph types) :=
  if ¬ graph.roleExists role then .error (roleNotFound role)
  else
    match removePrivilegeFromVector role privilegeToRemove (graph.directPrivilegesForRole role) with
    | .error failure => .error failure
    | .ok privileges =>
        .ok { graph with
          directPrivilegesForRole :=
            update graph.directPrivilegesForRole role privileges }

/-- Privileges are removed one by one; those before one that is not found stay removed. -/
def removePrivilegesFromRole (graph : RoleGraph types) (role : RoleName) :
    PrivilegeVector types → Except Failure Unit × RoleGraph types
  | [] => (.ok (), graph)
  | privilegeToRemove :: privilegesToRemove =>
      match removePrivilegeFromRole graph role privilegeToRemove with
      | .error failure => (.error failure, graph)
      | .ok graph => removePrivilegesFromRole graph role privilegesToRemove

end RemovePrivileges

def fassertOK {α : Type} : Except Failure α → Except Failure α
  | .ok a => .ok a
  | .error _ => .error .invariant

/-- One of the roles that a replaced role is given; it is created if it does not exist. -/
def grantRole (roleName : RoleName) (graph : RoleGraph types) (grantedRole : RoleName) :
    Except Failure (RoleGraph types) :=
  match createRole graph grantedRole with
  | .ok created => fassertOK (addRoleToRole created roleName grantedRole)
  | .error (.status status) =>
      if status.code = ErrorCodes.DuplicateKey then
        fassertOK (addRoleToRole graph roleName grantedRole)
      else .error .invariant
  | .error .invariant => .error .invariant

def clearOrCreateRole (roleName : RoleName) : Except Failure (RoleGraph types) :=
  match removeAllPrivilegesFromRole graph roleName with
  | .ok cleared => .ok cleared
  | .error (.status status) =>
      if status.code = ErrorCodes.RoleNotFound then fassertOK (createRole graph roleName)
      else .error (.status status)
  | .error .invariant => .error .invariant

def replaceRole (roleName : RoleName) (roles : List RoleName)
    (privileges : PrivilegeVector types) : Except Failure (RoleGraph types) := do
  let graph ← clearOrCreateRole graph roleName
  let graph ← fassertOK (removeAllRolesFromRole graph roleName)
  let graph ← roles.foldlM (grantRole roleName) graph
  fassertOK (addPrivilegesToRole graph roleName privileges)

def inheritFromSubordinates (currentRole : RoleName) : RoleGraph types :=
  let directRoles := graph.roleToSubordinates currentRole
  { graph with
    allPrivilegesForRole := update graph.allPrivilegesForRole currentRole
      (directRoles.foldl (fun privileges childRole =>
        (graph.allPrivilegesForRole childRole).foldl addPrivilegeToPrivilegeVector privileges)
        (graph.directPrivilegesForRole currentRole))
    roleToIndirectSubordinates := update graph.roleToIndirectSubordinates currentRole
      (directRoles.foldl (fun roles childRole =>
        (graph.roleToIndirectSubordinates childRole).foldl (fun roles role => roles.insert role)
          roles) directRoles) }

/-- The error for a cycle, which lists the roles on the way from its first occurrence. -/
def cycleInGraph (currentRole : RoleName) (inProgressRoles : List RoleName) : Failure :=
  .status ⟨ErrorCodes.GraphContainsCycle, "Cycle in dependency graph: " ++
    String.join ((inProgressRoles.reverse.dropWhile fun role => role ≠ currentRole).map
      fun role => role.fullName ++ " -> ") ++ currentRole.fullName⟩

theorem countP_lt_of_mem {α : Type} {p q : α → Bool} {l : List α} {a : α} (ha : a ∈ l)
    (hp : p a) (hq : q a = false) (hle : ∀ b, q b → p b) : l.countP q < l.countP p := by
  have hsame : (l.filter p).countP q = l.countP q := by
    rw [countP_filter]
    exact countP_congr fun b _ => by simpa using hle b
  rw [← hsame, countP_eq_length_filter (p := p), countP_lt_length_iff]
  exact ⟨a, mem_filter.mpr ⟨ha, hp⟩, hq⟩

/-- The search from the roles in progress, the last one first. -/
def recomputePrivilegeDataFrom (graph : RoleGraph types) :
    List RoleName → List RoleName → Except Failure (RoleGraph types × List RoleName)
  | [], visitedRoles => .ok (graph, visitedRoles)
  | currentRole :: inProgressRoles, visitedRoles =>
      if hvisited : currentRole ∈ visitedRoles then .error .invariant
      else if hexists : ¬ graph.roleExists currentRole then .error (roleNotFound currentRole)
      else if hcycle : currentRole ∈ inProgressRoles then
        .error (cycleInGraph currentRole inProgressRoles)
      else
        match (graph.roleToSubordinates currentRole).find? fun role => role ∉ visitedRoles with
        | some childRole =>
            recomputePrivilegeDataFrom graph (childRole :: currentRole :: inProgressRoles)
              visitedRoles
        | none =>
            recomputePrivilegeDataFrom (graph.inheritFromSubordinates currentRole)
              inProgressRoles (currentRole :: visitedRoles)
termination_by inProgressRoles visitedRoles =>
  (graph.allRoles.countP fun role => role ∉ visitedRoles,
    graph.allRoles.countP fun role => role ∉ inProgressRoles.tail)
decreasing_by
  · apply Prod.Lex.right
    apply countP_lt_of_mem (not_not.mp hexists) (decide_eq_true hcycle) (by simp)
    intro role hrole
    simp only [tail_cons, mem_cons, not_or, decide_eq_true_eq] at hrole
    exact decide_eq_true hrole.2
  · apply Prod.Lex.left
    apply countP_lt_of_mem (not_not.mp hexists) (decide_eq_true hvisited) (by simp)
    intro role hrole
    simp only [mem_cons, not_or, decide_eq_true_eq] at hrole
    exact decide_eq_true hrole.2

def recomputePrivilegeDataHelper (loop : RoleGraph types × List RoleName)
    (startingRole : RoleName) : Except Failure (RoleGraph types × List RoleName) :=
  if startingRole ∈ loop.2 then .ok loop
  else recomputePrivilegeDataFrom loop.1 [startingRole] loop.2

/-- The roles are gone through in the order of the hash map. -/
def recomputePrivilegeData (graph : RoleGraph types) (order : List RoleName) :
    Except Failure (RoleGraph types) :=
  (order.foldlM recomputePrivilegeDataHelper (graph, [])).map Prod.fst

end RoleGraph

/-- The calls that change the graph. -/
inductive RoleCall (types : ActionTypes ActionType) where
  | createRole (role : RoleName)
  | deleteRole (role : RoleName)
  | addRoleToRole (recipient role : RoleName)
  | removeRoleFromRole (recipient role : RoleName)
  | removeAllRolesFromRole (victim : RoleName)
  | addPrivilegeToRole (role : RoleName) (privilege : Privilege types)
  | addPrivilegesToRole (role : RoleName) (privileges : PrivilegeVector types)
  | removePrivilegeFromRole (role : RoleName) (privilege : Privilege types)
  | removePrivilegesFromRole (role : RoleName) (privileges : PrivilegeVector types)
  | removeAllPrivilegesFromRole (role : RoleName)
  | replaceRole (roleName : RoleName) (roles : List RoleName) (privileges : PrivilegeVector types)

namespace RoleGraph

variable [DecidableEq ActionType]

def orUnchanged (graph : RoleGraph types) : Except Failure (RoleGraph types) → RoleGraph types
  | .ok changed => changed
  | .error _ => graph

def call (graph : RoleGraph types) : RoleCall types → RoleGraph types
  | .createRole role => graph.orUnchanged (graph.createRole role)
  | .deleteRole role => graph.orUnchanged (graph.deleteRole role)
  | .addRoleToRole recipient role => graph.orUnchanged (graph.addRoleToRole recipient role)
  | .removeRoleFromRole recipient role =>
      graph.orUnchanged (graph.removeRoleFromRole recipient role)
  | .removeAllRolesFromRole victim => graph.orUnchanged (graph.removeAllRolesFromRole victim)
  | .addPrivilegeToRole role privilege =>
      graph.orUnchanged (graph.addPrivilegeToRole role privilege)
  | .addPrivilegesToRole role privileges =>
      graph.orUnchanged (graph.addPrivilegesToRole role privileges)
  | .removePrivilegeFromRole role privilege =>
      graph.orUnchanged (graph.removePrivilegeFromRole role privilege)
  | .removePrivilegesFromRole role privileges => (graph.removePrivilegesFromRole role privileges).2
  | .removeAllPrivilegesFromRole role => graph.orUnchanged (graph.removeAllPrivilegesFromRole role)
  | .replaceRole roleName roles privileges =>
      graph.orUnchanged (graph.replaceRole roleName roles privileges)

def run (calls : List (RoleCall types)) : RoleGraph types := calls.foldl call empty

end RoleGraph
end MongoServer
