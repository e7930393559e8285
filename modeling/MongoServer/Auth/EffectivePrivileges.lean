import Mathlib.Data.List.Chain
import Mathlib.Logic.Relation
import MongoServer.Auth.RoleGraph
import MongoServer.Transition.Runs

/-!
What roles inherit. The two maps of edges are inverse to each other after every call, and the
search finishes a role only when all of its subordinates are finished, so its data is complete.
-/
namespace MongoServer.RoleGraph
open List Transition Function

open Relation

variable {ActionType : Type} {types : ActionTypes ActionType} {graph : RoleGraph types}
  {privileges : PrivilegeVector types}

/-- The edges are the same in both directions, each is there once, and leads from a role of the
graph to one. -/
structure EdgesConsistent (allRoles : List RoleName)
    (subordinates members : RoleName → List RoleName) : Prop where
  inverse : ∀ role other, role ∈ members other ↔ other ∈ subordinates role
  nodup : ∀ role, (subordinates role).Nodup
  members_nodup : ∀ role, (members role).Nodup
  exist : ∀ role, ∀ other ∈ subordinates role, role ∈ allRoles ∧ other ∈ allRoles

abbrev Consistent (graph : RoleGraph types) : Prop :=
  EdgesConsistent graph.allRoles graph.roleToSubordinates graph.roleToMembers

section Edges

variable {edges : RoleName → List RoleName} {role : RoleName}

theorem nodup_eraseEdge (role : RoleName) (h : ∀ other, (edges other).Nodup)
    (key other : RoleName) : (eraseEdge role edges key other).Nodup := by
  unfold eraseEdge
  by_cases hkey : other = key <;> simp [hkey, h, (h _).erase]

section
variable (h : ∀ other, (edges other).Nodup)
include h

theorem mem_eraseEdge {key other found : RoleName} : found ∈ eraseEdge role edges key other ↔
      found ∈ edges other ∧ ¬ (other = key ∧ found = role) := by
  unfold eraseEdge
  by_cases hkey : other = key
  · subst hkey
    rw [update_self, (h other).mem_erase_iff]
    tauto
  · simp [hkey]

theorem nodup_update_nil (key other : RoleName) : (update edges key [] other).Nodup := by
  by_cases hkey : other = key <;> simp [hkey, h other]

theorem nodup_addEdge {key : RoleName} (hnew : role ∉ edges key)
    (other : RoleName) : (update edges key (edges key ++ [role]) other).Nodup := by
  by_cases hkey : other = key
  · subst hkey
    rw [update_self]
    exact nodup_append.mpr ⟨h other, by simp, by
      intro found hfound added hadded heq
      rw [mem_singleton.mp hadded] at heq
      exact hnew (heq ▸ hfound)⟩
  · rw [update_of_ne hkey]
    exact h other

end

theorem foldl_eraseEdge (role : RoleName) (keys : List RoleName) (h : ∀ other, (edges other).Nodup) :
    (∀ other, (keys.foldl (eraseEdge role) edges other).Nodup) ∧
      ∀ other found, found ∈ keys.foldl (eraseEdge role) edges other ↔
        found ∈ edges other ∧ ¬ (other ∈ keys ∧ found = role) := by
  induction keys generalizing edges with
  | nil => simpa using h
  | cons key keys ih =>
    obtain ⟨hnodup, hmem⟩ := ih (nodup_eraseEdge role h key)
    refine ⟨hnodup, ?_⟩
    intro other found
    rw [foldl_cons, hmem, mem_eraseEdge h, mem_cons]
    tauto

theorem foldlM_eraseMember {keys : List RoleName} {erased : RoleName → List RoleName}
    (h : keys.foldlM (eraseMember role) edges = .ok erased) :
    erased = keys.foldl (eraseEdge role) edges := by
  induction keys generalizing edges with
  | nil =>
    cases h
    rfl
  | cons key keys ih =>
    obtain ⟨next, hnext, h⟩ := bind_eq_ok.mp h
    unfold eraseMember at hnext
    split_ifs at hnext
    cases hnext
    exact ih h

end Edges

section Calls

variable {graph' : RoleGraph types}

theorem consistent_empty : Consistent (empty : RoleGraph types) := by
  constructor <;> simp [empty]

theorem Consistent.of_same_edges (h : Consistent graph) (hroles : graph'.allRoles = graph.allRoles)
    (hsubordinates : graph'.roleToSubordinates = graph.roleToSubordinates)
    (hmembers : graph'.roleToMembers = graph.roleToMembers) : Consistent graph' := by
  rwa [Consistent, hroles, hsubordinates, hmembers]

variable {role : RoleName}

section
variable (h : Consistent graph)
include h

namespace Consistent

protected theorem createRole (hcall : graph.createRole role = .ok graph') : Consistent graph' := by
  unfold createRole at hcall
  split_ifs at hcall
  cases hcall
  refine ⟨h.inverse, h.nodup, h.members_nodup, ?_⟩
  intro other subordinate hsubordinate
  obtain ⟨hother, hexists⟩ := h.exist other subordinate hsubordinate
  exact ⟨mem_cons_of_mem _ hother, mem_cons_of_mem _ hexists⟩

protected theorem deleteRole (hcall : graph.deleteRole role = .ok graph') : Consistent graph' := by
  unfold deleteRole at hcall
  split_ifs at hcall
  cases hcall
  obtain ⟨hmembersNodup, hmembers⟩ := foldl_eraseEdge role
    (graph.roleToSubordinates role) h.members_nodup
  obtain ⟨hsubordinatesNodup, hsubordinates⟩ := foldl_eraseEdge role
    ((graph.roleToSubordinates role).foldl (eraseEdge role) graph.roleToMembers role) h.nodup
  have hinverse := h.inverse
  have hsub : ∀ first second, second ∈ update
      (((graph.roleToSubordinates role).foldl (eraseEdge role) graph.roleToMembers role).foldl
        (eraseEdge role) graph.roleToSubordinates) role [] first ↔
      second ∈ graph.roleToSubordinates first ∧ first ≠ role ∧ second ≠ role := by
    intro first second
    by_cases hfirst : first = role
    · simp [hfirst]
    · rw [update_of_ne hfirst, hsubordinates, hmembers, hinverse]
      constructor
      · rintro ⟨hedge, hnot⟩
        refine ⟨hedge, hfirst, ?_⟩
        rintro rfl
        exact hnot ⟨⟨hedge, fun hboth => hfirst hboth.2⟩, rfl⟩
      · rintro ⟨hedge, -, hsecond⟩
        exact ⟨hedge, fun hboth => hsecond hboth.2⟩
  constructor
  · intro first second
    rw [hsub]
    by_cases hsecond : second = role
    · simp [hsecond]
    · simp only [update_of_ne hsecond, hmembers, hinverse]
      constructor
      · rintro ⟨hedge, hnot⟩
        refine ⟨hedge, ?_, hsecond⟩
        rintro rfl
        exact hnot ⟨hedge, rfl⟩
      · rintro ⟨hedge, hfirst, -⟩
        exact ⟨hedge, fun hboth => hfirst hboth.2⟩
  · exact nodup_update_nil hsubordinatesNodup role
  · exact nodup_update_nil hmembersNodup role
  · intro first second hedge
    obtain ⟨hedge, hfirst, hsecond⟩ := (hsub first second).mp hedge
    obtain ⟨hexists, hexists'⟩ := h.exist first second hedge
    simp [hexists, hexists', hfirst, hsecond]

protected theorem addRoleToRole {recipient : RoleName}
    (hcall : graph.addRoleToRole recipient role = .ok graph') : Consistent graph' := by
  unfold addRoleToRole at hcall
  split_ifs at hcall with hrecipient hrole hmem
  · cases hcall
    exact h
  · cases hcall
    dsimp only [Consistent]
    have hnew : recipient ∉ graph.roleToMembers role := fun hmember =>
      hmem ((h.inverse recipient role).mp hmember)
    constructor
    · intro first second
      by_cases hfirst : first = recipient <;> by_cases hsecond : second = role <;>
        simp [hfirst, hsecond, h.inverse]
    · exact nodup_addEdge h.nodup hmem
    · exact nodup_addEdge h.members_nodup hnew
    · intro first second hedge
      by_cases hfirst : first = recipient
      · subst hfirst
        simp only [update_self, mem_append, mem_singleton] at hedge
        exact hedge.elim (h.exist first second) fun heq => heq ▸ ⟨hrecipient, hrole⟩
      · rw [update_of_ne hfirst] at hedge
        exact h.exist first second hedge

protected theorem removeRoleFromRole {recipient : RoleName}
    (hcall : graph.removeRoleFromRole recipient role = .ok graph') : Consistent graph' := by
  unfold removeRoleFromRole at hcall
  split_ifs at hcall
  cases hcall
  constructor
  · intro first second
    simp only [mem_eraseEdge h.members_nodup, mem_eraseEdge h.nodup, h.inverse]
    tauto
  · exact nodup_eraseEdge role h.nodup recipient
  · exact nodup_eraseEdge recipient h.members_nodup role
  · intro first second hedge
    exact h.exist first second ((mem_eraseEdge h.nodup).mp hedge).1

protected theorem removeAllRolesFromRole {victim : RoleName}
    (hcall : graph.removeAllRolesFromRole victim = .ok graph') : Consistent graph' := by
  unfold removeAllRolesFromRole at hcall
  split_ifs at hcall
  split at hcall
  · simp at hcall
  · rename_i members hmembers
    cases hcall
    obtain rfl := foldlM_eraseMember hmembers
    dsimp only [Consistent]
    obtain ⟨hnodup, hmem⟩ := foldl_eraseEdge victim
      (graph.roleToSubordinates victim) h.members_nodup
    constructor
    · intro first second
      rw [hmem, h.inverse]
      by_cases hfirst : first = victim <;> simp [hfirst]
    · exact nodup_update_nil h.nodup victim
    · exact hnodup
    · intro first second hedge
      by_cases hfirst : first = victim <;> simp [hfirst] at hedge
      exact h.exist first second hedge

theorem foldl_addPrivilege (role : RoleName) (privileges : PrivilegeVector types) :
    Consistent (privileges.foldl (addPrivilegeToRoleNoChecks role) graph) :=
  foldlRecOn privileges _ h fun _ h _ _ => h.of_same_edges rfl rfl rfl

protected theorem addPrivilegesToRole
    (hcall : graph.addPrivilegesToRole role privileges = .ok graph') : Consistent graph' := by
  unfold addPrivilegesToRole at hcall
  split_ifs at hcall
  cases hcall
  exact h.foldl_addPrivilege role privileges

protected theorem removeAllPrivilegesFromRole
    (hcall : graph.removeAllPrivilegesFromRole role = .ok graph') : Consistent graph' := by
  unfold removeAllPrivilegesFromRole at hcall
  split_ifs at hcall
  cases hcall
  exact h.of_same_edges rfl rfl rfl

end Consistent

end

theorem fassertOK_eq_ok {α : Type} {result : Except Failure α} {a : α} :
    fassertOK result = .ok a ↔ result = .ok a := by
  cases result <;> simp [fassertOK]

protected theorem Consistent.grantRole (h : Consistent graph) {roleName grantedRole : RoleName}
    (hcall : grantRole roleName graph grantedRole = .ok graph') : Consistent graph' := by
  unfold grantRole at hcall
  split at hcall
  · rename_i created hcreated
    rw [fassertOK_eq_ok] at hcall
    exact (h.createRole hcreated).addRoleToRole hcall
  · split_ifs at hcall
    rw [fassertOK_eq_ok] at hcall
    exact h.addRoleToRole hcall
  · simp at hcall

protected theorem Consistent.replaceRole (h : Consistent graph) {roleName : RoleName} {roles : List RoleName}
    (hcall : graph.replaceRole roleName roles privileges = .ok graph') : Consistent graph' := by
  unfold replaceRole at hcall
  obtain ⟨cleared, hcleared, hcall⟩ := bind_eq_ok.mp hcall
  obtain ⟨stripped, hstripped, hcall⟩ := bind_eq_ok.mp hcall
  obtain ⟨granted, hgranted, hcall⟩ := bind_eq_ok.mp hcall
  have hcleared' : Consistent cleared := by
    unfold clearOrCreateRole at hcleared
    split at hcleared
    · rename_i found hfound
      cases hcleared
      exact h.removeAllPrivilegesFromRole hfound
    · split_ifs at hcleared
      rw [fassertOK_eq_ok] at hcleared
      exact h.createRole hcleared
    · simp at hcleared
  rw [fassertOK_eq_ok] at hstripped hcall
  have hgranted' := foldlM_invariant (P := fun _ graph => Consistent graph)
    (hcleared'.removeAllRolesFromRole hstripped)
    (fun _ _ _ _ _ hgraph hround => hgraph.grantRole hround) hgranted
  exact hgranted'.addPrivilegesToRole hcall

variable [DecidableEq ActionType]

protected theorem Consistent.removePrivilegeFromRole (h : Consistent graph) {privilege : Privilege types}
    (hcall : graph.removePrivilegeFromRole role privilege = .ok graph') : Consistent graph' := by
  unfold removePrivilegeFromRole at hcall
  split_ifs at hcall
  split at hcall
  · simp at hcall
  · cases hcall
    exact h.of_same_edges rfl rfl rfl

protected theorem Consistent.removePrivilegesFromRole (h : Consistent graph) (role : RoleName)
    (privileges : PrivilegeVector types) :
    Consistent (graph.removePrivilegesFromRole role privileges).2 := by
  induction privileges generalizing graph with
  | nil => exact h
  | cons privilege privileges ih =>
    rw [removePrivilegesFromRole]
    split
    · exact h
    · rename_i removed hremoved
      exact ih (h.removePrivilegeFromRole hremoved)

omit [DecidableEq ActionType] in
theorem Consistent.orUnchanged (h : Consistent graph) {result : Except Failure (RoleGraph types)}
    (hresult : ∀ changed, result = .ok changed → Consistent changed) :
    Consistent (graph.orUnchanged result) := by
  cases result with
  | error => exact h
  | ok changed => exact hresult changed rfl

protected theorem Consistent.call (h : Consistent graph) (request : RoleCall types) :
    Consistent (graph.call request) := by
  cases request with
  | createRole => exact h.orUnchanged fun _ => h.createRole
  | deleteRole => exact h.orUnchanged fun _ => h.deleteRole
  | addRoleToRole => exact h.orUnchanged fun _ => h.addRoleToRole
  | removeRoleFromRole => exact h.orUnchanged fun _ => h.removeRoleFromRole
  | removeAllRolesFromRole => exact h.orUnchanged fun _ => h.removeAllRolesFromRole
  | addPrivilegeToRole role privilege =>
    exact h.orUnchanged fun changed (hcall : graph.addPrivilegesToRole role [privilege] = _) =>
      h.addPrivilegesToRole hcall
  | addPrivilegesToRole => exact h.orUnchanged fun _ => h.addPrivilegesToRole
  | removePrivilegeFromRole => exact h.orUnchanged fun _ => h.removePrivilegeFromRole
  | removePrivilegesFromRole role privileges => exact h.removePrivilegesFromRole role privileges
  | removeAllPrivilegesFromRole =>
    exact h.orUnchanged fun _ => h.removeAllPrivilegesFromRole
  | replaceRole => exact h.orUnchanged fun _ => h.replaceRole

theorem consistent_run (calls : List (RoleCall types)) : Consistent (run calls) :=
  foldlRecOn calls call consistent_empty fun _ h request _ => h.call request

end Calls

section Inheritance

variable {graph' : RoleGraph types}

def HasSubordinate (graph : RoleGraph types) (role other : RoleName) : Prop :=
  other ∈ graph.roleToSubordinates role

abbrev Reaches (graph : RoleGraph types) : RoleName → RoleName → Prop :=
  TransGen (HasSubordinate graph)

variable {role : RoleName} {visited inProgress : List RoleName}

theorem mem_foldl_insert {roles added : List RoleName} :
    role ∈ added.foldl (fun roles role => roles.insert role) roles ↔
      role ∈ roles ∨ role ∈ added := by
  induction added generalizing roles with
  | nil => simp
  | cons first added ih =>
    rw [foldl_cons, ih, mem_insert_iff, mem_cons]
    tauto

theorem mem_indirect_foldl {children roles : List RoleName} {indirect : RoleName → List RoleName} :
    role ∈ children.foldl (fun roles childRole =>
        (indirect childRole).foldl (fun roles role => roles.insert role) roles) roles ↔
      role ∈ roles ∨ ∃ childRole ∈ children, role ∈ indirect childRole := by
  induction children generalizing roles with
  | nil => simp
  | cons childRole children ih =>
    rw [foldl_cons, ih, mem_foldl_insert]
    simp [or_assoc]

theorem grants_children_foldl {children : List RoleName}
    {all : RoleName → PrivilegeVector types} {pattern : ResourcePattern} {action : ActionType} :
    Grants (children.foldl (fun privileges childRole =>
        (all childRole).foldl addPrivilegeToPrivilegeVector privileges) privileges)
        pattern action ↔
      Grants privileges pattern action ∨
        ∃ childRole ∈ children, Grants (all childRole) pattern action := by
  induction children generalizing privileges with
  | nil => simp
  | cons childRole children ih =>
    rw [foldl_cons, ih, grants_foldl_addPrivilegeToPrivilegeVector]
    simp [or_assoc]

/-- Two graphs with the same roles, edges and direct privileges. -/
structure SameBase (graph graph' : RoleGraph types) : Prop where
  allRoles : graph'.allRoles = graph.allRoles
  subordinates : graph'.roleToSubordinates = graph.roleToSubordinates
  direct : graph'.directPrivilegesForRole = graph.directPrivilegesForRole

/-- The data of a role is complete. -/
structure Complete (graph graph' : RoleGraph types) (role : RoleName) : Prop where
  indirect : ∀ other, other ∈ graph'.roleToIndirectSubordinates role ↔ Reaches graph role other
  privileges : ∀ pattern action, Grants (graph'.allPrivilegesForRole role) pattern action ↔
    ∃ other, ReflTransGen (HasSubordinate graph) role other ∧
      Grants (graph.directPrivilegesForRole other) pattern action

/-- The state of the search: the visited roles are complete, and all that they reach is
visited. -/
structure Searched (graph graph' : RoleGraph types) (visited : List RoleName) : Prop where
  base : SameBase graph graph'
  closed : ∀ role ∈ visited, ∀ other, HasSubordinate graph role other → other ∈ visited
  acyclic : ∀ role ∈ visited, ¬ Reaches graph role role
  complete : ∀ role ∈ visited, Complete graph graph' role

theorem Searched.reaches (h : Searched graph graph' visited) {other : RoleName}
    (hrole : role ∈ visited) (hpath : ReflTransGen (HasSubordinate graph) role other) :
    other ∈ visited := by
  induction hpath with
  | refl => exact hrole
  | tail _ hlast ih => exact h.closed _ ih _ hlast

theorem Searched.finish (h : Searched graph graph' visited) (hnew : role ∉ visited)
    (hchildren : ∀ other, HasSubordinate graph role other → other ∈ visited) :
    Searched graph (graph'.inheritFromSubordinates role) (role :: visited) := by
  have hindirect : ∀ other, Reaches graph role other ↔ HasSubordinate graph role other ∨
      ∃ child, HasSubordinate graph role child ∧ Reaches graph child other := by
    intro other
    refine TransGen.head'_iff.trans ?_
    constructor
    · rintro ⟨child, hchild, hpath⟩
      rcases reflTransGen_iff_eq_or_transGen.mp hpath with rfl | hpath
      · exact .inl hchild
      · exact .inr ⟨child, hchild, hpath⟩
    · rintro (hother | ⟨child, hchild, hpath⟩)
      · exact ⟨other, hother, .refl⟩
      · exact ⟨child, hchild, hpath.to_reflTransGen⟩
  constructor
  · exact ⟨h.base.allRoles, h.base.subordinates, h.base.direct⟩
  · intro first hfirst other hother
    rcases mem_cons.mp hfirst with rfl | hfirst
    · exact mem_cons_of_mem _ (hchildren other hother)
    · exact mem_cons_of_mem _ (h.closed first hfirst other hother)
  · refine forall_mem_cons.mpr ⟨fun hcycle => ?_, h.acyclic⟩
    obtain ⟨child, hchild, hpath⟩ := TransGen.head'_iff.mp hcycle
    exact hnew (h.reaches (hchildren child hchild) hpath)
  · intro first hfirst
    by_cases heq : first = role
    · subst heq
      constructor
      · intro other
        have hmem : other ∈ (graph'.inheritFromSubordinates first).roleToIndirectSubordinates
            first ↔ HasSubordinate graph first other ∨ ∃ child ∈ graph.roleToSubordinates first,
              other ∈ graph'.roleToIndirectSubordinates child := by
          simp [inheritFromSubordinates, mem_indirect_foldl, h.base.subordinates, HasSubordinate]
        rw [hmem, hindirect]
        exact or_congr_right (exists_congr fun child => and_congr_right fun hchild =>
          (h.complete child (hchildren child hchild)).indirect other)
      · intro pattern action
        simp only [inheritFromSubordinates, update_self, grants_children_foldl,
          h.base.subordinates, h.base.direct]
        constructor
        · rintro (hown | ⟨child, hchild, hgrants⟩)
          · exact ⟨first, .refl, hown⟩
          · obtain ⟨other, hpath, hother⟩ :=
              ((h.complete child (hchildren child hchild)).privileges pattern action).mp hgrants
            exact ⟨other, .head hchild hpath, hother⟩
        · rintro ⟨other, hpath, hother⟩
          rcases ReflTransGen.cases_head hpath with rfl | ⟨child, hchild, hpath⟩
          · exact .inl hother
          · exact .inr ⟨child, hchild,
              ((h.complete child (hchildren child hchild)).privileges pattern action).mpr
                ⟨other, hpath, hother⟩⟩
    · have hold := h.complete first ((mem_cons.mp hfirst).resolve_left heq)
      constructor
      · simpa [inheritFromSubordinates, heq] using hold.indirect
      · simpa [inheritFromSubordinates, heq] using hold.privileges

/-- The roles in progress: each is a subordinate of the one before it, and none is finished. -/
structure InProgress (graph : RoleGraph types) (visited inProgress : List RoleName) : Prop where
  chain : inProgress.IsChain fun role below => HasSubordinate graph below role
  exist : ∀ role ∈ inProgress, role ∈ graph.allRoles ∧ role ∉ visited

theorem InProgress.tail (h : InProgress graph visited (role :: inProgress)) :
    InProgress graph visited inProgress where
  chain := h.chain.tail
  exist := fun other hother => h.exist other (mem_cons_of_mem _ hother)

theorem InProgress.reaches {other : RoleName} (h : InProgress graph visited (role :: inProgress))
    (hother : other ∈ inProgress) : Reaches graph other role := by
  induction inProgress generalizing role with
  | nil => exact absurd hother not_mem_nil
  | cons below inProgress ih =>
    have hstep := (isChain_cons_cons.mp h.chain).1
    rcases mem_cons.mp hother with rfl | hother
    · exact .single hstep
    · exact (ih h.tail hother).tail hstep

/-- A search ends with all roles that were to be visited, or with the error for a cycle that there
is. -/
def SearchEnds (graph : RoleGraph types) (visited roles : List RoleName)
    (result : Except Failure (RoleGraph types × List RoleName)) : Prop :=
  (∃ after, result = .ok after ∧ Searched graph after.1 after.2 ∧
      (∀ role ∈ visited, role ∈ after.2) ∧ ∀ role ∈ roles, role ∈ after.2) ∨
    ∃ status, result = .error (.status status) ∧
      status.code = ErrorCodes.GraphContainsCycle ∧ ∃ role, Reaches graph role role

theorem recomputePrivilegeDataFrom_spec (hgraph : Consistent graph)
    (hsearched : Searched graph graph' visited) (hprogress : InProgress graph visited inProgress) :
    SearchEnds graph visited inProgress (recomputePrivilegeDataFrom graph' inProgress visited) := by
  fun_induction recomputePrivilegeDataFrom graph' inProgress visited with
  | case1 graph' visited =>
    exact .inl ⟨(graph', visited), rfl, hsearched, fun _ hrole => hrole, by simp⟩
  | case2 graph' currentRole inProgress visited hvisited =>
    exact absurd hvisited (hprogress.exist currentRole mem_cons_self).2
  | case3 graph' currentRole inProgress visited hvisited hexists =>
    refine absurd ?_ hexists
    rw [roleExists, hsearched.base.allRoles]
    exact (hprogress.exist currentRole mem_cons_self).1
  | case4 graph' currentRole inProgress visited hvisited hexists hcycle =>
    exact .inr ⟨_, rfl, rfl, currentRole, hprogress.reaches hcycle⟩
  | case5 graph' currentRole inProgress visited hvisited hexists hcycle childRole hchild ih =>
    have hsubordinate : HasSubordinate graph currentRole childRole := by
      rw [HasSubordinate, ← hsearched.base.subordinates]
      exact mem_of_find?_eq_some hchild
    have hprogress' : InProgress graph visited (childRole :: currentRole :: inProgress) := by
      constructor
      · exact isChain_cons_cons.mpr ⟨hsubordinate, hprogress.chain⟩
      · exact forall_mem_cons.mpr ⟨⟨(hgraph.exist currentRole childRole hsubordinate).2, by
          simpa using List.find?_some hchild⟩, hprogress.exist⟩
    rcases ih hsearched hprogress' with ⟨after, hrun, hafter, hgrows, hdone⟩ | hcycle
    · exact .inl ⟨after, hrun, hafter, hgrows, (forall_mem_cons.mp hdone).2⟩
    · exact .inr hcycle
  | case6 graph' currentRole inProgress visited hvisited hexists hcycle hall ih =>
    have hchildren : ∀ other, HasSubordinate graph currentRole other → other ∈ visited := by
      intro other hother
      rw [HasSubordinate, ← hsearched.base.subordinates] at hother
      simpa using List.find?_eq_none.mp hall other hother
    have hprogress' : InProgress graph (currentRole :: visited) inProgress := by
      refine ⟨hprogress.tail.chain, ?_⟩
      intro role hrole
      refine ⟨(hprogress.tail.exist role hrole).1, ?_⟩
      rw [mem_cons, not_or]
      refine ⟨?_, (hprogress.tail.exist role hrole).2⟩
      rintro rfl
      exact hcycle hrole
    rcases ih (hsearched.finish hvisited hchildren) hprogress' with
      ⟨after, hrun, hafter, hgrows, hdone⟩ | hcycle
    · obtain ⟨hcurrent, hgrows⟩ := forall_mem_cons.mp hgrows
      exact .inl ⟨after, hrun, hafter, hgrows, forall_mem_cons.mpr ⟨hcurrent, hdone⟩⟩
    · exact .inr hcycle

theorem foldlM_recompute_spec (hgraph : Consistent graph) {order : List RoleName}
    (horder : ∀ role ∈ order, role ∈ graph.allRoles) (loop : RoleGraph types × List RoleName)
    (hsearched : Searched graph loop.1 loop.2) :
    SearchEnds graph loop.2 order (order.foldlM recomputePrivilegeDataHelper loop) := by
  induction order generalizing loop with
  | nil => exact .inl ⟨loop, rfl, hsearched, fun _ hrole => hrole, by simp⟩
  | cons role order ih =>
    have hrest : ∀ other ∈ order, other ∈ graph.allRoles :=
      (forall_mem_cons.mp horder).2
    rw [foldlM_cons]
    have hhelper : SearchEnds graph loop.2 [role] (recomputePrivilegeDataHelper loop role) := by
      unfold recomputePrivilegeDataHelper
      by_cases hvisited : role ∈ loop.2
      · rw [if_pos hvisited]
        exact .inl ⟨loop, rfl, hsearched, fun _ hother => hother, by simpa using hvisited⟩
      · rw [if_neg hvisited]
        exact recomputePrivilegeDataFrom_spec hgraph hsearched
          ⟨isChain_singleton _, by simpa using ⟨horder role mem_cons_self, hvisited⟩⟩
    rcases hhelper with ⟨next, hnext, hsearched', hgrows, hrole⟩ | ⟨status, herror, hcode, hcycle⟩
    · rw [hnext]
      rcases ih hrest next hsearched' with ⟨after, hrun, hafter, hgrows', hdone⟩ | hcycle
      · exact .inl ⟨after, hrun, hafter, fun other hother => hgrows' other (hgrows other hother),
          forall_mem_cons.mpr ⟨hgrows' role (hrole role mem_cons_self), hdone⟩⟩
      · exact .inr hcycle
    · rw [herror]
      exact .inr ⟨status, rfl, hcode, hcycle⟩

variable [DecidableEq ActionType]

/-- After any calls: a cycle is reported if and only if there is one; if there is none, the data
of every role is what it and the roles it reaches were granted; and the edges are the same in both
directions. -/
theorem recomputePrivilegeData_run (calls : List (RoleCall types)) (order : List RoleName)
    (horder : ∀ role, role ∈ order ↔ role ∈ (run calls).allRoles) :
    ((∃ status, (run calls).recomputePrivilegeData order = .error (.status status) ∧
        status.code = ErrorCodes.GraphContainsCycle) ↔ ∃ role, Reaches (run calls) role role) ∧
      ((¬ ∃ role, Reaches (run calls) role role) →
        ∃ after, (run calls).recomputePrivilegeData order = .ok after) ∧
      (∀ after, (run calls).recomputePrivilegeData order = .ok after →
        ∀ role ∈ (run calls).allRoles, Complete (run calls) after role) ∧
      ∀ role other, role ∈ (run calls).roleToMembers other ↔
        other ∈ (run calls).roleToSubordinates role := by
  have hgraph := consistent_run calls
  have hinit : Searched (run calls) (run calls) [] :=
    ⟨⟨rfl, rfl, rfl⟩, by simp, by simp, by simp⟩
  unfold recomputePrivilegeData
  rcases foldlM_recompute_spec hgraph (fun role hrole => (horder role).mp hrole)
    (run calls, []) hinit with
    ⟨after, hrun, hafter, -, hdone⟩ | ⟨status, hrun, hcode, hcycle⟩
  · have hacyclic : ¬ ∃ role, Reaches (run calls) role role := by
      rintro ⟨role, hcycle⟩
      obtain ⟨child, hchild, -⟩ := TransGen.head'_iff.mp hcycle
      have hrole := (horder role).mpr (hgraph.exist role child hchild).1
      exact hafter.acyclic role (hdone role hrole) hcycle
    rw [hrun]
    refine ⟨⟨?_, fun hcycle => absurd hcycle hacyclic⟩, fun _ => ⟨after.1, rfl⟩, ?_, hgraph.inverse⟩
    · rintro ⟨status, herror, -⟩
      simp [Except.map] at herror
    · intro graph' hgraph' role hrole
      obtain rfl : after.1 = graph' := by simpa [Except.map] using hgraph'
      exact hafter.complete role (hdone role ((horder role).mpr hrole))
  · rw [hrun]
    refine ⟨⟨fun _ => hcycle, fun _ => ⟨status, rfl, hcode⟩⟩, fun hno => absurd hcycle hno, ?_,
      hgraph.inverse⟩
    intro after herror
    simp [Except.map] at herror

def boolActions : ActionTypes Bool where
  values := [false, true]
  mem_values := by decide
  anyAction := true
  actionToString := toString

/-- A role that is granted to itself. -/
theorem recomputePrivilegeData_run_selfLoop : ∃ status,
    (run [RoleCall.createRole ⟨"role@db"⟩, .addRoleToRole ⟨"role@db"⟩ ⟨"role@db"⟩] :
      RoleGraph boolActions).recomputePrivilegeData [⟨"role@db"⟩] = .error (.status status) ∧
      status.code = ErrorCodes.GraphContainsCycle := by
  have hroles : (run [RoleCall.createRole ⟨"role@db"⟩, .addRoleToRole ⟨"role@db"⟩ ⟨"role@db"⟩] :
      RoleGraph boolActions).allRoles = [⟨"role@db"⟩] := by decide
  apply (recomputePrivilegeData_run _ _ (by simp [hroles])).1.mpr
  refine ⟨⟨"role@db"⟩, .single ?_⟩
  rw [HasSubordinate]
  decide

end Inheritance

end MongoServer.RoleGraph
