import Mathlib.Data.Char
import SpkEditor.Lib.Run
import SpkEditor.Lib.Table
import SpkEditor.Solutions.Config

/-!
# The solution store and its database

`solutions/src/store.rs` keeps the configuration in memory and writes every change through
to SQLite (`solutions/src/db.rs`). A restart reads the database back
(`load_from_db_blocking`).

The model has the four tables by their primary keys. `INSERT OR REPLACE` on a solution first
deletes the row that is there, and with it, by `ON DELETE CASCADE`, its members and its
panel selections. A write that a foreign key forbids fails, and then there is no step.
-/

namespace SpkEditor.Solutions

open Table

inductive PanelKind where
  | tree
  | git
deriving DecidableEq

structure CatalogRow where
  name : List Char
  remoteUrl : List Char
  defaultBranch : Option (List Char)

structure SolutionRow where
  name : List Char
  root : Path
  lastOpenedAt : Option Int

/-- `SolutionsDb`. -/
structure Db where
  catalogProjects : List Char → Option CatalogRow
  solutions : List Char → Option SolutionRow
  /-- By solution id and catalog id: the local path and the position. -/
  solutionMembers : List Char → List Char → Option (Path × Nat)
  panelMemberSelections : List Char → PanelKind → Option (List Char)

def Db.empty : Db := ⟨fun _ => none, fun _ => none, fun _ _ => none, fun _ _ => none⟩

namespace Db

variable (d : Db)

def saveCatalogProject (p : CatalogProject) : Db :=
  { d with
    catalogProjects := put d.catalogProjects p.id ⟨p.name, p.remoteUrl, p.defaultBranch⟩ }

def deleteCatalogProject (id : List Char) : Db :=
  { d with catalogProjects := delete d.catalogProjects id }

/-- `delete_solution_row`, with its cascade. -/
def deleteSolutionRow (id : List Char) : Db :=
  { d with
    solutions := delete d.solutions id
    solutionMembers := Function.update d.solutionMembers id fun _ => none
    panelMemberSelections := Function.update d.panelMemberSelections id fun _ => none }

/-- `save_solution`: a row that is there is deleted first. -/
def saveSolution (s : Solution) : Db :=
  { d.deleteSolutionRow s.id with
    solutions := put d.solutions s.id ⟨s.name, s.root.lossy, s.lastOpenedAt⟩ }

def updateLastOpened (id : List Char) (lastOpenedAt : Int) : Db :=
  { d with
    solutions := Function.update d.solutions id
      ((d.solutions id).map fun row => { row with lastOpenedAt := some lastOpenedAt }) }

/-- `set_solution_member`, under its foreign key. -/
def setSolutionMember (solutionId : List Char) (m : SolutionMember) (position : Nat) :
    Option Db :=
  if (d.solutions solutionId).isSome then
    some { d with
      solutionMembers := Function.update d.solutionMembers solutionId
        (put (d.solutionMembers solutionId) m.catalogId (m.localPath.lossy, position)) }
  else none

def setSolutionMembers (solutionId : List Char) (members : List (SolutionMember × Nat)) :
    Option Db :=
  members.foldlM (fun d p => d.setSolutionMember solutionId p.1 p.2) d

def deleteSolutionMember (solutionId catalogId : List Char) : Db :=
  { d with
    solutionMembers := Function.update d.solutionMembers solutionId
      (delete (d.solutionMembers solutionId) catalogId) }

/-- `set_panel_selection`, under its foreign key. -/
def setPanelSelection (solutionId : List Char) (panel : PanelKind) (catalogId : List Char) :
    Option Db :=
  if (d.solutions solutionId).isSome then
    some { d with
      panelMemberSelections := Function.update d.panelMemberSelections solutionId
        (put (d.panelMemberSelections solutionId) panel catalogId) }
  else none

end Db

/-- What the rows of one solution are read as. Equal positions come in any order, and an
empty catalog id counts as no member. -/
def LoadsSolution (d : Db) (row : List Char × SolutionRow) (s : Solution) : Prop :=
  s.id = row.1 ∧ s.name = row.2.name ∧ s.root = row.2.root ∧ s.lastOpenedAt = row.2.lastOpenedAt ∧
    ∃ members, Lists (d.solutionMembers row.1) members ∧
      (members.Pairwise fun a b => a.2.2 ≤ b.2.2) ∧
      s.members = (members.filter (·.1 ≠ [])).map fun m => ⟨m.1, m.2.1⟩

/-- `load_from_db_blocking` may return `c`. -/
def Loads (d : Db) (c : Config) : Prop :=
  (∃ rows, Lists d.catalogProjects rows ∧
      c.catalog = rows.map fun r => ⟨r.1, r.2.name, r.2.remoteUrl, r.2.defaultBranch⟩) ∧
    ∃ rows, Lists d.solutions rows ∧ (rows.Pairwise fun a b => a.1 ≤ b.1) ∧
      List.Forall₂ (LoadsSolution d) rows c.solutions

/-- The store, its database, and the adds whose clone is under way: the solution and the
member each will push when it completes. -/
structure Store where
  config : Config
  panelMemberSelections : List Char → PanelKind → Option (List Char)
  db : Db
  pendingAdds : List (List Char × SolutionMember)

/-- A fresh installation. -/
def Store.empty : Store := ⟨⟨[], []⟩, fun _ _ => none, Db.empty, []⟩

inductive StoreOp where
  | addCatalogProject (name remoteUrl : List Char) (defaultBranch : Option (List Char))
  | editCatalogProject (id : List Char) (name defaultBranch remoteUrl : Option (List Char))
  | removeCatalogProject (id : List Char)
  | removeCatalogProjectCascade (id : List Char)
  | createSolution (name : List Char) (rootBase : Path)
  | renameSolution (id newName : List Char)
  | deleteSolution (id : List Char)
  | touchLastOpened (id : List Char) (now : Int)
  /-- `add_member` is accepted and its task spawned. -/
  | addMember (solutionId catalogId : List Char)
  /-- The task of an accepted add records its member. -/
  | addMemberCompleted (add : List Char × SolutionMember)
  | addEmptyMember (solutionId projectName : List Char)
  | removeMember (solutionId catalogId : List Char)
  /-- With the order of the members, as the hash map gave it. -/
  | reorderMembers (solutionId : List Char) (newOrder : List (List Char))
      (result : List SolutionMember)
  | setPanelMemberSelection (solutionId : List Char) (panel : PanelKind) (catalogId : List Char)

namespace Store

variable (sha : List Char → Nat) (s : Store)

/-- A member is pushed and its row written at the position it got. -/
def recordMember (solutionId : List Char) (m : SolutionMember) (p : Nat × Config) :
    Option Store :=
  (s.db.setSolutionMember solutionId m p.1).map fun db => { s with config := p.2, db }

/-- What an operation leaves behind. It returns an error without a change where the
configuration does not admit it; `none` is a write to the database that fails. -/
def step : StoreOp → Option Store
  | .addCatalogProject name remoteUrl defaultBranch =>
    let (entry, config) := s.config.addCatalogProject sha name remoteUrl defaultBranch
    some { s with config, db := s.db.saveCatalogProject entry }
  | .editCatalogProject id name defaultBranch remoteUrl =>
    match s.config.editCatalogProject id name defaultBranch remoteUrl with
    | none => some s
    | some (entry, config) => some { s with config, db := s.db.saveCatalogProject entry }
  | .removeCatalogProject id =>
    match s.config.removeCatalogProject id with
    | none => some s
    | some config => some { s with config, db := s.db.deleteCatalogProject id }
  | .removeCatalogProjectCascade id =>
    match s.config.removeCatalogProjectCascade id with
    | none => some s
    | some (_, config) =>
      let db := config.solutionIds.foldl (fun d sid => d.deleteSolutionMember sid id) s.db
      some { s with config, db := db.deleteCatalogProject id }
  | .createSolution name rootBase =>
    let (sol, config) := s.config.createSolution sha name rootBase
    some { s with config, db := s.db.saveSolution sol }
  | .renameSolution id newName =>
    match s.config.renameSolution id newName with
    | none => some s
    | some (sol, config) => some { s with config, db := s.db.saveSolution sol }
  | .deleteSolution id =>
    match s.config.deleteSolution id with
    | none => some s
    | some config =>
      some { s with
        config
        db := s.db.deleteSolutionRow id
        panelMemberSelections := Function.update s.panelMemberSelections id fun _ => none }
  | .touchLastOpened id now =>
    match s.config.touchLastOpened id now with
    | none => some s
    | some config => some { s with config, db := s.db.updateLastOpened id now }
  | .addMember solutionId catalogId =>
    match s.config.find solutionId with
    | none => some s
    | some sol =>
      if s.config.catalog.any (·.id = catalogId) ∧ ¬ sol.members.any (·.catalogId = catalogId) then
        let m : SolutionMember := ⟨catalogId, sol.root.join catalogId⟩
        some { s with pendingAdds := s.pendingAdds ++ [(solutionId, m)] }
      else some s
  | .addMemberCompleted add =>
    if add ∈ s.pendingAdds then
      let s := { s with pendingAdds := s.pendingAdds.erase add }
      match s.config.pushMember add.1 add.2 with
      | none => some s
      | some p => s.recordMember add.1 add.2 p
    else none
  | .addEmptyMember solutionId projectName =>
    match s.config.addEmptyMember sha solutionId projectName with
    | none => some s
    | some (m, p) => s.recordMember solutionId m p
  | .removeMember solutionId catalogId =>
    match s.config.removeMember solutionId catalogId with
    | none => some s
    | some config =>
      some { s with
        config
        db := s.db.deleteSolutionMember solutionId catalogId
        panelMemberSelections := Function.update s.panelMemberSelections solutionId
          fun panel => (s.panelMemberSelections solutionId panel).filter (· ≠ catalogId) }
  | .reorderMembers solutionId _ result =>
    match s.config.find solutionId with
    | none => some s
    | some _ =>
      (s.db.setSolutionMembers solutionId result.zipIdx).map fun db =>
        { s with
          config := s.config.update solutionId fun sol => { sol with members := result }
          db }
  | .setPanelMemberSelection solutionId panel catalogId =>
    (s.db.setPanelSelection solutionId panel catalogId).map fun db =>
      { s with
        db
        panelMemberSelections := Function.update s.panelMemberSelections solutionId
          (put (s.panelMemberSelections solutionId) panel catalogId) }

/-- What a reordering may result in. -/
def Admits : StoreOp → Prop
  | .reorderMembers solutionId newOrder result =>
    ∀ sol, s.config.find solutionId = some sol → Reordered newOrder sol.members result
  | _ => True

end Store

/-- One operation whose writes succeed. -/
def StoreStep (sha : List Char → Nat) (s : Store) (op : StoreOp) (t : Store) : Prop :=
  s.step sha op = some t ∧ s.Admits op

/-- **A restart gives back what is in memory**: the catalog, each solution by its id with its
name, root and members in order, and the panel selections. -/
structure Reloads (s : Store) : Prop where
  loads : ∃ c, Loads s.db c
  catalog : ∀ c, Loads s.db c → c.catalog.Perm s.config.catalog
  solutions : ∀ c, Loads s.db c → ∀ id,
    (c.find id).map (fun sol => (sol.name, sol.root, sol.members)) =
      (s.config.find id).map fun sol => (sol.name, sol.root, sol.members)
  selections : s.db.panelMemberSelections = s.panelMemberSelections

def PositionsBelow (s : Store) (solutionId : List Char) (n : Nat) : Prop :=
  ∀ catalogId path position,
    s.db.solutionMembers solutionId catalogId = some (path, position) → position < n

/-- The operation writes to the database what it does in memory. -/
def WritesThrough (s : Store) : StoreOp → Prop
  | .createSolution _ rootBase => rootBase.lossy = rootBase
  | .renameSolution id _ =>
    (∀ sol, s.config.find id = some sol → sol.members = []) ∧
      ∀ panel, s.panelMemberSelections id panel = none
  | .removeMember solutionId catalogId =>
    s.config.removeMember solutionId catalogId ≠ none →
      ∀ panel, s.panelMemberSelections solutionId panel ≠ some catalogId
  | .addMemberCompleted add =>
    ∀ sol, s.config.find add.1 = some sol → add.2.catalogId ∉ sol.members.map (·.catalogId) ∧
        PositionsBelow s add.1 sol.members.length
  | .addEmptyMember solutionId _ =>
    ∀ sol, s.config.find solutionId = some sol → PositionsBelow s solutionId sol.members.length
  | _ => True

end SpkEditor.Solutions
