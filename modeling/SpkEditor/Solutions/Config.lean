import Mathlib.Data.List.Lex
import SpkEditor.Lib.Utf8
import SpkEditor.Lib.Cut
import Mathlib.Data.List.Nodup
import Mathlib.Data.List.Perm.Subperm
import Mathlib.Algebra.Order.Ring.Nat

/-!
# Solutions and the catalog

The data of the `solutions` crate and what its mutators do to the configuration in memory
(`solutions/src/model.rs`, `slug.rs`, the in-memory half of `store.rs`). Ids are slugs of
names, made unique against the ids in use; the digest that names what has no slug is a
parameter.
-/

namespace SpkEditor.Solutions

open Cut

/-- A path by its components. A component is any bytes, as the system allows. -/
abbrev Path := List (List UInt8)

/-- `Path::join` with a slug, which is never absolute. -/
def Path.join (p : Path) (component : List Char) : Path := List.append p [utf8 component]

/-- What is left of a path that went through `to_string_lossy`. -/
def Path.lossy (p : Path) : Path := List.map (fun c => utf8 (fromUtf8Lossy c)) p

theorem Path.lossy_join (p : Path) (component : List Char) :
    (p.join component).lossy = p.lossy.join component := by
  simp [Path.lossy, Path.join, fromUtf8Lossy_utf8]

structure CatalogProject where
  id : List Char
  name : List Char
  remoteUrl : List Char
  defaultBranch : Option (List Char)

structure SolutionMember where
  catalogId : List Char
  localPath : Path
deriving DecidableEq

structure Solution where
  id : List Char
  name : List Char
  root : Path
  members : List SolutionMember
  /-- In milliseconds. -/
  lastOpenedAt : Option Int

/-- `SolutionsConfig`. -/
structure Config where
  catalog : List CatalogProject
  solutions : List Solution

/-- The loop of `slugify`: runs of other characters become one dash. -/
def slugChars : Bool → List Char → List Char
  | _, [] => []
  | lastWasSep, ch :: rest =>
    if ch.toLower.isAlphanum then ch.toLower :: slugChars false rest
    else if lastWasSep then slugChars true rest
    else '-' :: slugChars true rest

section

-- the first four bytes of the digest of a name
variable (sha : List Char → Nat)

def slugify (input : List Char) : List Char :=
  let out := (slugChars true input).rdropWhile (· = '-')
  if out = [] then "repo-".toList ++ Nat.toDigits 16 (sha input) else out

/-- `{base}-{n}`. -/
def numbered (base : List Char) (n : Nat) : List Char := base ++ '-' :: Nat.toDigits 10 n

/-- The loop of `unique_slug`; as many candidates as there are slugs taken are enough. -/
def uniqueFrom (base : List Char) (taken : List (List Char)) : Nat → Nat → List Char
  | 0, n => numbered base n
  | fuel + 1, n =>
    if numbered base n ∈ taken then uniqueFrom base taken fuel (n + 1) else numbered base n

def uniqueSlug (name : List Char) (taken : List (List Char)) : List Char :=
  let base := slugify sha name
  if base ∈ taken then uniqueFrom base taken taken.length 2 else base

theorem numbered_injective {base : List Char} {m n : Nat} (h : numbered base m = numbered base n) :
    m = n := by
  have hd : Nat.toDigits 10 m = Nat.toDigits 10 n := (List.cons.inj (List.append_cancel_left h)).2
  have := congrArg (Nat.ofDigitChars 10 · 0) hd
  simpa [Nat.ofDigitChars_ten_toDigits] using this

/-- The loop gives up only behind candidates that are all taken. -/
theorem uniqueFrom_mem {base : List Char} {taken : List (List Char)} {fuel n : Nat}
    (h : uniqueFrom base taken fuel n ∈ taken) :
    ∀ k ≤ fuel, numbered base (n + k) ∈ taken := by
  induction fuel generalizing n with
  | zero =>
    intro k hk
    obtain rfl : k = 0 := by omega
    exact h
  | succ fuel ih =>
    rw [uniqueFrom] at h
    split at h
    · rename_i hn
      intro k hk
      cases k with
      | zero => exact hn
      | succ k =>
        have := ih h k (by omega)
        rwa [show n + 1 + k = n + (k + 1) by omega] at this
    · exact absurd h (by assumption)

theorem uniqueSlug_not_mem (name : List Char) (taken : List (List Char)) :
    uniqueSlug sha name taken ∉ taken := by
  rw [uniqueSlug]
  split
  · intro h
    -- one candidate more than there are slugs cannot all be taken
    have hall := uniqueFrom_mem h
    have hsub : ((List.range (taken.length + 1)).map fun k => numbered (slugify sha name) (2 + k)) ⊆
        taken := by
      intro x hx
      obtain ⟨k, hk, rfl⟩ := List.mem_map.mp hx
      exact hall k (by have := List.mem_range.mp hk; omega)
    have hnodup : ((List.range (taken.length + 1)).map
        fun k => numbered (slugify sha name) (2 + k)).Nodup := by
      refine List.Nodup.map (fun a b hab => ?_) List.nodup_range
      have := numbered_injective hab
      omega
    have := (List.subperm_of_subset hnodup hsub).length_le
    simp at this
  · assumption

theorem slugify_ne_nil (input : List Char) : slugify sha input ≠ [] := by
  rw [slugify]
  split
  · simp
  · assumption

theorem uniqueFrom_ne_nil (base : List Char) (taken : List (List Char)) (fuel n : Nat) :
    uniqueFrom base taken fuel n ≠ [] := by
  induction fuel generalizing n with
  | zero => simp [uniqueFrom, numbered]
  | succ fuel ih =>
    rw [uniqueFrom]
    split
    · exact ih (n + 1)
    · simp [numbered]

theorem uniqueSlug_ne_nil (name : List Char) (taken : List (List Char)) :
    uniqueSlug sha name taken ≠ [] := by
  rw [uniqueSlug]
  split
  · exact uniqueFrom_ne_nil _ _ _ _
  · exact slugify_ne_nil _ _

end

/-! ## The configuration -/

namespace Config

variable (c : Config)

def solutionIds : List (List Char) := c.solutions.map (·.id)

def catalogIds : List (List Char) := c.catalog.map (·.id)

def find (id : List Char) : Option Solution := c.solutions.find? (·.id = id)

/-- `find_solution_mut` and a change of what it finds. Ids are unique, so the first
solution with an id is the only one. -/
def update (id : List Char) (f : Solution → Solution) : Config :=
  { c with solutions := c.solutions.map fun s => if s.id = id then f s else s }

@[simp] theorem solutionIds_update (id : List Char) {f : Solution → Solution}
    (hf : ∀ s, (f s).id = s.id) : (c.update id f).solutionIds = c.solutionIds := by
  rw [solutionIds, solutionIds, update, List.map_map]
  refine List.map_congr_left fun s _ => ?_
  by_cases h : s.id = id
  · simp [h, hf]
  · simp [h]

/-- `add_catalog_project`. -/
def addCatalogProject (sha : List Char → Nat) (name remoteUrl : List Char)
    (defaultBranch : Option (List Char)) : CatalogProject × Config :=
  let entry : CatalogProject := ⟨uniqueSlug sha name c.catalogIds, name, remoteUrl, defaultBranch⟩
  (entry, { c with catalog := c.catalog ++ [entry] })

/-- The entry `edit_catalog_project` leaves: what is not given stays. -/
def editEntry (p : CatalogProject) (name defaultBranch remoteUrl : Option (List Char)) :
    CatalogProject :=
  { p with
    name := name.getD p.name
    defaultBranch := defaultBranch.or p.defaultBranch
    remoteUrl := remoteUrl.getD p.remoteUrl }

/-- `edit_catalog_project`: the entry as it is now. -/
def editCatalogProject (id : List Char) (name defaultBranch remoteUrl : Option (List Char)) :
    Option (CatalogProject × Config) :=
  (c.catalog.find? (·.id = id)).map fun p =>
    (editEntry p name defaultBranch remoteUrl,
      { c with
        catalog := c.catalog.map fun p =>
          if p.id = id then editEntry p name defaultBranch remoteUrl else p })

/-- Some member of some solution is of this catalog entry. -/
def isReferenced (id : List Char) : Bool :=
  c.solutions.any fun s => s.members.any fun m => m.catalogId = id

def dropCatalogEntry (id : List Char) : Config :=
  { c with catalog := c.catalog.filter (·.id ≠ id) }

/-- `remove_catalog_project`. -/
def removeCatalogProject (id : List Char) : Option Config :=
  if c.isReferenced id then none else some (c.dropCatalogEntry id)

def dropMembers (id : List Char) : Config :=
  { c with
    solutions := c.solutions.map fun s =>
      { s with members := s.members.filter (·.catalogId ≠ id) } }

/-- `remove_catalog_project_cascade`: the directories left to remove. -/
def removeCatalogProjectCascade (id : List Char) : Option (List Path × Config) :=
  if id ∈ c.catalogIds then
    some (c.solutions.flatMap fun s => (s.members.filter (·.catalogId = id)).map (·.localPath),
      (c.dropMembers id).dropCatalogEntry id)
  else none

/-- `create_solution`. -/
def createSolution (sha : List Char → Nat) (name : List Char) (rootBase : Path) :
    Solution × Config :=
  let slug := uniqueSlug sha name c.solutionIds
  let sol : Solution := ⟨slug, name, rootBase.join slug, [], none⟩
  (sol, { c with solutions := c.solutions ++ [sol] })

/-- `rename_solution`. -/
def renameSolution (id newName : List Char) : Option (Solution × Config) :=
  (c.find id).map fun s => ({ s with name := newName }, c.update id fun s => { s with name := newName })

/-- `delete_solution`. -/
def deleteSolution (id : List Char) : Option Config :=
  if id ∈ c.solutionIds then some { c with solutions := c.solutions.filter (·.id ≠ id) } else none

/-- `touch_last_opened`. -/
def touchLastOpened (id : List Char) (now : Int) : Option Config :=
  (c.find id).map fun _ => c.update id fun s => { s with lastOpenedAt := some now }

/-- `remove_member`. -/
def removeMember (solutionId catalogId : List Char) : Option Config :=
  (c.find solutionId).bind fun s =>
    if s.members.any (·.catalogId = catalogId) then
      some (c.update solutionId fun s =>
        { s with members := s.members.filter (·.catalogId ≠ catalogId) })
    else none

/-- A member at the end of a solution, and the position it gets. -/
def pushMember (solutionId : List Char) (m : SolutionMember) : Option (Nat × Config) :=
  (c.find solutionId).map fun s =>
    (s.members.length, c.update solutionId fun s => { s with members := s.members ++ [m] })

/-- `add_empty_member`, once its directory is there. -/
def addEmptyMember (sha : List Char → Nat) (solutionId projectName : List Char) :
    Option (SolutionMember × Nat × Config) :=
  let trimmed := trim projectName
  if trimmed = [] then none
  else
    (c.find solutionId).bind fun s =>
      let slug := uniqueSlug sha trimmed (s.members.map (·.catalogId))
      let m : SolutionMember := ⟨slug, s.root.join slug⟩
      (c.pushMember solutionId m).map fun p => (m, p)

end Config

def byId (members : List SolutionMember) : List SolutionMember :=
  members.foldl (fun acc m => acc.filter (·.catalogId ≠ m.catalogId) ++ [m]) []

def takeInOrder : List (List Char) → List SolutionMember →
    List SolutionMember × List SolutionMember
  | [], left => ([], left)
  | id :: order, left =>
    match left.find? (·.catalogId = id) with
    | none => takeInOrder order left
    | some m =>
      let p := takeInOrder order (left.filter (·.catalogId ≠ id))
      (m :: p.1, p.2)

/-- `reorder_members`. What the order does not name follows in the order of the map, which
is any. -/
def Reordered (order : List (List Char)) (members result : List SolutionMember) : Prop :=
  ∃ rest, rest.Perm (takeInOrder order (byId members)).2 ∧
    result = (takeInOrder order (byId members)).1 ++ rest

end SpkEditor.Solutions
