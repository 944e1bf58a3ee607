import Mathlib.Data.List.Sort
import SpkEditor.Solutions.Store

/-!
# What a restart gives back

The invariant of a store that writes through: the tables list what is in memory, and the
stored positions of a solution's members rise in the order of the members. Every operation
that writes through keeps it, and whatever the database returns under it is the
configuration in memory.
-/

namespace SpkEditor.Solutions

open Table List

variable {members : List SolutionMember} {positions : List Nat}

def catalogRow (p : CatalogProject) : List Char × CatalogRow :=
  (p.id, ⟨p.name, p.remoteUrl, p.defaultBranch⟩)

def solutionRow (s : Solution) : List Char × SolutionRow :=
  (s.id, ⟨s.name, s.root.lossy, s.lastOpenedAt⟩)

def memberRows (members : List SolutionMember) (positions : List Nat) :
    List (List Char × Path × Nat) :=
  List.zipWith (fun m p => (m.catalogId, m.localPath.lossy, p)) members positions

def ListsMembers (t : List Char → Option (Path × Nat)) (members : List SolutionMember) : Prop :=
  ∃ positions, positions.length = members.length ∧ positions.Pairwise (· < ·) ∧
    Lists t (memberRows members positions)

/-- What a member must be to survive the database. -/
def Storable (m : SolutionMember) : Prop := m.catalogId ≠ [] ∧ m.localPath.lossy = m.localPath

/-- The database holds what is in memory. -/
structure Agrees (s : Store) : Prop where
  catalog : Lists s.db.catalogProjects (s.config.catalog.map catalogRow)
  catalogIds : ∀ id ∈ s.config.catalogIds, id ≠ []
  solutions : Lists s.db.solutions (s.config.solutions.map solutionRow)
  roots : ∀ sol ∈ s.config.solutions, sol.root.lossy = sol.root
  members : ∀ sol ∈ s.config.solutions, ListsMembers (s.db.solutionMembers sol.id) sol.members
  storable : ∀ sol ∈ s.config.solutions, ∀ m ∈ sol.members, Storable m
  noMembers : ∀ id, id ∉ s.config.solutionIds → s.db.solutionMembers id = fun _ => none
  selections : s.db.panelMemberSelections = s.panelMemberSelections
  noSelections : ∀ id, id ∉ s.config.solutionIds → s.panelMemberSelections id = fun _ => none
  pending : ∀ add ∈ s.pendingAdds, Storable add.2

/-! ## Rows of members -/

theorem map_fst_memberRows (h : positions.length = members.length) :
    (memberRows members positions).map Prod.fst = members.map (·.catalogId) := by
  induction members generalizing positions with
  | nil => simp [memberRows]
  | cons m members ih =>
    cases positions with
    | nil => simp at h
    | cons p positions =>
      have := @ih positions (by simpa using h)
      simpa [memberRows] using this

theorem ListsMembers.nodup {t : List Char → Option (Path × Nat)}
    (h : ListsMembers t members) : (members.map (·.catalogId)).Nodup := by
  obtain ⟨positions, hlen, -, hl⟩ := h
  rw [← map_fst_memberRows hlen]
  exact hl.1

theorem pairwise_memberRows (h : positions.Pairwise (· < ·)) :
    (memberRows members positions).Pairwise fun a b => a.2.2 < b.2.2 := by
  induction members generalizing positions with
  | nil => simp [memberRows]
  | cons m members ih =>
    cases positions with
    | nil => simp [memberRows]
    | cons p positions =>
      obtain ⟨hp, hps⟩ := List.pairwise_cons.mp h
      have htail := ih hps
      refine List.pairwise_cons.mpr ⟨?_, htail⟩
      intro row hrow
      have : row.2.2 ∈ positions := by
        obtain ⟨i, hi, rfl⟩ := getElem_of_mem hrow
        simp
      exact hp _ this

theorem read_memberRows
    (hlen : positions.length = members.length) (hs : ∀ m ∈ members, Storable m) :
    ((memberRows members positions).filter (·.1 ≠ [])).map
      (fun m => (⟨m.1, m.2.1⟩ : SolutionMember)) = members := by
  induction members generalizing positions with
  | nil => simp [memberRows]
  | cons m members ih =>
    cases positions with
    | nil => simp at hlen
    | cons p positions =>
      obtain ⟨hid, hpath⟩ := hs m (mem_cons_self ..)
      have := @ih positions (by simpa using hlen)
        fun m' hm' => hs m' (mem_cons_of_mem _ hm')
      rw [memberRows] at this
      rw [memberRows, zipWith_cons_cons, filter_cons_of_pos (by simpa using hid),
        map_cons, this, hpath]

theorem ListsMembers.read_eq {t : List Char → Option (Path × Nat)}
    (h : ListsMembers t members) (hs : ∀ m ∈ members, Storable m)
    {rows : List (List Char × Path × Nat)} (hl : Lists t rows)
    (hsorted : rows.Pairwise fun a b => a.2.2 ≤ b.2.2) :
    (rows.filter (·.1 ≠ [])).map (fun m => (⟨m.1, m.2.1⟩ : SolutionMember)) = members := by
  obtain ⟨positions, hlen, hp, hrows⟩ := h
  rw [hrows.eq_of_rank (fun v => v.2) hl (pairwise_memberRows hp) hsorted]
  exact read_memberRows hlen hs

/-! ## Reloading -/

section

variable {s : Store}

theorem Agrees.nodup (h : Agrees s) : s.config.solutionIds.Nodup := by
  have := h.solutions.1
  rwa [List.map_map] at this

theorem find_of_mem {c : Config} (hn : c.solutionIds.Nodup) {sol : Solution}
    (h : sol ∈ c.solutions) : c.find sol.id = some sol := by
  cases hf : c.find sol.id with
  | none =>
    have := List.find?_eq_none.mp hf sol h
    simp at this
  | some sol' =>
    have hid : sol'.id = sol.id := by simpa using List.find?_some hf
    rw [inj_on_of_nodup_map hn (List.mem_of_find?_eq_some hf) h hid]

section

variable (h : Agrees s)
include h

theorem Agrees.loadsSolution_eq {row : List Char × SolutionRow} {sol' : Solution}
    (hrow : s.db.solutions row.1 = some row.2) (hl : LoadsSolution s.db row sol') :
    ∃ sol ∈ s.config.solutions, sol'.id = sol.id ∧ sol'.name = sol.name ∧ sol'.root = sol.root ∧
      sol'.members = sol.members := by
  obtain ⟨sol, hsol, he⟩ := List.mem_map.mp ((h.solutions.2 row.1 row.2).mpr hrow)
  obtain rfl : solutionRow sol = row := he
  obtain ⟨hid, hname, hroot, -, rows, hrows, hsorted, hmembers⟩ := hl
  refine ⟨sol, hsol, hid, hname, ?_, ?_⟩
  · rw [hroot]
    exact h.roots sol hsol
  · rw [hmembers]
    exact (h.members sol hsol).read_eq (h.storable sol hsol) hrows hsorted

theorem Agrees.catalog_perm {c : Config} (hc : Loads s.db c) :
    c.catalog.Perm s.config.catalog := by
  obtain ⟨⟨rows, hrows, hcat⟩, -⟩ := hc
  have hp := (hrows.perm h.catalog).map
    fun r : List Char × CatalogRow => (⟨r.1, r.2.name, r.2.remoteUrl, r.2.defaultBranch⟩ :
      CatalogProject)
  rw [hcat]
  refine hp.trans (List.Perm.of_eq ?_)
  rw [List.map_map]
  exact map_id'' (fun _ => rfl) _

theorem Agrees.find_eq {c : Config} (hc : Loads s.db c) (id : List Char) :
    (c.find id).map (fun sol => (sol.name, sol.root, sol.members)) =
      (s.config.find id).map fun sol => (sol.name, sol.root, sol.members) := by
  obtain ⟨-, rows, hrows, -, hall⟩ := hc
  cases hf : c.find id with
  | some sol' =>
    have hid : sol'.id = id := by simpa using List.find?_some hf
    obtain ⟨i, hi, rfl⟩ := getElem_of_mem (List.mem_of_find?_eq_some hf)
    have hi' : i < rows.length := by rw [hall.length_eq]; exact hi
    have hload := (List.forall₂_iff_get.mp hall).2 i hi' hi
    have hrow := (hrows.2 (rows.get ⟨i, hi'⟩).1 (rows.get ⟨i, hi'⟩).2).mp (List.get_mem ..)
    obtain ⟨sol, hsol, hid', hname, hroot, hmembers⟩ := h.loadsSolution_eq hrow hload
    have hfind : s.config.find id = some sol := by
      rw [← hid, show c.solutions[i].id = sol.id from hid']
      exact find_of_mem h.nodup hsol
    rw [hfind]
    exact congrArg some (Prod.ext hname (Prod.ext hroot hmembers))
  | none =>
    cases hf' : s.config.find id with
    | none => rfl
    | some sol =>
      -- its row was read, so the loaded configuration has it too
      have hsol := List.mem_of_find?_eq_some hf'
      have hid : sol.id = id := by simpa using List.find?_some hf'
      have hmem : solutionRow sol ∈ rows := by
        exact (hrows.2 _ _).mpr ((h.solutions.2 _ _).mp (List.mem_map.mpr ⟨sol, hsol, rfl⟩))
      obtain ⟨i, hi, he⟩ := getElem_of_mem hmem
      have hi' : i < c.solutions.length := by rw [← hall.length_eq]; exact hi
      have hload := (List.forall₂_iff_get.mp hall).2 i hi hi'
      have hsid : c.solutions[i].id = id := by
        have := hload.1
        rw [get_eq_getElem, get_eq_getElem, he] at this
        rw [this, ← hid]
        rfl
      have := List.find?_eq_none.mp hf c.solutions[i] (getElem_mem hi')
      simp [hsid] at this

theorem Agrees.loads : ∃ c, Loads s.db c := by
  let sols := s.config.solutions.insertionSort fun a b => a.id ≤ b.id
  have hperm : sols.Perm s.config.solutions := perm_insertionSort _ _
  refine ⟨⟨s.config.catalog, sols.map fun sol => { sol with root := sol.root.lossy }⟩,
    ⟨_, h.catalog, ?_⟩, sols.map solutionRow, h.solutions.of_perm (hperm.map _), ?_, ?_⟩
  · rw [List.map_map]
    exact (map_id'' (fun _ => rfl) _).symm
  · rw [pairwise_map]
    exact pairwise_insertionSort (fun a b : Solution => a.id ≤ b.id) s.config.solutions
  · rw [forall₂_map_left_iff, forall₂_map_right_iff, forall₂_same]
    intro sol hsol
    have hsol' := hperm.mem_iff.mp hsol
    obtain ⟨positions, hlen, hp, hrows⟩ := h.members sol hsol'
    exact ⟨rfl, rfl, rfl, rfl, _, hrows, (pairwise_memberRows hp).imp fun h => Nat.le_of_lt h,
      (read_memberRows hlen (h.storable sol hsol')).symm⟩

/-- **A store that agrees with its database is reloaded.** -/
theorem Agrees.reloads : Reloads s where
  loads := h.loads
  catalog _ hc := h.catalog_perm hc
  solutions _ hc := h.find_eq hc
  selections := h.selections

end

end

end SpkEditor.Solutions
