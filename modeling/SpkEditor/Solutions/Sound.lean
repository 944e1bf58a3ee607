import SpkEditor.Solutions.Config

/-!
# Where the members are

What the store's mutators make of a configuration: every member lies in its solution's
directory under its id, no two members of a solution share an id, and no solution lies in
another. The mutators that take something away keep that; a push keeps it when the id is
free.
-/

namespace SpkEditor.Solutions

open List Option

variable {c c' : Config} {m : SolutionMember} {sid : List Char}

/-- Neither of two directories lies in the other. -/
def Path.Apart (p q : Path) : Prop := ¬ p <+: q ∧ ¬ q <+: p

theorem Path.join_injective {p : Path} {a b : List Char} (h : p.join a = p.join b) : a = b := by
  have h' : [utf8 a] = [utf8 b] := append_cancel_left h
  exact utf8_injective (List.cons.inj h').1

/-- In one directory, one entry lies in another only if they are the same. -/
theorem Path.eq_of_join_prefix_join {p : Path} {a b : List Char} (h : p.join a <+: p.join b) :
    a = b :=
  Path.join_injective (h.eq_of_length (by simp [Path.join]))

theorem Path.Apart.not_join {p q : Path} (h : p.Apart q) (a b : List Char) :
    ¬ p.join a <+: q.join b := by
  intro hab
  have hp : p <+: q.join b := (prefix_append p [utf8 a]).trans hab
  have hq : q <+: q.join b := prefix_append q [utf8 b]
  rcases prefix_or_prefix_of_prefix hp hq with hpq | hqp
  · exact h.1 hpq
  · exact h.2 hqp

/-! ## Configurations -/

namespace Config

/-- What the store's own mutators make: ids name one solution and, in it, one member, a
member lies in its solution under its id, and no solution lies in another. -/
structure Sound (c : Config) : Prop where
  ids : c.solutionIds.Nodup
  memberIds : ∀ sol ∈ c.solutions, (sol.members.map (·.catalogId)).Nodup
  paths : ∀ sol ∈ c.solutions, ∀ m ∈ sol.members, m.localPath = sol.root.join m.catalogId
  apart : ∀ sol ∈ c.solutions, ∀ sol' ∈ c.solutions, sol.id ≠ sol'.id → sol.root.Apart sol'.root

/-- The solutions of one configuration come from those of another, with fewer members. -/
structure Shrinks (c c' : Config) : Prop where
  ids : c'.solutionIds.Sublist c.solutionIds
  solution : ∀ sol' ∈ c'.solutions, ∃ sol ∈ c.solutions,
    sol.id = sol'.id ∧ sol.root = sol'.root ∧ sol'.members.Sublist sol.members

theorem Sound.shrink (h : c.Sound) (hc : c.Shrinks c') : c'.Sound where
  ids := h.ids.sublist hc.ids
  memberIds := by
    intro sol' hsol'
    obtain ⟨sol, hsol, -, -, hsub⟩ := hc.solution sol' hsol'
    exact (h.memberIds sol hsol).sublist (hsub.map _)
  paths := by
    intro sol' hsol' m hm
    obtain ⟨sol, hsol, -, hroot, hsub⟩ := hc.solution sol' hsol'
    rw [← hroot]
    exact h.paths sol hsol m (hsub.subset hm)
  apart := by
    intro a' ha' b' hb' hne
    obtain ⟨a, ha, hida, hroota, -⟩ := hc.solution a' ha'
    obtain ⟨b, hb, hidb, hrootb, -⟩ := hc.solution b' hb'
    rw [← hroota, ← hrootb]
    exact h.apart a ha b hb (by rw [hida, hidb]; exact hne)

theorem shrinks_removeMember {cid : List Char}
    (h : c.removeMember sid cid = some c') : c.Shrinks c' := by
  simp only [removeMember, bind_eq_some_iff] at h
  obtain ⟨sol, -, h⟩ := h
  split at h
  · cases h
    refine ⟨?_, ?_⟩
    · rw [solutionIds_update c sid (by simp)]
    · intro sol' hsol'
      obtain ⟨sol, hsol, rfl⟩ := List.mem_map.mp hsol'
      refine ⟨sol, hsol, ?_⟩
      by_cases hid : sol.id = sid
      · simp only [hid, if_true, true_and]
        exact filter_sublist
      · simp [hid]
  · simp at h

theorem shrinks_removeCatalogProject {id : List Char}
    (h : c.removeCatalogProject id = some c') : c.Shrinks c' := by
  rw [removeCatalogProject] at h
  split at h
  · simp at h
  · cases h
    exact ⟨.refl _, fun sol hsol => ⟨sol, hsol, rfl, rfl, .refl _⟩⟩

theorem shrinks_removeCatalogProjectCascade {id : List Char} {ps : List Path}
    (h : c.removeCatalogProjectCascade id = some (ps, c')) : c.Shrinks c' := by
  rw [removeCatalogProjectCascade] at h
  split at h
  · cases h
    refine ⟨?_, ?_⟩
    · simp [solutionIds, dropMembers, dropCatalogEntry, Function.comp_def]
    · intro sol' hsol'
      obtain ⟨sol, hsol, rfl⟩ := List.mem_map.mp hsol'
      exact ⟨sol, hsol, rfl, rfl, filter_sublist⟩
  · simp at h

theorem shrinks_deleteSolution {id : List Char}
    (h : c.deleteSolution id = some c') : c.Shrinks c' := by
  rw [deleteSolution] at h
  split at h
  · cases h
    refine ⟨List.filter_sublist.map _, ?_⟩
    intro sol hsol
    exact ⟨sol, (List.mem_filter.mp hsol).1, rfl, rfl, .refl _⟩
  · simp at h

theorem mem_of_find {sol : Solution} (h : c.find sid = some sol) :
    sol ∈ c.solutions ∧ sol.id = sid :=
  ⟨List.mem_of_find?_eq_some h, by simpa using List.find?_some h⟩

section

variable {p : Nat} (h : c.pushMember sid m = some (p, c'))
include h

theorem mem_solutions_pushMember {sol' : Solution} (hsol' : sol' ∈ c'.solutions) :
    ∃ sol ∈ c.solutions, sol.id = sol'.id ∧ sol.root = sol'.root ∧
      sol'.members = sol.members ++ if sol.id = sid then [m] else [] := by
  simp only [pushMember, map_eq_some_iff] at h
  obtain ⟨_, _, h⟩ := h
  cases h
  obtain ⟨sol, hsol, rfl⟩ := List.mem_map.mp hsol'
  refine ⟨sol, hsol, ?_⟩
  by_cases hid : sol.id = sid
  · simp [hid]
  · simp [hid]

theorem solutionIds_pushMember : c'.solutionIds = c.solutionIds := by
  simp only [pushMember, map_eq_some_iff] at h
  obtain ⟨_, _, h⟩ := h
  cases h
  exact solutionIds_update c sid (by simp)

end

/-- **A push keeps the configuration sound** when the id is free and the path is its own. -/
theorem Sound.push {p : Nat} (h : c.Sound) (hp : c.pushMember sid m = some (p, c'))
    (hm : ∀ sol ∈ c.solutions, sol.id = sid →
      m.localPath = sol.root.join m.catalogId ∧ ∀ x ∈ sol.members, x.catalogId ≠ m.catalogId) :
    c'.Sound where
  ids := by
    rw [solutionIds_pushMember hp]
    exact h.ids
  memberIds := by
    intro sol' hsol'
    obtain ⟨sol, hsol, -, -, hmem⟩ := mem_solutions_pushMember hp hsol'
    rw [hmem]
    split
    · rename_i hid
      rw [map_append, nodup_append]
      refine ⟨h.memberIds sol hsol, by simp, ?_⟩
      intro a ha b hb
      obtain ⟨x, hx, rfl⟩ := List.mem_map.mp ha
      rw [map_singleton, mem_singleton] at hb
      rw [hb]
      exact (hm sol hsol hid).2 x hx
    · simpa using h.memberIds sol hsol
  paths := by
    intro sol' hsol' x hx
    obtain ⟨sol, hsol, -, hroot, hmem⟩ := mem_solutions_pushMember hp hsol'
    rw [hmem, mem_append] at hx
    rw [← hroot]
    rcases hx with hx | hx
    · exact h.paths sol hsol x hx
    · split at hx
      · rename_i hid
        rw [List.mem_singleton.mp hx]
        exact (hm sol hsol hid).1
      · simp at hx
  apart := by
    intro a' ha' b' hb' hne
    obtain ⟨a, ha, hida, hroota, -⟩ := mem_solutions_pushMember hp ha'
    obtain ⟨b, hb, hidb, hrootb, -⟩ := mem_solutions_pushMember hp hb'
    rw [← hroota, ← hrootb]
    exact h.apart a ha b hb (by rw [hida, hidb]; exact hne)

/-- What `add_empty_member` pushes: the slug is free in the solution. -/
theorem pushMember_of_addEmptyMember {sha : List Char → Nat} {name : List Char} {p : Nat}
    (h : c.addEmptyMember sha sid name = some (m, p, c')) :
    ∃ sol, c.find sid = some sol ∧ c.pushMember sid m = some (p, c') ∧
      m.localPath = sol.root.join m.catalogId ∧ ∀ x ∈ sol.members, x.catalogId ≠ m.catalogId := by
  rw [addEmptyMember] at h
  split at h
  · simp at h
  · simp only [bind_eq_some_iff, map_eq_some_iff] at h
    obtain ⟨sol, hfind, ⟨p', c₁⟩, hpush, h⟩ := h
    obtain ⟨rfl, rfl, rfl⟩ := h
    refine ⟨sol, hfind, hpush, rfl, ?_⟩
    intro x hx heq
    exact uniqueSlug_not_mem sha _ _ (List.mem_map.mpr ⟨x, hx, heq⟩)

theorem Sound.eq_of_id (h : c.Sound) {a b : Solution} (ha : a ∈ c.solutions)
    (hb : b ∈ c.solutions) (hid : a.id = b.id) : a = b :=
  inj_on_of_nodup_map h.ids ha hb hid

end Config

end SpkEditor.Solutions
