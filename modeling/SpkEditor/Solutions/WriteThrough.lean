import SpkEditor.Solutions.Reload

/-!
# The store writes through

Each operation of the store keeps the agreement with the database, under the condition that
it writes through; and so does every run.
-/

namespace SpkEditor.Solutions

open Table List Option

variable {id : List Char} {members : List SolutionMember} {sol : Solution}

section

variable {t : List Char → Option (Path × Nat)} (h : ListsMembers t members)
include h

/-- A new member goes behind the others, if no position is beyond their number. -/
theorem ListsMembers.push {m : SolutionMember}
    (hm : m.catalogId ∉ members.map (·.catalogId))
    (hb : ∀ id path position, t id = some (path, position) → position < members.length) :
    ListsMembers (put t m.catalogId (m.localPath.lossy, members.length)) (members ++ [m]) := by
  obtain ⟨positions, hlen, hp, hl⟩ := h
  refine ⟨positions ++ [members.length], by simp [hlen], ?_, ?_⟩
  · rw [pairwise_append]
    refine ⟨hp, pairwise_singleton .., ?_⟩
    intro p hpm q hq
    obtain rfl := List.mem_singleton.mp hq
    -- the position stands in some row of the table
    obtain ⟨i, hi, rfl⟩ := getElem_of_mem hpm
    have hi' : i < members.length := hlen ▸ hi
    have hrow : (members[i].catalogId, members[i].localPath.lossy, positions[i]) ∈
        memberRows members positions := by
      refine List.mem_iff_getElem.mpr ⟨i, by simp [memberRows, hi, hi'], by simp [memberRows]⟩
    exact hb _ _ _ ((hl.2 _ _).mp hrow)
  · rw [memberRows, zipWith_append hlen.symm]
    exact hl.put _ (by rw [map_fst_memberRows hlen]; exact hm)

theorem ListsMembers.remove (id : List Char) :
    ListsMembers (delete t id) (members.filter (·.catalogId ≠ id)) := by
  obtain ⟨positions, hlen, hp, hl⟩ := h
  have key : ∀ (members : List SolutionMember) (positions : List Nat),
      positions.length = members.length → ∃ kept, Sublist kept positions ∧
        kept.length = (members.filter (·.catalogId ≠ id)).length ∧
        (memberRows members positions).filter (·.1 ≠ id) =
          memberRows (members.filter (·.catalogId ≠ id)) kept := by
    intro members
    induction members with
    | nil => exact fun positions _ => ⟨[], nil_sublist _, rfl, by simp [memberRows]⟩
    | cons m members ih =>
      intro positions hlen
      cases positions with
      | nil => simp at hlen
      | cons p positions =>
        obtain ⟨kept, hsub, hklen, hrows⟩ := ih positions (by simpa using hlen)
        rw [memberRows] at hrows
        by_cases hm : m.catalogId = id
        · refine ⟨kept, hsub.cons p, ?_, ?_⟩
          · rw [filter_cons_of_neg (by simpa using hm), hklen]
          · rw [memberRows, zipWith_cons_cons,
              filter_cons_of_neg (by simpa using hm),
              filter_cons_of_neg (by simpa using hm), hrows]
        · refine ⟨p :: kept, hsub.cons_cons p, ?_, ?_⟩
          · rw [filter_cons_of_pos (by simpa using hm), length_cons, hklen,
              length_cons]
          · rw [memberRows, zipWith_cons_cons,
              filter_cons_of_pos (by simpa using hm),
              filter_cons_of_pos (by simpa using hm), hrows, memberRows, memberRows,
              zipWith_cons_cons]
  obtain ⟨kept, hsub, hklen, hrows⟩ := key members positions hlen
  exact ⟨kept, hklen, hp.sublist hsub, hrows ▸ hl.delete id⟩

end

theorem zipIdx_memberRows (members : List SolutionMember) :
    members.zipIdx.map (fun p => (p.1.catalogId, p.1.localPath.lossy, p.2)) =
      memberRows members (List.range members.length) := by
  rw [memberRows, zipIdx_eq_zip_range', map_zip_eq_zipWith, range_eq_range']
  rfl

theorem ListsMembers.reorder {t : List Char → Option (Path × Nat)}
    {result : List SolutionMember} (h : ListsMembers t members)
    (hp : result.Perm members) :
    ListsMembers (putAll t
      (result.zipIdx.map fun p => (p.1.catalogId, p.1.localPath.lossy, p.2))) result := by
  have hids : (result.map (·.catalogId)).Perm (members.map (·.catalogId)) := hp.map _
  obtain ⟨positions, hlen, -, hl⟩ := id h
  refine ⟨List.range result.length, by simp, pairwise_lt_range, ?_⟩
  rw [zipIdx_memberRows]
  refine hl.putAll ?_ ?_
  · rw [map_fst_memberRows (by simp)]
    exact hids.nodup_iff.mpr h.nodup
  · intro k hk
    rw [map_fst_memberRows hlen] at hk
    rw [map_fst_memberRows (by simp)]
    exact hids.mem_iff.mpr hk

/-! ## Reordering -/

theorem byId_eq (h : (members.map (·.catalogId)).Nodup) : byId members = members := by
  have key : ∀ (ms acc : List SolutionMember), ((acc ++ ms).map (·.catalogId)).Nodup →
      ms.foldl (fun acc m => acc.filter (·.catalogId ≠ m.catalogId) ++ [m]) acc = acc ++ ms := by
    intro ms
    induction ms with
    | nil => simp
    | cons m ms ih =>
      intro acc hn
      have hacc : acc.filter (·.catalogId ≠ m.catalogId) = acc := by
        rw [filter_eq_self]
        intro a ha
        rw [map_append, nodup_append] at hn
        have := hn.2.2 a.catalogId (List.mem_map.mpr ⟨a, ha, rfl⟩) m.catalogId
          (mem_cons_self ..)
        simpa using this
      rw [foldl_cons, hacc, ih (acc ++ [m]) (by simpa using hn)]
      simp
  exact (key members [] h).trans (nil_append _)

theorem takeInOrder_perm (order : List (List Char)) (h : (members.map (·.catalogId)).Nodup) :
    ((takeInOrder order members).1 ++ (takeInOrder order members).2).Perm members := by
  induction order generalizing members with
  | nil => simp [takeInOrder]
  | cons id order ih =>
    rw [takeInOrder]
    cases hf : members.find? (·.catalogId = id) with
    | none => exact ih h
    | some m =>
      have hid : m.catalogId = id := by simpa using find?_some hf
      have hm := mem_of_find?_eq_some hf
      have hsub : ((members.filter (·.catalogId ≠ id)).map (·.catalogId)).Nodup :=
        h.sublist (List.filter_sublist.map _)
      refine ((ih hsub).cons m).trans ?_
      -- the member taken out is the only one of its id
      have hfilter : members.filter (·.catalogId ≠ id) = members.erase m := by
        rw [Nodup.erase_eq_filter h.of_map]
        refine filter_congr fun a ha => ?_
        by_cases ham : a = m
        · simp [ham, hid]
        · have : a.catalogId ≠ id := by
            intro he
            exact ham (inj_on_of_nodup_map h ha hm (he.trans hid.symm))
          simp [this, ham]
      rw [hfilter]
      exact (perm_cons_erase hm).symm

theorem Reordered.perm {order : List (List Char)} {result : List SolutionMember}
    (h : Reordered order members result) (hn : (members.map (·.catalogId)).Nodup) :
    result.Perm members := by
  obtain ⟨rest, hrest, rfl⟩ := h
  rw [byId_eq hn] at hrest ⊢
  exact (hrest.append_left _).trans (takeInOrder_perm order hn)

theorem setSolutionMembers_eq {d : Db} (h : (d.solutions id).isSome)
    (rows : List (SolutionMember × Nat)) :
    d.setSolutionMembers id rows = some { d with
      solutionMembers := Function.update d.solutionMembers id
        (putAll (d.solutionMembers id)
          (rows.map fun p => (p.1.catalogId, p.1.localPath.lossy, p.2))) } := by
  rw [Db.setSolutionMembers]
  induction rows generalizing d with
  | nil => simp [putAll]
  | cons p rows ih =>
    rw [foldlM_cons, Db.setSolutionMember, if_pos h]
    refine (ih ?_).trans ?_
    · exact h
    · simp [putAll]

/-! ## One operation -/

section

variable {sha : List Char → Nat} {s t : Store}

theorem agrees_empty : Agrees Store.empty where
  catalog := lists_nil fun _ => rfl
  catalogIds id hid := by simp [Store.empty, Config.catalogIds] at hid
  solutions := lists_nil fun _ => rfl
  roots sol hsol := by simp [Store.empty] at hsol
  members sol hsol := by simp [Store.empty] at hsol
  storable sol hsol := by simp [Store.empty] at hsol
  noMembers _ _ := rfl
  selections := rfl
  noSelections _ _ := rfl
  pending add hadd := by simp [Store.empty] at hadd

theorem map_fst_catalogRow (c : Config) : (c.catalog.map catalogRow).map Prod.fst = c.catalogIds := by
  rw [List.map_map]
  rfl

theorem map_fst_solutionRow (c : Config) :
    (c.solutions.map solutionRow).map Prod.fst = c.solutionIds := by
  rw [List.map_map]
  rfl

section

variable (h : Agrees s)
include h

theorem Agrees.isSome_of_find (hf : s.config.find id = some sol) : (s.db.solutions id).isSome := by
  have hid : sol.id = id := by simpa using find?_some hf
  have := (h.solutions.2 _ _).mp (List.mem_map.mpr ⟨sol, mem_of_find?_eq_some hf, rfl⟩)
  rw [← hid]
  exact Option.isSome_iff_exists.mpr ⟨_, this⟩

theorem Agrees.setCatalog {catalog : List CatalogProject}
    {table : List Char → Option CatalogRow} (hl : Lists table (catalog.map catalogRow))
    (hids : ∀ p ∈ catalog, p.id ≠ []) :
    Agrees { s with
      config := { s.config with catalog }
      db := { s.db with catalogProjects := table } } where
  catalog := hl
  catalogIds id hid := by
    obtain ⟨p, hp, rfl⟩ := List.mem_map.mp hid
    exact hids p hp
  solutions := h.solutions
  roots := h.roots
  members := h.members
  storable := h.storable
  noMembers := h.noMembers
  selections := h.selections
  noSelections := h.noSelections
  pending := h.pending

theorem Agrees.catalog_ne_nil {p : CatalogProject} (hp : p ∈ s.config.catalog) :
    p.id ≠ [] :=
  h.catalogIds _ (List.mem_map.mpr ⟨p, hp, rfl⟩)

theorem Agrees.addCatalogProject {name remoteUrl : List Char}
    {defaultBranch : Option (List Char)}
    (hs : s.step sha (.addCatalogProject name remoteUrl defaultBranch) = some t) : Agrees t := by
  cases hs
  refine @Agrees.setCatalog _ h (s.config.catalog ++ [_]) _ ?_ ?_
  · rw [map_append]
    refine h.catalog.put _ ?_
    rw [map_fst_catalogRow]
    exact uniqueSlug_not_mem _ _ _
  · intro p hp
    rcases List.mem_append.mp hp with hp | hp
    · exact h.catalog_ne_nil hp
    · rw [List.mem_singleton.mp hp]
      exact uniqueSlug_ne_nil _ _ _

theorem Agrees.editCatalogProject {name defaultBranch remoteUrl : Option (List Char)}
    (hs : s.step sha (.editCatalogProject id name defaultBranch remoteUrl) = some t) :
    Agrees t := by
  simp only [Store.step, Config.editCatalogProject] at hs
  cases hf : s.config.catalog.find? (·.id = id) with
  | none =>
    rw [hf] at hs
    cases hs
    exact h
  | some p =>
    rw [hf] at hs
    cases hs
    have hid : p.id = id := by simpa using find?_some hf
    have hp := mem_of_find?_eq_some hf
    have hrows : (s.config.catalog.map fun q =>
        if q.id = id then Config.editEntry q name defaultBranch remoteUrl else q).map catalogRow =
        (s.config.catalog.map catalogRow).map fun r =>
          if r.1 = id then catalogRow (Config.editEntry p name defaultBranch remoteUrl) else r := by
      rw [List.map_map, List.map_map]
      refine map_congr_left fun q hq => ?_
      by_cases hqid : q.id = id
      · -- the entry found is the only one of its id
        have hnodup : s.config.catalogIds.Nodup := map_fst_catalogRow s.config ▸ h.catalog.1
        have : q = p := inj_on_of_nodup_map hnodup hq hp (hqid.trans hid.symm)
        simp [this, hid, catalogRow]
      · simp [hqid, catalogRow]
    refine h.setCatalog ?_ ?_
    · rw [hrows]
      have hedit : catalogRow (Config.editEntry p name defaultBranch remoteUrl) =
          (id, (catalogRow (Config.editEntry p name defaultBranch remoteUrl)).2) := by
        rw [← hid]
        rfl
      rw [hedit]
      have hput := h.catalog.replace
        (catalogRow (Config.editEntry p name defaultBranch remoteUrl)).2
        (k := id) (by rw [map_fst_catalogRow]; exact List.mem_map.mpr ⟨p, hp, hid⟩)
      convert hput using 1
      simp [Config.editEntry, hid, catalogRow]
    · intro q hq
      obtain ⟨q', hq', rfl⟩ := List.mem_map.mp hq
      split
      · exact h.catalog_ne_nil (p := q') hq'
      · exact h.catalog_ne_nil hq'

end

theorem filter_catalogRow (catalog : List CatalogProject) (id : List Char) :
    (catalog.filter (·.id ≠ id)).map catalogRow = (catalog.map catalogRow).filter (·.1 ≠ id) := by
  rw [List.filter_map]
  rfl

theorem Agrees.dropCatalogEntry (h : Agrees s) (id : List Char) :
    Agrees { s with config := s.config.dropCatalogEntry id, db := s.db.deleteCatalogProject id } := by
  refine h.setCatalog ?_ ?_
  · rw [filter_catalogRow]
    exact h.catalog.delete id
  · intro p hp
    exact h.catalog_ne_nil (List.mem_filter.mp hp).1

/-! ### Solutions -/

theorem solutionIds_setSolutions (c : Config) (f : Solution → Solution)
    (hf : ∀ sol, (f sol).id = sol.id) :
    ({ c with solutions := c.solutions.map f } : Config).solutionIds = c.solutionIds := by
  rw [Config.solutionIds, Config.solutionIds, List.map_map]
  exact map_congr_left fun sol _ => hf sol

theorem Agrees.setMembers (h : Agrees s) {f : Solution → Solution}
    {table : List Char → List Char → Option (Path × Nat)}
    (hrow : ∀ sol, solutionRow (f sol) = solutionRow sol)
    (hroot : ∀ sol, (f sol).root = sol.root)
    (hm : ∀ sol ∈ s.config.solutions, ListsMembers (table sol.id) (f sol).members)
    (hst : ∀ sol ∈ s.config.solutions, ∀ m ∈ (f sol).members, Storable m)
    (hno : ∀ id, id ∉ s.config.solutionIds → table id = fun _ => none) :
    Agrees { s with
      config := { s.config with solutions := s.config.solutions.map f }
      db := { s.db with solutionMembers := table } } := by
  have hid : ∀ sol, (f sol).id = sol.id := fun sol => congrArg Prod.fst (hrow sol)
  have hids := solutionIds_setSolutions s.config f hid
  refine ⟨h.catalog, h.catalogIds, ?_, ?_, ?_, ?_, ?_, h.selections, ?_, h.pending⟩
  · have : (s.config.solutions.map f).map solutionRow = s.config.solutions.map solutionRow := by
      rw [List.map_map]
      exact map_congr_left fun sol _ => hrow sol
    rw [this]
    exact h.solutions
  · intro sol hsol
    obtain ⟨sol', hsol', rfl⟩ := List.mem_map.mp hsol
    rw [hroot]
    exact h.roots sol' hsol'
  · intro sol hsol
    obtain ⟨sol', hsol', rfl⟩ := List.mem_map.mp hsol
    rw [hid]
    exact hm sol' hsol'
  · intro sol hsol
    obtain ⟨sol', hsol', rfl⟩ := List.mem_map.mp hsol
    exact hst sol' hsol'
  · intro id hn
    rw [hids] at hn
    exact hno id hn
  · intro id hn
    rw [hids] at hn
    exact h.noSelections id hn

theorem Agrees.updateMembers (h : Agrees s)
    (hf : s.config.find id = some sol) {f : List SolutionMember → List SolutionMember}
    {table : List Char → Option (Path × Nat)} (hm : ListsMembers table (f sol.members))
    (hst : ∀ m ∈ f sol.members, Storable m) :
    Agrees { s with
      config := s.config.update id fun sol => { sol with members := f sol.members }
      db := { s.db with solutionMembers := Function.update s.db.solutionMembers id table } } := by
  have hid : sol.id = id := by simpa using find?_some hf
  have hsol := mem_of_find?_eq_some hf
  -- the solution found is the only one of its id
  have honly : ∀ sol' ∈ s.config.solutions, sol'.id = id → sol' = sol := fun sol' hsol' hid' =>
    inj_on_of_nodup_map h.nodup hsol' hsol (hid'.trans hid.symm)
  refine h.setMembers (f := fun sol => if sol.id = id then { sol with members := f sol.members }
    else sol) ?_ ?_ ?_ ?_ ?_
  · intro sol'
    split
    · rfl
    · rfl
  · intro sol'
    split
    · rfl
    · rfl
  · intro sol' hsol'
    by_cases he : sol'.id = id
    · rw [if_pos he, he, Function.update_self, honly sol' hsol' he]
      exact hm
    · rw [if_neg he, Function.update_of_ne he]
      exact h.members sol' hsol'
  · intro sol' hsol'
    by_cases he : sol'.id = id
    · rw [if_pos he, honly sol' hsol' he]
      exact hst
    · rw [if_neg he]
      exact h.storable sol' hsol'
  · intro id' hn
    have hne : id' ≠ id := by
      rintro rfl
      exact hn (List.mem_map.mpr ⟨sol, hsol, hid⟩)
    rw [Function.update_of_ne hne]
    exact h.noMembers id' hn

theorem pushMember_eq {c : Config} (hf : c.find id = some sol) (m : SolutionMember) :
    c.pushMember id m = some (sol.members.length,
      c.update id fun sol => { sol with members := sol.members ++ [m] }) := by
  rw [Config.pushMember, hf]
  rfl

section

variable (h : Agrees s)
include h

theorem Agrees.recordMember (hf : s.config.find id = some sol) {m : SolutionMember} (hm : Storable m)
    (hnew : m.catalogId ∉ sol.members.map (·.catalogId))
    (hb : PositionsBelow s id sol.members.length) {p : Nat × Config}
    (hp : s.config.pushMember id m = some p) (hs : s.recordMember id m p = some t) : Agrees t := by
  have hid : sol.id = id := by simpa using find?_some hf
  rw [pushMember_eq hf] at hp
  cases hp
  rw [Store.recordMember, Db.setSolutionMember, if_pos (h.isSome_of_find hf)] at hs
  cases hs
  refine h.updateMembers hf (f := fun members => members ++ [m]) ?_ ?_
  · refine ListsMembers.push ?_ hnew hb
    rw [← hid]
    exact h.members sol (mem_of_find?_eq_some hf)
  · intro m' hm'
    rcases List.mem_append.mp hm' with hm' | hm'
    · exact h.storable sol (mem_of_find?_eq_some hf) m' hm'
    · rw [List.mem_singleton.mp hm']
      exact hm

theorem Agrees.addMember {catalogId : List Char}
    (hs : s.step sha (.addMember id catalogId) = some t) : Agrees t := by
  simp only [Store.step] at hs
  cases hf : s.config.find id with
  | none =>
    rw [hf] at hs
    cases hs
    exact h
  | some sol =>
    rw [hf] at hs
    dsimp only at hs
    split at hs
    · rename_i hc
      cases hs
      refine ⟨h.catalog, h.catalogIds, h.solutions, h.roots, h.members, h.storable, h.noMembers,
        h.selections, h.noSelections, ?_⟩
      intro add hadd
      rcases List.mem_append.mp hadd with hadd | hadd
      · exact h.pending add hadd
      · rw [List.mem_singleton.mp hadd]
        obtain ⟨p, hp, hpid⟩ := List.any_eq_true.mp hc.1
        refine ⟨of_decide_eq_true hpid ▸ h.catalog_ne_nil hp, ?_⟩
        rw [Path.lossy_join, h.roots sol (mem_of_find?_eq_some hf)]
    · cases hs
      exact h

theorem Agrees.addMemberCompleted {add : List Char × SolutionMember}
    (hc : WritesThrough s (.addMemberCompleted add))
    (hs : s.step sha (.addMemberCompleted add) = some t) : Agrees t := by
  simp only [Store.step] at hs
  split at hs
  · rename_i hadd
    have h' : Agrees { s with pendingAdds := s.pendingAdds.erase add } :=
      ⟨h.catalog, h.catalogIds, h.solutions, h.roots, h.members, h.storable, h.noMembers,
        h.selections, h.noSelections, fun a ha => h.pending a (mem_of_mem_erase ha)⟩
    cases hf : s.config.find add.1 with
    | none =>
      have hp : s.config.pushMember add.1 add.2 = none := by rw [Config.pushMember, hf]; rfl
      rw [hp] at hs
      cases hs
      exact h'
    | some sol =>
      have hp := pushMember_eq hf add.2
      rw [hp] at hs
      obtain ⟨hnew, hb⟩ := hc sol hf
      exact h'.recordMember hf (h.pending add hadd) hnew hb hp hs
  · simp at hs

theorem Agrees.addEmptyMember {projectName : List Char}
    (hc : WritesThrough s (.addEmptyMember id projectName))
    (hs : s.step sha (.addEmptyMember id projectName) = some t) : Agrees t := by
  simp only [Store.step, Config.addEmptyMember] at hs
  by_cases hn : Cut.trim projectName = []
  · rw [if_pos hn] at hs
    cases hs
    exact h
  · rw [if_neg hn] at hs
    cases hf : s.config.find id with
    | none =>
      rw [hf] at hs
      cases hs
      exact h
    | some sol =>
      rw [hf, bind_some] at hs
      rw [pushMember_eq hf, map_some] at hs
      refine h.recordMember hf ⟨uniqueSlug_ne_nil _ _ _, ?_⟩ (uniqueSlug_not_mem _ _ _)
        (hc sol hf) (pushMember_eq hf _) hs
      rw [Path.lossy_join, h.roots sol (mem_of_find?_eq_some hf)]

theorem Agrees.removeMember {catalogId : List Char}
    (hc : WritesThrough s (.removeMember id catalogId))
    (hs : s.step sha (.removeMember id catalogId) = some t) : Agrees t := by
  simp only [Store.step] at hs
  cases hf : s.config.find id with
  | none =>
    have hnone : s.config.removeMember id catalogId = none := by rw [Config.removeMember, hf]; rfl
    rw [hnone] at hs
    cases hs
    exact h
  | some sol =>
    by_cases hany : sol.members.any (·.catalogId = catalogId) = true
    · have hsome : s.config.removeMember id catalogId = some (s.config.update id fun sol =>
          { sol with members := sol.members.filter (·.catalogId ≠ catalogId) }) := by
        rw [Config.removeMember, hf, bind_some, if_pos hany]
      rw [hsome] at hs
      cases hs
      have hid : sol.id = id := by simpa using find?_some hf
      have hsol := mem_of_find?_eq_some hf
      -- no selection points at the member, so none goes in memory either
      have hsel : Function.update s.panelMemberSelections id (fun panel =>
          (s.panelMemberSelections id panel).filter (· ≠ catalogId)) =
          s.panelMemberSelections := by
        rw [Function.update_eq_self_iff]
        funext panel
        have hne := hc (by rw [hsome]; simp) panel
        cases hp : s.panelMemberSelections id panel with
        | none => rfl
        | some c =>
          rw [hp] at hne
          simpa [Option.filter] using fun he => hne (congrArg some he)
      rw [hsel]
      refine h.updateMembers hf (f := fun members => members.filter (·.catalogId ≠ catalogId))
        ?_ ?_
      · refine ListsMembers.remove ?_ catalogId
        rw [← hid]
        exact h.members sol hsol
      · intro m hm
        exact h.storable sol hsol m (List.mem_filter.mp hm).1
    · have hnone : s.config.removeMember id catalogId = none := by
        rw [Config.removeMember, hf, bind_some, if_neg hany]
      rw [hnone] at hs
      cases hs
      exact h

theorem Agrees.reorderMembers {order : List (List Char)}
    {result : List SolutionMember} (ha : s.Admits (.reorderMembers id order result))
    (hs : s.step sha (.reorderMembers id order result) = some t) : Agrees t := by
  simp only [Store.step] at hs
  cases hf : s.config.find id with
  | none =>
    rw [hf] at hs
    cases hs
    exact h
  | some sol =>
    rw [hf] at hs
    rw [setSolutionMembers_eq (h.isSome_of_find hf), map_some] at hs
    cases hs
    have hid : sol.id = id := by simpa using find?_some hf
    have hsol := mem_of_find?_eq_some hf
    have hperm := (ha sol hf).perm (h.members sol hsol).nodup
    refine h.updateMembers hf (f := fun _ => result) ?_ ?_
    · refine ListsMembers.reorder ?_ hperm
      rw [← hid]
      exact h.members sol hsol
    · intro m hm
      exact h.storable sol hsol m (hperm.mem_iff.mp hm)

end

theorem foldl_deleteSolutionMember (d : Db) (ids : List (List Char)) (id : List Char) :
    ids.foldl (fun d sid => d.deleteSolutionMember sid id) d = { d with
      solutionMembers := fun sid =>
        if sid ∈ ids then delete (d.solutionMembers sid) id else d.solutionMembers sid } := by
  induction ids generalizing d with
  | nil => simp
  | cons sid ids ih =>
    rw [foldl_cons, ih]
    congr 1
    funext sid'
    by_cases he : sid' = sid
    · subst he
      simp only [Db.deleteSolutionMember, Function.update_self, mem_cons, true_or, if_true]
      split
      · funext cid
        by_cases hc : cid = id
        · rw [hc, delete_self, delete_self]
        · rw [delete_of_ne _ hc]
      · rfl
    · simp [Db.deleteSolutionMember, he]

theorem Agrees.removeCatalogProjectCascade (h : Agrees s)
    (hs : s.step sha (.removeCatalogProjectCascade id) = some t) : Agrees t := by
  simp only [Store.step, Config.removeCatalogProjectCascade] at hs
  by_cases hid : id ∈ s.config.catalogIds
  · rw [if_pos hid] at hs
    dsimp only at hs
    rw [foldl_deleteSolutionMember] at hs
    cases hs
    have hids : ((s.config.dropMembers id).dropCatalogEntry id).solutionIds =
        s.config.solutionIds :=
      solutionIds_setSolutions s.config _ fun _ => rfl
    rw [hids]
    refine Agrees.dropCatalogEntry (s := { s with
      config := s.config.dropMembers id
      db := { s.db with
        solutionMembers := fun sid => if sid ∈ s.config.solutionIds then
          delete (s.db.solutionMembers sid) id else s.db.solutionMembers sid } }) ?_ id
    refine h.setMembers (f := fun sol =>
      { sol with members := sol.members.filter (·.catalogId ≠ id) }) (fun _ => rfl) (fun _ => rfl)
      ?_ ?_ ?_
    · intro sol hsol
      have hmem : sol.id ∈ s.config.solutionIds := List.mem_map.mpr ⟨sol, hsol, rfl⟩
      rw [if_pos hmem]
      exact (h.members sol hsol).remove id
    · intro sol hsol m hm
      exact h.storable sol hsol m (List.mem_filter.mp hm).1
    · intro sid hsid
      rw [if_neg hsid]
      exact h.noMembers sid hsid
  · rw [if_neg hid] at hs
    cases hs
    exact h

theorem Agrees.saveNew (h : Agrees s) (hid : sol.id ∉ s.config.solutionIds)
    (hroot : sol.root.lossy = sol.root) (hm : sol.members = []) :
    Agrees { s with
      config := { s.config with solutions := s.config.solutions ++ [sol] }
      db := s.db.saveSolution sol } := by
  have hids : ∀ id, id ∉ ({ s.config with solutions := s.config.solutions ++ [sol] } :
      Config).solutionIds → id ∉ s.config.solutionIds := by
    intro id hn hm
    exact hn (by simp only [Config.solutionIds, map_append]; exact mem_append_left _ hm)
  have hmembers : (s.db.saveSolution sol).solutionMembers = s.db.solutionMembers := by
    simp only [Db.saveSolution, Db.deleteSolutionRow]
    rw [Function.update_eq_self_iff]
    exact (h.noMembers _ hid).symm
  have hsel : (s.db.saveSolution sol).panelMemberSelections = s.db.panelMemberSelections := by
    simp only [Db.saveSolution, Db.deleteSolutionRow]
    rw [Function.update_eq_self_iff, h.selections]
    exact (h.noSelections _ hid).symm
  refine ⟨h.catalog, h.catalogIds, ?_, ?_, ?_, ?_, ?_, ?_, ?_, h.pending⟩
  · rw [map_append]
    exact h.solutions.put _ (by rw [map_fst_solutionRow]; exact hid)
  · intro sol' hsol'
    rcases List.mem_append.mp hsol' with hsol' | hsol'
    · exact h.roots sol' hsol'
    · rw [List.mem_singleton.mp hsol']
      exact hroot
  · intro sol' hsol'
    rw [hmembers]
    rcases List.mem_append.mp hsol' with hsol' | hsol'
    · exact h.members sol' hsol'
    · rw [List.mem_singleton.mp hsol', hm, h.noMembers _ hid]
      exact ⟨[], rfl, List.Pairwise.nil, lists_nil fun _ => rfl⟩
  · intro sol' hsol'
    rcases List.mem_append.mp hsol' with hsol' | hsol'
    · exact h.storable sol' hsol'
    · rw [List.mem_singleton.mp hsol', hm]
      intro m hm'
      simp at hm'
  · intro id hn
    rw [hmembers]
    exact h.noMembers id (hids id hn)
  · exact hsel.trans h.selections
  · intro id hn
    exact h.noSelections id (hids id hn)

theorem Agrees.createSolution (h : Agrees s) {name : List Char} {rootBase : Path}
    (hc : WritesThrough s (.createSolution name rootBase))
    (hs : s.step sha (.createSolution name rootBase) = some t) : Agrees t := by
  cases hs
  refine h.saveNew (uniqueSlug_not_mem _ _ _) ?_ rfl
  rw [Path.lossy_join]
  exact congrArg (Path.join · _) hc

theorem map_solutionRow_update {c : Config} (hn : c.solutionIds.Nodup) (hf : c.find id = some sol)
    (f : Solution → Solution)
    (hid : ∀ sol, (f sol).id = sol.id) :
    (c.update id f).solutions.map solutionRow = (c.solutions.map solutionRow).map fun r =>
      if r.1 = id then (id, (solutionRow (f sol)).2) else r := by
  rw [Config.update, List.map_map, List.map_map]
  refine map_congr_left fun sol' hsol' => ?_
  have hsid : sol.id = id := by simpa using find?_some hf
  by_cases he : sol'.id = id
  · have : sol' = sol :=
      inj_on_of_nodup_map hn hsol' (mem_of_find?_eq_some hf) (he.trans hsid.symm)
    subst this
    have hfid : solutionRow (f sol') = (id, (solutionRow (f sol')).2) := by
      rw [← hsid, ← hid sol']
      rfl
    simp only [Function.comp_apply, he, if_true]
    rw [if_pos (show (solutionRow sol').1 = id from hsid)]
    exact hfid
  · simp only [Function.comp_apply, he, if_false]
    rw [if_neg (show ¬ (solutionRow sol').1 = id from he)]

section

variable (h : Agrees s)
include h

theorem Agrees.updateRow (hf : s.config.find id = some sol) {f : Solution → Solution}
    (hid : ∀ sol, (f sol).id = sol.id) (hroot : ∀ sol, (f sol).root = sol.root)
    (hm : ∀ sol, (f sol).members = sol.members) :
    Agrees { s with
      config := s.config.update id f
      db := { s.db with solutions := put s.db.solutions id (solutionRow (f sol)).2 } } := by
  have hids := solutionIds_setSolutions s.config (fun sol => if sol.id = id then f sol else sol)
    (fun sol => by
      by_cases he : sol.id = id
      · rw [if_pos he, hid]
      · rw [if_neg he])
  have hsid : sol.id = id := by simpa using find?_some hf
  have key : ∀ sol' ∈ (s.config.update id f).solutions, ∃ old ∈ s.config.solutions,
      sol'.id = old.id ∧ sol'.root = old.root ∧ sol'.members = old.members := by
    intro sol' hsol'
    obtain ⟨old, hold, rfl⟩ := List.mem_map.mp hsol'
    refine ⟨old, hold, ?_⟩
    split
    · exact ⟨hid old, hroot old, hm old⟩
    · exact ⟨rfl, rfl, rfl⟩
  refine ⟨h.catalog, h.catalogIds, ?_, ?_, ?_, ?_, ?_, h.selections, ?_, h.pending⟩
  · rw [map_solutionRow_update h.nodup hf f hid]
    refine h.solutions.replace _ ?_
    rw [map_fst_solutionRow]
    exact List.mem_map.mpr ⟨sol, mem_of_find?_eq_some hf, hsid⟩
  · intro sol' hsol'
    obtain ⟨old, hold, -, he, -⟩ := key sol' hsol'
    rw [he]
    exact h.roots old hold
  · intro sol' hsol'
    obtain ⟨old, hold, he, -, he'⟩ := key sol' hsol'
    rw [he, he']
    exact h.members old hold
  · intro sol' hsol'
    obtain ⟨old, hold, -, -, he⟩ := key sol' hsol'
    rw [he]
    exact h.storable old hold
  · intro id' hn
    exact h.noMembers id' (fun hm => hn (hids ▸ hm))
  · intro id' hn
    exact h.noSelections id' (fun hm => hn (hids ▸ hm))

theorem Agrees.renameSolution {newName : List Char}
    (hc : WritesThrough s (.renameSolution id newName))
    (hs : s.step sha (.renameSolution id newName) = some t) : Agrees t := by
  simp only [Store.step, Config.renameSolution] at hs
  cases hf : s.config.find id with
  | none =>
    rw [hf] at hs
    cases hs
    exact h
  | some sol =>
    rw [hf] at hs
    cases hs
    have hsid : sol.id = id := by simpa using find?_some hf
    -- replacing the row takes its children along, and there are none
    have hmembers : s.db.solutionMembers id = fun _ => none := by
      obtain ⟨positions, hlen, -, hl⟩ := h.members sol (mem_of_find?_eq_some hf)
      rw [hc.1 sol hf] at hl
      funext cid
      rw [← hsid]
      exact hl.eq_none (by simp [memberRows])
    have hsel : s.db.panelMemberSelections id = fun _ => none := by
      rw [h.selections]
      exact funext hc.2
    have hdb : s.db.saveSolution { sol with name := newName } = { s.db with
        solutions := put s.db.solutions id (solutionRow { sol with name := newName }).2 } := by
      simp only [Db.saveSolution, Db.deleteSolutionRow, hsid, solutionRow]
      rw [← hmembers, Function.update_eq_self, ← hsel, Function.update_eq_self]
    rw [hdb]
    exact h.updateRow hf (fun _ => rfl) (fun _ => rfl) (fun _ => rfl)

theorem Agrees.touchLastOpened {now : Int}
    (hs : s.step sha (.touchLastOpened id now) = some t) : Agrees t := by
  simp only [Store.step, Config.touchLastOpened] at hs
  cases hf : s.config.find id with
  | none =>
    rw [hf] at hs
    cases hs
    exact h
  | some sol =>
    rw [hf] at hs
    cases hs
    have hsid : sol.id = id := by simpa using find?_some hf
    have hrow : s.db.solutions id = some (solutionRow sol).2 := by
      rw [← hsid]
      exact (h.solutions.2 _ _).mp (List.mem_map.mpr ⟨sol, mem_of_find?_eq_some hf, rfl⟩)
    have hdb : s.db.updateLastOpened id now = { s.db with
        solutions := put s.db.solutions id
          (solutionRow { sol with lastOpenedAt := some now }).2 } := by
      rw [Db.updateLastOpened, hrow]
      rfl
    rw [hdb]
    exact h.updateRow hf (fun _ => rfl) (fun _ => rfl) (fun _ => rfl)

theorem Agrees.deleteSolution (hs : s.step sha (.deleteSolution id) = some t) : Agrees t := by
  simp only [Store.step, Config.deleteSolution] at hs
  by_cases hid : id ∈ s.config.solutionIds
  · rw [if_pos hid] at hs
    cases hs
    have hkept : ∀ sol ∈ s.config.solutions.filter (·.id ≠ id),
        sol ∈ s.config.solutions ∧ sol.id ≠ id := by
      intro sol hsol
      simpa using List.mem_filter.mp hsol
    have hno : ∀ id', id' ∉ (s.config.solutions.filter (·.id ≠ id)).map (·.id) → id' ≠ id →
        id' ∉ s.config.solutionIds := by
      intro id' hn hne hm
      obtain ⟨sol, hsol, rfl⟩ := List.mem_map.mp hm
      exact hn (List.mem_map.mpr ⟨sol, List.mem_filter.mpr ⟨hsol, by simpa using hne⟩, rfl⟩)
    refine ⟨h.catalog, h.catalogIds, ?_, ?_, ?_, ?_, ?_, ?_, ?_, h.pending⟩
    · have : (s.config.solutions.filter (·.id ≠ id)).map solutionRow =
          (s.config.solutions.map solutionRow).filter (·.1 ≠ id) := by
        rw [List.filter_map]
        rfl
      rw [this]
      exact h.solutions.delete id
    · exact fun sol hsol => h.roots sol (hkept sol hsol).1
    · intro sol hsol
      obtain ⟨hsol, hne⟩ := hkept sol hsol
      simp only [Db.deleteSolutionRow, Function.update_of_ne hne]
      exact h.members sol hsol
    · exact fun sol hsol => h.storable sol (hkept sol hsol).1
    · intro id' hn
      simp only [Db.deleteSolutionRow]
      by_cases he : id' = id
      · rw [he, Function.update_self]
      · rw [Function.update_of_ne he]
        exact h.noMembers id' (hno id' hn he)
    · simp only [Db.deleteSolutionRow, h.selections]
    · intro id' hn
      dsimp only
      by_cases he : id' = id
      · rw [he, Function.update_self]
      · rw [Function.update_of_ne he]
        exact h.noSelections id' (hno id' hn he)
  · rw [if_neg hid] at hs
    cases hs
    exact h

theorem Agrees.setPanelMemberSelection {catalogId : List Char}
    {panel : PanelKind} (hs : s.step sha (.setPanelMemberSelection id panel catalogId) = some t) :
    Agrees t := by
  simp only [Store.step, Db.setPanelSelection] at hs
  split at hs
  · rename_i hrow
    cases hs
    refine ⟨h.catalog, h.catalogIds, h.solutions, h.roots, h.members, h.storable, h.noMembers, ?_,
      ?_, h.pending⟩
    · dsimp only
      rw [h.selections]
    · intro id' hn
      have hne : id' ≠ id := by
        rintro rfl
        refine hn ?_
        by_contra hno
        rw [h.solutions.eq_none (by rw [map_fst_solutionRow]; exact hno)] at hrow
        simp at hrow
      dsimp only
      rw [Function.update_of_ne hne]
      exact h.noSelections id' hn
  · simp at hs

/-- **Every operation that writes through keeps the agreement.** -/
theorem Agrees.step {op : StoreOp} (hs : StoreStep sha s op t)
    (hc : WritesThrough s op) : Agrees t := by
  obtain ⟨hs, ha⟩ := hs
  cases op with
  | addCatalogProject => exact h.addCatalogProject hs
  | editCatalogProject => exact h.editCatalogProject hs
  | removeCatalogProject id =>
    simp only [Store.step, Config.removeCatalogProject] at hs
    by_cases hr : s.config.isReferenced id = true
    · rw [if_pos hr] at hs
      cases hs
      exact h
    · rw [if_neg hr] at hs
      cases hs
      exact h.dropCatalogEntry id
  | removeCatalogProjectCascade => exact h.removeCatalogProjectCascade hs
  | createSolution => exact h.createSolution hc hs
  | renameSolution => exact h.renameSolution hc hs
  | deleteSolution => exact h.deleteSolution hs
  | touchLastOpened => exact h.touchLastOpened hs
  | addMember => exact h.addMember hs
  | addMemberCompleted => exact h.addMemberCompleted hc hs
  | addEmptyMember => exact h.addEmptyMember hc hs
  | removeMember => exact h.removeMember hc hs
  | reorderMembers => exact h.reorderMembers ha hs
  | setPanelMemberSelection => exact h.setPanelMemberSelection hs

end

end

/-- **After every run of operations that write through, a restart gives back what is in
memory.** -/
theorem store_reloads {sha : List Char → Nat} {s : Store} {ops : List StoreOp}
    (h : Run (fun s op t => StoreStep sha s op t ∧ WritesThrough s op) Store.empty ops s) :
    Reloads s :=
  (h.keeps (fun _ _ _ hi hs => hi.step hs.1 hs.2) agrees_empty).reloads

theorem Loads.members_eq_nil {d : Db} {c : Config} (h : Loads d c)
    (hf : c.find id = some sol) (hno : d.solutionMembers id = fun _ => none) :
    sol.members = [] := by
  obtain ⟨-, rows, -, -, hall⟩ := h
  have hid : sol.id = id := by simpa using find?_some hf
  obtain ⟨i, hi, rfl⟩ := getElem_of_mem (mem_of_find?_eq_some hf)
  have hi' : i < rows.length := by rw [hall.length_eq]; exact hi
  obtain ⟨hrow, -, -, -, members, hl, -, hm⟩ := (List.forall₂_iff_get.mp hall).2 i hi' hi
  have hkey : (rows.get ⟨i, hi'⟩).1 = id := by
    rw [← hrow]
    exact hid
  rw [hkey, hno] at hl
  have hnil : members = [] := List.perm_nil.mp (hl.perm (lists_nil fun _ => rfl))
  rw [show c.solutions[i].members = _ from hm, hnil]
  rfl

/-- A solution is created, gets an empty project and is renamed. -/
def sampleCreate : StoreOp := .createSolution "Web".toList ["home".toUTF8.toList]

def sampleAdd : StoreOp := .addEmptyMember "web".toList "app".toList

def sampleRename : StoreOp := .renameSolution "web".toList "Site".toList

def sampleCreated : Store := (Store.empty.step (fun _ => 0) sampleCreate).get rfl

def sampleAdded : Store := (sampleCreated.step (fun _ => 0) sampleAdd).get rfl

def sampleRenamed : Store := (sampleAdded.step (fun _ => 0) sampleRename).get rfl

theorem sample_steps :
    StoreStep (fun _ => 0) Store.empty sampleCreate sampleCreated ∧
      StoreStep (fun _ => 0) sampleCreated sampleAdd sampleAdded ∧
      StoreStep (fun _ => 0) sampleAdded sampleRename sampleRenamed :=
  ⟨⟨(some_get _).symm, trivial⟩, ⟨(some_get _).symm, trivial⟩,
    ⟨(some_get _).symm, trivial⟩⟩

theorem store_reloads_with_member :
    sampleAdded.config.solutions.map (·.members.length) = [1] ∧ Reloads sampleAdded := by
  refine ⟨by decide, store_reloads (.cons ⟨sample_steps.1, ?_⟩
    (.cons ⟨sample_steps.2.1, ?_⟩ .nil))⟩
  · change Path.lossy _ = _
    decide +kernel
  · intro sol _ id path position h
    have hnone : sampleCreated.db.solutionMembers "web".toList id = none := rfl
    rw [hnone] at h
    simp at h

/-- The rename replaces the row of the solution, and its members go with the old one: after a
restart the solution has none. -/
theorem store_loses_members_on_rename :
    Run (StoreStep fun _ => 0) Store.empty [sampleCreate, sampleAdd, sampleRename] sampleRenamed ∧
      ¬ Reloads sampleRenamed := by
  refine ⟨.cons sample_steps.1 (.cons sample_steps.2.1 (.cons sample_steps.2.2 .nil)), ?_⟩
  intro h
  obtain ⟨c, hc⟩ := h.loads
  have hfind := h.solutions c hc "web".toList
  cases hf : c.find "web".toList with
  | none =>
    rw [hf] at hfind
    exact absurd hfind (by decide)
  | some sol =>
    rw [hf, map_some, hc.members_eq_nil hf rfl] at hfind
    have hlen := congrArg (Option.map fun v => v.2.2.length) hfind
    exact absurd hlen (by simp; decide)

end SpkEditor.Solutions
