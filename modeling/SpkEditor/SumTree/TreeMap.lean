import SpkEditor.SumTree.Edit

/-!
# Maps in trees

A map is a tree of entries in key order. Every operation on one key is a change of the list of
entries; a batch goes through `edit`, which does not look for keys that repeat within the batch.
`extend` hands it such a batch as it comes (`extend_iff`), `insert_tree` never does.
-/

namespace SpkEditor

open SumTree KeyedList List

/-- `TreeMap`. -/
structure TreeMap (K V : Type) where
  tree : SumTree (MapEntry K V) (MapKey K)

open MapEntry (row row_ok insertionSort)

namespace TreeMap

variable {K V : Type} [LinearOrder K]

/-- `get`. -/
def get (m : TreeMap K V) (k : K) : Option V :=
  (find m.tree (compare (⟨some k⟩ : MapKey K)) .left).2.2.bind fun item =>
    if item.key = k then some item.value else none

/-- `contains_key`. -/
def containsKey (m : TreeMap K V) (k : K) : Bool := (m.get k).isSome

/-- `insert_or_replace`. -/
def insertOrReplace (m : TreeMap K V) (k : K) (value : V) : Option (TreeMap K V × Option V) :=
  (m.tree.insertOrReplace ⟨k, value⟩).map fun r => (⟨r.1⟩, r.2.map MapEntry.value)

/-- `insert`. -/
def insert (m : TreeMap K V) (k : K) (value : V) : Option (TreeMap K V) :=
  (m.tree.insertOrReplace ⟨k, value⟩).map fun r => ⟨r.1⟩

/-- `extend`. -/
def extend (sortByKey : SortByKey (MapEntry K V) (MapKey K)) (m : TreeMap K V) (pairs : List (K × V)) :
    Option (TreeMap K V) :=
  (m.tree.edit sortByKey (pairs.map fun pair => .insert ⟨pair.1, pair.2⟩)).map fun r => ⟨r.1⟩

/-- `insert_tree`. -/
def insertTree (sortByKey : SortByKey (MapEntry K V) (MapKey K)) (m other : TreeMap K V) : Option (TreeMap K V) :=
  m.extend sortByKey (other.tree.flat.map fun entry => (entry.key, entry.value))

/-- Entries are in key order, each key once. -/
structure WellFormed (m : TreeMap K V) : Prop where
  ok : m.tree.Ok
  sorted : Sorted KeyedItem.key m.tree.flat

def change (pair : K × V) : MapKey K × Option (MapEntry K V) := (⟨some pair.1⟩, some ⟨pair.1, pair.2⟩)

def insertAll (entries : List (MapEntry K V)) (pairs : List (K × V)) : List (MapEntry K V) :=
  pairs.foldl (fun entries pair => amend KeyedItem.key entries [change pair]) entries

def lastValue (pairs : List (K × V)) (k : K) : Option V :=
  (pairs.filter fun pair => decide (pair.1 = k)).getLast?.map Prod.snd

structure Inserted (m : TreeMap K V) (pairs : List (K × V)) (m' : TreeMap K V) : Prop where
  entries : m'.tree.flat = insertAll m.tree.flat pairs
  sorted : Sorted KeyedItem.key m'.tree.flat
  get : ∀ k, m'.get k = (lastValue pairs k).or (m.get k)

section

variable {m m' : TreeMap K V} {pairs : List (K × V)} {entries : List (MapEntry K V)} {k : K}

theorem get_eq (hs : Sorted KeyedItem.key m.tree.flat) (hok : m.tree.Ok) (k : K) :
    m.get k = (lookup KeyedItem.key m.tree.flat (⟨some k⟩ : MapKey K)).map MapEntry.value := by
  have hitem : (find m.tree (compare (⟨some k⟩ : MapKey K)) .left).2.2 =
      (m.tree.flat.dropWhile fun x => decide (KeyedItem.key x < (⟨some k⟩ : MapKey K))).head? := by
    rw [(find_eq hok (keyed_ordered hs _) .left).1, keyed_scan hs _ (Nat.zero_le _), drop_zero, zero_add,
      Place.item, ← drop_length_takeWhile, head?_drop]
  rw [get, hitem, ← hs.head?_dropWhile]
  cases (m.tree.flat.dropWhile fun x => decide (KeyedItem.key x < (⟨some k⟩ : MapKey K))).head? with
  | none => rfl
  | some x =>
    by_cases hk : x.key = k
    · simp [hk, KeyedItem.key]
    · simp [hk, KeyedItem.key]

/-! ## Inserting -/

omit [LinearOrder K] in
theorem filedUnder_change (pairs : List (K × V)) : FiledUnder KeyedItem.key (pairs.map change) := by
  intro k a h
  obtain ⟨pair, -, hp⟩ := List.mem_map.mp h
  obtain ⟨rfl, ha⟩ := Prod.mk.inj hp
  rw [← Option.some.inj ha]
  rfl

theorem insertAll_spec (hs : Sorted KeyedItem.key entries) (pairs : List (K × V)) :
    Sorted KeyedItem.key (insertAll entries pairs) ∧
      lookup KeyedItem.key (insertAll entries pairs) = amendMap (lookup KeyedItem.key entries) (pairs.map change) := by
  induction pairs generalizing entries with
  | nil => exact ⟨hs, rfl⟩
  | cons pair pairs ih =>
    have hone : ([pair].map change).Pairwise fun c d => c.1 < d.1 := pairwise_singleton _ _
    have hstep : lookup KeyedItem.key (amend KeyedItem.key entries [change pair]) =
        Function.update (lookup KeyedItem.key entries) (change pair).1 (change pair).2 :=
      funext fun k => lookup_amend hs (filedUnder_change [pair]) hone k
    obtain ⟨hsorted, hlookup⟩ := ih (amend_spec hs (filedUnder_change [pair]) hone).1
    exact ⟨hsorted, hlookup.trans (congrArg (fun f => amendMap f (pairs.map change)) hstep)⟩

omit [LinearOrder K] in
theorem lastValue_snoc [DecidableEq K] (pairs : List (K × V)) (pair : K × V) (k : K) :
    ((pairs ++ [pair]).filter fun pair => decide (pair.1 = k)).getLast?.map Prod.snd =
      if pair.1 = k then some pair.2 else (pairs.filter fun pair => decide (pair.1 = k)).getLast?.map Prod.snd := by
  by_cases hk : pair.1 = k <;> simp [hk]

theorem amendMap_change (f : MapKey K → Option (MapEntry K V)) (pairs : List (K × V)) (k : K) :
    (amendMap f (pairs.map change) ⟨some k⟩).map MapEntry.value =
      (lastValue pairs k).or ((f ⟨some k⟩).map MapEntry.value) := by
  induction pairs using List.reverseRecOn with
  | nil => rfl
  | append_singleton pairs pair ih =>
    rw [map_append, amendMap, foldl_append, lastValue, lastValue_snoc]
    by_cases hk : pair.1 = k
    · rw [if_pos hk, ← hk]
      simp [change]
    · rw [if_neg hk]
      have hne : (⟨some k⟩ : MapKey K) ≠ (change pair).1 := fun h => hk (Option.some.inj (MapKey.mk.inj h)).symm
      rw [map_singleton, foldl_cons, foldl_nil, Function.update_of_ne hne]
      exact ih

theorem inserted_of_lookup (hm : m.WellFormed) (hm' : m'.WellFormed)
    (hl : lookup KeyedItem.key m'.tree.flat = amendMap (lookup KeyedItem.key m.tree.flat) (pairs.map change)) :
    m.Inserted pairs m' := by
  obtain ⟨hsorted, hlookup⟩ := insertAll_spec hm.sorted pairs
  refine ⟨hm'.sorted.ext_lookup hsorted fun k => by rw [hl, hlookup], hm'.sorted, fun k => ?_⟩
  rw [get_eq hm'.sorted hm'.ok, get_eq hm.sorted hm.ok, hl, amendMap_change]

theorem insert_spec (hm : m.WellFormed) (hcap : m.tree.height < STACK_CAPACITY) (k : K) (value : V) :
    ∃ m', m.insert k value = some m' ∧ m'.WellFormed ∧ m.Inserted [(k, value)] m' := by
  obtain ⟨t', hinsert, hok, hflat⟩ := insertOrReplace_spec hm.ok hcap hm.sorted ⟨k, value⟩
  obtain ⟨hsorted, hlookup⟩ := insertAll_spec hm.sorted [(k, value)]
  have hm' : (⟨t'⟩ : TreeMap K V).WellFormed := ⟨hok, by rw [hflat]; exact hsorted⟩
  refine ⟨⟨t'⟩, by rw [insert, hinsert]; rfl, hm', inserted_of_lookup hm hm' ?_⟩
  rw [hflat]
  exact hlookup

/-! ## Extending -/

omit [LinearOrder K] in
theorem edits_pairs (pairs : List (K × V)) {edits : List (SumTree.Edit (MapEntry K V) (MapKey K))}
    (hedits : edits = pairs.map fun pair => .insert ⟨pair.1, pair.2⟩) :
    edits.map SumTree.Edit.change = pairs.map change ∧
      ((edits.map SumTree.Edit.key).Nodup ↔ (pairs.map Prod.fst).Nodup) := by
  have hmap : edits.map SumTree.Edit.key = (pairs.map Prod.fst).map fun k => MapKey.mk (some k) := by
    rw [hedits, map_map, map_map]
    rfl
  rw [hmap]
  exact ⟨by rw [hedits, map_map]; rfl, nodup_map_iff fun a b h => Option.some.inj (MapKey.mk.inj h)⟩

/-- Without a key that repeats, a batch is put in pair by pair. -/
theorem extend_distinct (sortByKey : SortByKey (MapEntry K V) (MapKey K)) (hm : m.WellFormed)
    (hcap : m.tree.height < STACK_CAPACITY) (hnd : (pairs.map Prod.fst).Nodup) :
    ∃ m', m.extend sortByKey pairs = some m' ∧ m'.WellFormed ∧ m.Inserted pairs m' := by
  obtain ⟨hchanges, hkeys⟩ := edits_pairs pairs rfl
  obtain ⟨t', hedit, hok, hflat⟩ := edit_spec sortByKey hm.ok hcap hm.sorted
    (pairs.map fun pair => .insert ⟨pair.1, pair.2⟩)
  obtain ⟨hsorted, hlookup⟩ := amend_sort sortByKey hm.sorted (hkeys.mpr hnd)
  rw [← hflat] at hsorted hlookup
  rw [hchanges] at hlookup
  have hm' : (⟨t'⟩ : TreeMap K V).WellFormed := ⟨hok, hsorted⟩
  exact ⟨⟨t'⟩, by rw [extend, hedit]; rfl, hm', inserted_of_lookup hm hm' hlookup⟩

/-- **`extend` inserts its pairs one after another** exactly if no key repeats. -/
theorem extend_iff (sortByKey : SortByKey (MapEntry K V) (MapKey K)) (hm : m.WellFormed) (pairs : List (K × V)) :
    (∃ m', m.extend sortByKey pairs = some m' ∧ m.Inserted pairs m') ↔
      (pairs = [] ∨ m.tree.height < STACK_CAPACITY) ∧ (pairs.map Prod.fst).Nodup := by
  set edits : List (SumTree.Edit (MapEntry K V) (MapKey K)) := pairs.map fun pair => .insert ⟨pair.1, pair.2⟩ with hedits
  by_cases hcap : m.tree.height < STACK_CAPACITY
  · obtain ⟨t', hedit, -, hflat⟩ := edit_spec sortByKey hm.ok hcap hm.sorted edits
    have hextend : m.extend sortByKey pairs = some ⟨t'⟩ := by rw [extend, ← hedits, hedit]; rfl
    constructor
    · rintro ⟨m', hm', hins⟩
      obtain rfl : ⟨t'⟩ = m' := Option.some.inj (hextend.symm.trans hm')
      refine ⟨.inr hcap, (edits_pairs pairs hedits).2.mp ?_⟩
      -- all that is put in is there, and keys do not repeat there
      have hsub : (((sortByKey.sort edits).map SumTree.Edit.change).filterMap Prod.snd).Sublist
          (amend KeyedItem.key m.tree.flat ((sortByKey.sort edits).map SumTree.Edit.change)) := put_sublist_amend _ _
      rw [← hflat] at hsub
      have hput : (((sortByKey.sort edits).map SumTree.Edit.change).filterMap Prod.snd).Perm
          (pairs.map fun pair => (⟨pair.1, pair.2⟩ : MapEntry K V)) := by
        refine (((sortByKey.perm edits).map SumTree.Edit.change).filterMap Prod.snd).trans (.of_eq ?_)
        rw [(edits_pairs pairs hedits).1, filterMap_map, ← filterMap_eq_map]
        rfl
      have hnd : ((((sortByKey.sort edits).map SumTree.Edit.change).filterMap Prod.snd).map KeyedItem.key).Nodup :=
        List.pairwise_map.mpr ((hins.sorted.sublist hsub).imp fun h => ne_of_lt h)
      have hedited : edits.map SumTree.Edit.key = (pairs.map fun pair => (⟨pair.1, pair.2⟩ : MapEntry K V)).map KeyedItem.key := by
        rw [hedits, map_map, map_map]
        rfl
      rw [hedited]
      exact ((hput.map KeyedItem.key).nodup_iff).mp hnd
    · rintro ⟨-, hnd⟩
      obtain ⟨m', hm', -, hins⟩ := extend_distinct sortByKey hm hcap hnd
      exact ⟨m', hm', hins⟩
  · constructor
    · rintro ⟨m', hm', -⟩
      cases pairs with
      | nil => exact ⟨.inl rfl, nodup_nil⟩
      | cons pair pairs =>
        have hnone : m.tree.edit sortByKey edits = none := by
          rw [edit, if_neg (by simp [hedits]), keyed_seek_full hm.ok (Nat.le_of_not_lt hcap)]
          rfl
        rw [extend, ← hedits, hnone] at hm'
        exact absurd hm' (by simp)
    · rintro ⟨rfl | h, -⟩
      · exact ⟨m, rfl, inserted_of_lookup hm hm rfl⟩
      · exact absurd h hcap

theorem extend_iff_row : (∃ m', extend insertionSort (⟨row⟩ : TreeMap Nat Nat) [(3, 1), (4, 1)] = some m' ∧
    Inserted ⟨row⟩ [(3, 1), (4, 1)] m') ∧
    ¬ ∃ m', extend insertionSort (⟨row⟩ : TreeMap Nat Nat) [(3, 1), (3, 2)] = some m' ∧
      Inserted ⟨row⟩ [(3, 1), (3, 2)] m' := by
  have hm : (⟨row⟩ : TreeMap Nat Nat).WellFormed := ⟨row_ok, by simp [Sorted, row, flat, KeyedItem.key]⟩
  exact ⟨(extend_iff insertionSort hm _).mpr ⟨.inr (by decide), by decide⟩,
    fun h => absurd ((extend_iff insertionSort hm _).mp h).2 (by decide)⟩

/-- A key that is given twice is in the map twice, and what is found is the value given first. -/
theorem extend_repeats :
    (extend insertionSort (⟨SumTree.new⟩ : TreeMap Nat Nat) [(1, 0), (1, 2)]).map (fun m => (m.tree.flat, m.get 1)) =
      some ([⟨1, 0⟩, ⟨1, 2⟩], some 0) ∧
    insertAll ([] : List (MapEntry Nat Nat)) [(1, 0), (1, 2)] = [⟨1, 2⟩] ∧ lastValue [(1, 0), (1, 2)] 1 = some 2 :=
  ⟨by decide +kernel, rfl, rfl⟩

theorem insertTree_spec (sortByKey : SortByKey (MapEntry K V) (MapKey K)) (hm : m.WellFormed) {other : TreeMap K V}
    (hother : other.WellFormed) (hcap : m.tree.height < STACK_CAPACITY) :
    ∃ m', m.insertTree sortByKey other = some m' ∧ m'.WellFormed ∧
      m.Inserted (other.tree.flat.map fun entry => (entry.key, entry.value)) m' := by
  refine extend_distinct sortByKey hm hcap ?_
  rw [map_map]
  refine List.pairwise_map.mpr (hother.sorted.imp fun h heq => ?_)
  exact absurd (MapKey.some_lt_some.mp h) (not_lt.mpr (le_of_eq (Eq.symm heq)))

end

end TreeMap

end SpkEditor
