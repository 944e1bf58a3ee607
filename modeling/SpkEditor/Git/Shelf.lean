import SpkEditor.Lib.Cut
import SpkEditor.Lib.Table

/-!
# The shelf

`git/src/operations/shelf.rs`: the named shelf entries of a repository are kept in memory and in
the table `shelf_entries`. A mutation changes the entries; `save` then deletes the rows of the
repository and inserts the entries one after the other. Every statement is committed by itself
and can fail, so what the ones before it have done stays. With `failAt` the statement of that
number fails.

A mutation is atomic exactly if none of its statements fails, unless there is nothing to save.
-/

namespace SpkEditor.Shelf

open Cut Table List

structure ShelfEntry (Summary : Type) where
  name : List Char
  stashSha : List Char
  createdAtUnix : Int
  sourceBranch : Option (List Char)
  description : Option (List Char)
  filesSummary : Summary

/-- A row of `shelf_entries`, without its primary key `(repo_hash, name)`. -/
structure ShelfRow where
  stashSha : List Char
  createdAtUnix : Int
  sourceBranch : Option (List Char)
  description : Option (List Char)
  filesSummaryJson : List Char

abbrev ShelfDb := List Char → List Char → Option ShelfRow

structure ShelfStore (Summary : Type) where
  repoKey : List Char
  entries : List (ShelfEntry Summary)

inductive ShelfError where
  /-- `a shelf entry named {:?} already exists` -/
  | alreadyExists (name : List Char)
  /-- `no shelf entry named {:?}` -/
  | noEntry (name : List Char)
  /-- What a statement failed with. -/
  | database

variable {Summary : Type} (toJson : Summary → List Char) (failAt : Option Nat)

def ShelfEntry.row (e : ShelfEntry Summary) : List Char × ShelfRow :=
  (e.name, ⟨e.stashSha, e.createdAtUnix, e.sourceBranch, e.description, toJson e.filesSummary⟩)

/-! ## Saving -/

def deleteForRepo (key : List Char) (db : ShelfDb) : ShelfDb :=
  Function.update db key fun _ => none

/-- `INSERT`, which fails for a key that is there. -/
def insertEntry (key : List Char) (row : List Char × ShelfRow) (db : ShelfDb) : Option ShelfDb :=
  if (db key row.1).isSome then none else some (Function.update db key (put (db key) row.1 row.2))

/-- The loop of `replace_entries_for_repo`, from the statement number `n` on. -/
def insertEntries (key : List Char) :
    Nat → List (List Char × ShelfRow) → ShelfDb → ShelfDb × Except ShelfError Unit
  | _, [], db => (db, .ok ())
  | n, row :: rows, db =>
    if failAt = some n then (db, .error .database)
    else
      match insertEntry key row db with
      | none => (db, .error .database)
      | some db => insertEntries key (n + 1) rows db

def replaceEntriesForRepo (key : List Char) (entries : List (ShelfEntry Summary)) (db : ShelfDb) :
    ShelfDb × Except ShelfError Unit :=
  let serialized := entries.map (ShelfEntry.row toJson)
  if failAt = some 0 then (db, .error .database)
  else insertEntries failAt key 1 serialized (deleteForRepo key db)

namespace ShelfStore

variable (s : ShelfStore Summary) (db : ShelfDb)

def save : ShelfDb × Except ShelfError Unit :=
  replaceEntriesForRepo toJson failAt s.repoKey s.entries db

/-! ## Mutations -/

def add (entry : ShelfEntry Summary) : ShelfStore Summary × ShelfDb × Except ShelfError Unit :=
  if s.entries.any (·.name = entry.name) then (s, db, .error (.alreadyExists entry.name))
  else
    let s := { s with entries := s.entries ++ [entry] }
    (s, s.save toJson failAt db)

def remove (name : List Char) : ShelfStore Summary × ShelfDb × Except ShelfError Unit :=
  let before := s.entries.length
  let s := { s with entries := s.entries.filter (·.name ≠ name) }
  if s.entries.length = before then (s, db, .error (.noEntry name)) else (s, s.save toJson failAt db)

end ShelfStore

/-- `iter_mut().find`, and what is then written through the reference. -/
def updateFirst {α : Type} (p : α → Bool) (f : α → α) : List α → Option (List α)
  | [] => none
  | a :: l => if p a then some (f a :: l) else (updateFirst p f l).map (a :: ·)

namespace ShelfStore

variable (s : ShelfStore Summary) (db : ShelfDb)

def rename (old new : List Char) : ShelfStore Summary × ShelfDb × Except ShelfError Unit :=
  if old = new then (s, db, .ok ())
  else if s.entries.any (·.name = new) then (s, db, .error (.alreadyExists new))
  else
    match updateFirst (·.name = old) (fun e => { e with name := new }) s.entries with
    | none => (s, db, .error (.noEntry old))
    | some entries =>
      let s := { s with entries }
      (s, s.save toJson failAt db)

/-- What `update_description` stores. -/
def nonBlank (desc : Option (List Char)) : Option (List Char) := desc.filter (trim · ≠ [])

def updateDescription (name : List Char) (desc : Option (List Char)) :
    ShelfStore Summary × ShelfDb × Except ShelfError Unit :=
  match updateFirst (·.name = name) (fun e => { e with description := nonBlank desc }) s.entries with
  | none => (s, db, .error (.noEntry name))
  | some entries =>
    let s := { s with entries }
    (s, s.save toJson failAt db)

end ShelfStore

inductive Mutation (Summary : Type) where
  | add (entry : ShelfEntry Summary)
  | remove (name : List Char)
  | rename (old new : List Char)
  | updateDescription (name : List Char) (desc : Option (List Char))

def Mutation.run (m : Mutation Summary) (s : ShelfStore Summary) (db : ShelfDb) :
    ShelfStore Summary × ShelfDb × Except ShelfError Unit :=
  match m with
  | .add entry => s.add toJson failAt db entry
  | .remove name => s.remove toJson failAt db name
  | .rename old new => s.rename toJson failAt db old new
  | .updateDescription name desc => s.updateDescription toJson failAt db name desc

/-! ## What is to hold -/

/-- Memory equals the persisted rows. -/
def Synced (s : ShelfStore Summary) (db : ShelfDb) : Prop :=
  Lists (db s.repoKey) (s.entries.map (ShelfEntry.row toJson))

/-- An error leaves everything as it was, after a success memory and rows are the same; and no
other repository is touched. -/
def Atomic (m : Mutation Summary) (s : ShelfStore Summary) (db : ShelfDb) : Prop :=
  let out := m.run toJson failAt s db
  (∀ error, out.2.2 = .error error → out.1 = s ∧ out.2.1 s.repoKey = db s.repoKey) ∧
    (out.2.2 = .ok () → Synced toJson out.1 out.2.1) ∧
    ∀ key, key ≠ s.repoKey → out.2.1 key = db key

/-- The mutation gets as far as to save. -/
def Saves (entries : List (ShelfEntry Summary)) : Mutation Summary → Prop
  | .add entry => entry.name ∉ entries.map (·.name)
  | .remove name => name ∈ entries.map (·.name)
  | .rename old new => old ≠ new ∧ new ∉ entries.map (·.name) ∧ old ∈ entries.map (·.name)
  | .updateDescription name _ => name ∈ entries.map (·.name)

/-- The number of its statements: a `DELETE`, and an `INSERT` for each entry there is then. -/
def statements (entries : List (ShelfEntry Summary)) : Mutation Summary → Nat
  | .add _ => entries.length + 2
  | .remove name => (entries.filter (·.name ≠ name)).length + 1
  | _ => entries.length + 1

def KeepsText (entries : List (ShelfEntry Summary)) : Mutation Summary → Prop
  | .updateDescription name desc =>
    ∃ e, entries.find? (·.name = name) = some e ∧ e.description = ShelfStore.nonBlank desc
  | _ => False

/-! ## One save -/

variable {toJson failAt} {s : ShelfStore Summary} {db : ShelfDb} {m : Mutation Summary}

theorem insertEntries_frame {key other : List Char} (hne : other ≠ key)
    (rows : List (List Char × ShelfRow)) (n : Nat) (db : ShelfDb) :
    (insertEntries failAt key n rows db).1 other = db other := by
  induction rows generalizing n db with
  | nil => rfl
  | cons row rows ih =>
    unfold insertEntries insertEntry
    split
    · rfl
    · split
      · rfl
      · rename_i db' hdb
        split at hdb
        · cases hdb
        · cases hdb
          rw [ih, Function.update_of_ne hne]

theorem insertEntries_spec {key : List Char} (rows : List (List Char × ShelfRow)) {n : Nat}
    {db : ShelfDb} {before : List (List Char × ShelfRow)} (h : Lists (db key) before)
    (hn : ((before ++ rows).map Prod.fst).Nodup) :
    ((∀ k, failAt = some k → k < n ∨ n + rows.length ≤ k) →
      (insertEntries failAt key n rows db).2 = .ok () ∧
      Lists ((insertEntries failAt key n rows db).1 key) (before ++ rows)) ∧
    ∀ k, k < rows.length → failAt = some (n + k) →
      (insertEntries failAt key n rows db).2 = .error .database ∧
      Lists ((insertEntries failAt key n rows db).1 key) (before ++ rows.take k) := by
  induction rows generalizing n db before with
  | nil => exact ⟨fun _ => ⟨rfl, by simpa [insertEntries] using h⟩, fun k hk => absurd hk (Nat.not_lt_zero k)⟩
  | cons row rows ih =>
    have hnew : row.1 ∉ before.map Prod.fst := by
      intro hmem
      rw [map_append, nodup_append] at hn
      exact hn.2.2 _ hmem _ (by simp) rfl
    have hinsert : insertEntry key row db =
        some (Function.update db key (put (db key) row.1 row.2)) := by
      rw [insertEntry, h.eq_none hnew]
      rfl
    have hrow : Lists (Function.update db key (put (db key) row.1 row.2) key) (before ++ [row]) := by
      rw [Function.update_self]
      exact h.put row.2 hnew
    obtain ⟨hall, hfails⟩ := @ih (n + 1) _ _ hrow (by simpa using hn)
    unfold insertEntries
    rw [hinsert]
    constructor
    · intro hk
      have hne : failAt ≠ some n := fun hf => by have := hk n hf; simp at this
      obtain ⟨hok, hlists⟩ := hall fun k hf => by have := hk k hf; simp at this; grind
      rw [if_neg hne]
      exact ⟨hok, by simpa using hlists⟩
    · intro k hlt hf
      cases k with
      | zero =>
        rw [if_pos (by simpa using hf)]
        exact ⟨rfl, by simpa using h⟩
      | succ k =>
        obtain ⟨herror, hlists⟩ := hfails k (by simpa using hlt) (by rw [hf]; congr 1; omega)
        rw [if_neg (by rw [hf]; simp)]
        exact ⟨herror, by simpa using hlists⟩

theorem save_frame {key : List Char} (hne : key ≠ s.repoKey) :
    (s.save toJson failAt db).1 key = db key := by
  unfold ShelfStore.save replaceEntriesForRepo
  split
  · rfl
  · rw [insertEntries_frame hne, deleteForRepo, Function.update_of_ne hne]

theorem map_fst_row (entries : List (ShelfEntry Summary)) :
    (entries.map (ShelfEntry.row toJson)).map Prod.fst = entries.map (·.name) := by
  rw [map_map]
  rfl

/-- A save comes to nothing if the `DELETE` fails, and leaves the first rows if an `INSERT` does. -/
theorem save_spec (hn : (s.entries.map (·.name)).Nodup) :
    ((∀ k, failAt = some k → s.entries.length + 1 ≤ k) →
      (s.save toJson failAt db).2 = .ok () ∧ Synced toJson s (s.save toJson failAt db).1) ∧
    (failAt = some 0 → s.save toJson failAt db = (db, .error .database)) ∧
    ∀ k, k < s.entries.length → failAt = some (k + 1) →
      (s.save toJson failAt db).2 = .error .database ∧
      Lists ((s.save toJson failAt db).1 s.repoKey)
        ((s.entries.map (ShelfEntry.row toJson)).take k) := by
  have hempty : Lists (deleteForRepo s.repoKey db s.repoKey) [] :=
    lists_nil fun k => by rw [deleteForRepo, Function.update_self]
  obtain ⟨hall, hfails⟩ := @insertEntries_spec failAt s.repoKey (s.entries.map (ShelfEntry.row toJson))
    1 _ _ hempty (by rwa [nil_append, map_fst_row])
  unfold ShelfStore.save replaceEntriesForRepo
  refine ⟨fun hk => ?_, fun hf => if_pos hf, fun k hlt hf => ?_⟩
  · have hne : failAt ≠ some 0 := fun hf => absurd (hk 0 hf) (by simp)
    rw [if_neg hne]
    refine hall fun k hf => .inr ?_
    rw [length_map, add_comm]
    exact hk k hf
  · rw [if_neg (by rw [hf]; simp)]
    exact hfails k (by simpa using hlt) (by rw [hf, add_comm])

/-! ## One mutation -/

theorem updateFirst_spec {α : Type} (p : α → Bool) (f : α → α) (l : List α) :
    updateFirst p f l = none ∧ (∀ a ∈ l, p a = false) ∨
      ∃ front a back, l = front ++ a :: back ∧ l.find? p = some a ∧
        updateFirst p f l = some (front ++ f a :: back) := by
  induction l with
  | nil => exact .inl ⟨rfl, by simp⟩
  | cons a l ih =>
    unfold updateFirst
    cases ha : p a with
    | true => exact .inr ⟨[], a, l, rfl, find?_cons_of_pos ha, if_pos rfl⟩
    | false =>
      rcases ih with ⟨hnone, hl⟩ | ⟨front, b, back, rfl, hfind, hsome⟩
      · exact .inl ⟨by rw [hnone]; rfl, List.forall_mem_cons.mpr ⟨ha, hl⟩⟩
      · refine .inr ⟨a :: front, b, back, rfl, ?_, by rw [hsome]; rfl⟩
        rw [find?_cons_of_neg (by simp [ha]), hfind]

/-- A mutation that does not get as far as to save changes nothing. One that does has changed the
entries, and keeps their names apart. -/
theorem run_cases (hn : (s.entries.map (·.name)).Nodup) (m : Mutation Summary) :
    (¬ Saves s.entries m → ∃ result, m.run toJson failAt s db = (s, db, result)) ∧
    (Saves s.entries m → ∃ entries : List (ShelfEntry Summary), m.run toJson failAt s db =
        ({ s with entries }, ShelfStore.save toJson failAt { s with entries } db) ∧
      (entries.map (·.name)).Nodup ∧ statements s.entries m = entries.length + 1 ∧
      (entries = s.entries ↔ KeepsText s.entries m)) := by
  cases m with
  | add entry =>
    have hany : s.entries.any (·.name = entry.name) = true ↔ entry.name ∈ s.entries.map (·.name) := by
      simp
    constructor
    · intro h
      exact ⟨_, if_pos (hany.mpr (not_not.mp h))⟩
    · intro h
      refine ⟨s.entries ++ [entry], if_neg (hany.not.mpr h), ?_, by simp [statements], ?_⟩
      · rw [map_append]
        refine hn.append (nodup_singleton _) fun name hname hentry => h ?_
        obtain rfl := List.mem_singleton.mp hentry
        exact hname
      · exact iff_of_false (by simp) not_false
  | remove name =>
    have hlen : (s.entries.filter (·.name ≠ name)).length = s.entries.length ↔
        name ∉ s.entries.map (·.name) := by
      simp
    constructor
    · intro h
      refine ⟨.error (.noEntry name), ?_⟩
      have hkept : s.entries.filter (·.name ≠ name) = s.entries :=
        List.filter_sublist.eq_of_length (hlen.mpr h)
      unfold Mutation.run ShelfStore.remove
      dsimp only
      rw [if_pos (hlen.mpr h), hkept]
    · intro h
      refine ⟨s.entries.filter (·.name ≠ name), if_neg (hlen.not.mpr (not_not.mpr h)),
        hn.sublist (List.filter_sublist.map _), rfl, ?_⟩
      exact iff_of_false (fun heq => hlen.mp (congrArg List.length heq) h) not_false
  | rename old new =>
    have hany : s.entries.any (·.name = new) = true ↔ new ∈ s.entries.map (·.name) := by simp
    dsimp only [Mutation.run, ShelfStore.rename]
    by_cases heq : old = new
    · exact ⟨fun _ => ⟨_, if_pos heq⟩, fun h => absurd heq h.1⟩
    by_cases hnew : new ∈ s.entries.map (·.name)
    · rw [if_neg heq, if_pos (hany.mpr hnew)]
      exact ⟨fun _ => ⟨_, rfl⟩, fun h => absurd hnew h.2.1⟩
    rw [if_neg heq, if_neg (hany.not.mpr hnew)]
    rcases updateFirst_spec (·.name = old) (fun e => { e with name := new }) s.entries with
      ⟨hnone, hl⟩ | ⟨front, e, back, hl, hfind, hsome⟩
    · rw [hnone]
      exact ⟨fun _ => ⟨_, rfl⟩, fun h => absurd h.2.2 (by simpa using hl)⟩
    · have hold : e.name = old := by simpa using find?_some hfind
      rw [hsome]
      refine ⟨fun h => absurd ⟨heq, hnew, by simp [hl, hold]⟩ h, fun _ => ⟨_, rfl, ?_, ?_, ?_⟩⟩
      · rw [hl, map_append, map_cons, nodup_middle] at hn
        rw [map_append, map_cons, nodup_middle, nodup_cons]
        refine ⟨fun hmem => hnew ?_, (List.nodup_cons.mp hn).2⟩
        rw [hl, map_append, map_cons]
        rcases List.mem_append.mp hmem with h | h <;> simp [h]
      · simp [statements, hl]
      · refine iff_of_false (fun h => heq ?_) not_false
        rw [hl, append_cancel_left_eq] at h
        rw [← hold, ← (List.cons.inj h).1]
  | updateDescription name desc =>
    dsimp only [Mutation.run, ShelfStore.updateDescription]
    rcases updateFirst_spec (·.name = name)
      (fun e => { e with description := ShelfStore.nonBlank desc }) s.entries with
      ⟨hnone, hl⟩ | ⟨front, e, back, hl, hfind, hsome⟩
    · rw [hnone]
      exact ⟨fun _ => ⟨_, rfl⟩, fun h => absurd h (by simpa [Saves] using hl)⟩
    · have hname : e.name = name := by simpa using find?_some hfind
      rw [hsome]
      refine ⟨fun h => absurd (by simp [Saves, hl, hname]) h, fun _ => ⟨_, rfl, ?_, ?_, ?_⟩⟩
      · rw [hl] at hn
        simpa using hn
      · simp [statements, hl]
      · dsimp only [KeepsText]
        rw [hfind]
        constructor
        · intro h
          rw [hl, append_cancel_left_eq] at h
          refine ⟨e, rfl, ?_⟩
          rw [← (List.cons.inj h).1]
        · rintro ⟨_, ⟨⟩, hdesc⟩
          rw [← hdesc, hl]

/-- **A mutation is atomic** exactly if it does not get as far as to save, or none of its
statements fails, or it stores the description that is there and it is the `DELETE` that fails. -/
theorem mutation_atomic_iff (hs : Synced toJson s db) : Atomic toJson failAt m s db ↔
      ¬ Saves s.entries m ∨ (∀ k, failAt = some k → statements s.entries m ≤ k) ∨
        failAt = some 0 ∧ KeepsText s.entries m := by
  have hn : (s.entries.map (·.name)).Nodup := by
    rw [← @map_fst_row _ toJson]
    exact hs.1
  obtain ⟨hrefused, hsaves⟩ := @run_cases _ toJson failAt s db hn m
  by_cases hsave : Saves s.entries m
  · obtain ⟨entries, hrun, hn', hcount, hkeeps⟩ := hsaves hsave
    obtain ⟨hall, hdelete, hinsert⟩ :=
      @save_spec _ toJson failAt { s with entries } db hn'
    unfold Atomic
    rw [hrun, hcount, ← hkeeps]
    by_cases hfine : ∀ k, failAt = some k → entries.length + 1 ≤ k
    · obtain ⟨hok, hsynced⟩ := hall hfine
      refine iff_of_true ⟨fun error he => ?_, fun _ => hsynced, fun key hkey => save_frame hkey⟩
        (.inr (.inl hfine))
      rw [hok] at he
      cases he
    · obtain ⟨k, hk⟩ := not_forall.mp hfine
      obtain ⟨hf, hlt⟩ := Classical.not_imp.mp hk
      cases k with
      | zero =>
        have hsaved := hdelete hf
        rw [hsaved]
        constructor
        · intro h
          exact .inr (.inr ⟨hf, congrArg ShelfStore.entries (h.1 _ rfl).1⟩)
        · rintro (h | h | ⟨-, rfl⟩)
          · exact absurd hsave h
          · exact absurd h hfine
          · exact ⟨fun _ _ => ⟨rfl, rfl⟩, (nomatch ·), fun _ _ => rfl⟩
      | succ k =>
        have hlen : k < entries.length := by omega
        obtain ⟨herror, hrows⟩ := hinsert k hlen hf
        refine iff_of_false (fun h => ?_) ?_
        · -- the rows are those of the first `k` entries only
          obtain ⟨hstore, hdb⟩ := h.1 _ herror
          have heq : entries = s.entries := congrArg ShelfStore.entries hstore
          rw [hdb] at hrows
          have hperm := hrows.perm hs
          have := hperm.length_eq
          rw [length_take, length_map, length_map, heq] at this
          rw [heq] at hlen
          omega
        · rintro (h | h | ⟨h, -⟩)
          · exact h hsave
          · exact hfine h
          · rw [hf] at h
            simp at h
  · obtain ⟨result, hrun⟩ := hrefused hsave
    refine iff_of_true ?_ (.inl hsave)
    unfold Atomic
    rw [hrun]
    exact ⟨fun _ _ => ⟨rfl, rfl⟩, fun _ => hs, fun _ _ => rfl⟩

def sampleEntry : ShelfEntry Unit := ⟨['w'], ['a'], 0, none, none, ()⟩

theorem mutation_atomic_add :
    Atomic (fun _ => []) none (.add sampleEntry) ⟨['r'], []⟩ fun _ _ => none :=
  have hs : Synced (fun _ => []) (⟨['r'], []⟩ : ShelfStore Unit) fun _ _ => none :=
    lists_nil fun _ => rfl
  (mutation_atomic_iff hs).mpr (.inr (.inl nofun))

/-- The `INSERT` fails: the entry is not stored, and stays in memory. -/
theorem mutation_not_atomic_add :
    Synced (fun _ => []) (⟨['r'], []⟩ : ShelfStore Unit) (fun _ _ => none) ∧
      ¬ Atomic (fun _ => []) (some 1) (.add sampleEntry) ⟨['r'], []⟩ fun _ _ => none := by
  refine ⟨lists_nil fun _ => rfl, fun h => ?_⟩
  have hstore := congrArg ShelfStore.entries (h.1 .database rfl).1
  cases hstore

end SpkEditor.Shelf
