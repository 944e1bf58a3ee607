import SpkEditor.Git.RebaseRows
import SpkEditor.Git.Squash

/-!
# A rebase planned by an agent

`git_ui/src/interactive_rebase/ai_planner.rs`: the reply of the agent is a JSON list of actions. An
entry with an action or a sha that is not allowed is left out, and short shas are resolved to the
commits they are prefixes of. The rows of the view are then replaced by what is left.

Nothing looks whether the reply has an entry for each commit. So a commit is in the new rows as
often as there are usable entries for it (`planned_rows_spec`).
-/

namespace SpkEditor.Rebase

open Cut List

structure RawAction where
  action : Text
  sha : Text
  newMessage : Option Text
  insertAfter : Option Text

def stripJsonFence (raw : Text) : Text :=
  let trimmed := trim raw
  let afterOpen :=
    if "```json".toList <+: trimmed then (trimmed.drop 7).dropWhile (· = '\n')
    else if "```".toList <+: trimmed then (trimmed.drop 3).dropWhile (· = '\n')
    else trimmed
  if "```".toList <:+ afterOpen then trimEnd ((afterOpen.dropLast.dropLast.dropLast).rdropWhile (· = '\n'))
  else afterOpen

def isValidShortOrFullSha (sha : Text) : Bool :=
  7 ≤ byteLen sha ∧ byteLen sha ≤ 40 ∧ sha.all fun c => c.isDigit || ('a' ≤ c ∧ c ≤ 'f')

/-- Up to case, one of them begins with the other. -/
def shaMatches (sha row : Text) : Bool :=
  toAsciiLowercase row = toAsciiLowercase sha ∨ toAsciiLowercase sha <+: toAsciiLowercase row ∨
    toAsciiLowercase row <+: toAsciiLowercase sha

variable (rows : List Text)

def shaInInput (sha : Text) : Bool := isValidShortOrFullSha sha && rows.any (shaMatches sha)

def resolveFullSha (sha : Text) : Text := (rows.find? (shaMatches sha)).getD sha

def plannerAction (action : Text) : Option TodoAction :=
  match String.ofList (toAsciiLowercase action) with
  | "pick" => some .pick
  | "squash" => some .squash
  | "fixup" => some .fixup
  | "reword" => some .reword
  | "drop" => some .drop
  | _ => none

/-- The body of the loop, with what it pushes. -/
def cleanEntry (entry : RawAction) : Option PlannedAction :=
  match plannerAction entry.action with
  | none => none
  | some action =>
    if !shaInInput rows entry.sha then none
    else
      let insertAfter := entry.insertAfter.bind fun s =>
        if s ≠ [] ∧ !shaInInput rows s then none else some (resolveFullSha rows s)
      some ⟨action, resolveFullSha rows entry.sha, entry.newMessage, insertAfter⟩

/-- `fromStr` is the parser of the JSON list. -/
def sanitizeResponse (fromStr : Text → Except Text (List RawAction)) (raw : Text) :
    Except Text (List PlannedAction) :=
  match fromStr (stripJsonFence raw) with
  | .error err =>
    .error ("AI returned malformed JSON (".toList ++ err ++ "); raw response: ".toList ++ raw.take 200)
  | .ok parsed =>
    let cleaned := parsed.filterMap (cleanEntry rows)
    if cleaned = [] then
      .error "AI auto-organize produced no usable actions after sanitization".toList
    else .ok cleaned

/-! ## The todo list -/

/-- The step for a row; `token` is for a reword. -/
def TodoRow.step (token : Text) (row : TodoRow) : TodoStep :=
  match row.action with
  | .pick => .pick row.sha
  | .reword => .reword row.sha token
  | .edit => .edit row.sha
  | .squash => .squash row.sha
  | .fixup => .fixup row.sha
  | .drop => .drop row.sha
  | .exec => .exec (row.shellCommand.getD [])

/-- The body of the loop of `build_todo_from_rows`. -/
def RebaseTodo.push (token : Text) (b : RebaseTodo) (row : TodoRow) : RebaseTodo :=
  match row.action with
  | .reword => b.reword row.sha token (row.messageOverride.getD row.originalMessage)
  | _ => { b with steps := b.steps ++ [row.step token] }

/-- `generateToken` gives the token for the row of that number. -/
def buildTodoFromRows (generateToken : Nat → Text) (rows : List TodoRow) : RebaseTodo :=
  rows.zipIdx.foldl (fun b row => b.push (generateToken row.2) row.1) ⟨[], []⟩

/-! ## What is to hold -/

/-- The entry is usable, and `sha` is the first commit that matches it. -/
def RawAction.IsFor (entry : RawAction) (sha : Text) : Prop :=
  (plannerAction entry.action).isSome ∧ isValidShortOrFullSha entry.sha ∧
    rows.find? (shaMatches entry.sha) = some sha

instance (entry : RawAction) (sha : Text) : Decidable (entry.IsFor rows sha) :=
  inferInstanceAs (Decidable (_ ∧ _ ∧ _))

def plannerActions : List TodoAction := [.pick, .squash, .fixup, .reword, .drop]

/-- Each commit is there `count` times, no action is outside the five, and nothing is run but the
helper. -/
def Replaced (newRows : List TodoRow) (todo : RebaseTodo) (helperCmd : Text) (count : Text → Nat) :
    Prop :=
  (∀ sha ∈ rows, (newRows.map (·.sha)).count sha = count sha) ∧
  (∀ row ∈ newRows, row.sha ∈ rows ∧ row.action ∈ plannerActions) ∧
  ∀ step ∈ todo.steps, (step.execCommand helperCmd).isSome → ∃ sha token, step = .reword sha token

variable {rows}

/-! ## The entries that are left -/

theorem plannerAction_mem {action : Text} {a : TodoAction} (h : plannerAction action = some a) :
    a ∈ plannerActions := by
  unfold plannerAction at h
  split at h <;> cases h <;> decide

theorem cleanEntry_none {entry : RawAction} (h : cleanEntry rows entry = none) (sha : Text) :
    ¬ entry.IsFor rows sha := by
  rintro ⟨haction, hvalid, hfind⟩
  obtain ⟨action, haction⟩ := Option.isSome_iff_exists.mp haction
  have hin : shaInInput rows entry.sha = true := by
    unfold shaInInput
    rw [hvalid, Bool.true_and, any_eq_true]
    exact ⟨sha, mem_of_find?_eq_some hfind, find?_some hfind⟩
  unfold cleanEntry at h
  rw [haction] at h
  simp only [hin, Bool.not_true, Bool.false_eq_true, if_false] at h
  cases h

theorem cleanEntry_some {entry : RawAction} {a : PlannedAction}
    (h : cleanEntry rows entry = some a) :
    a.sha ∈ rows ∧ a.action ∈ plannerActions ∧ ∀ sha, entry.IsFor rows sha ↔ a.sha = sha := by
  unfold cleanEntry at h
  split at h
  · cases h
  next action haction =>
    by_cases hin : shaInInput rows entry.sha = true
    · simp only [hin, Bool.not_true, Bool.false_eq_true, if_false] at h
      cases h
      obtain ⟨hvalid, hany⟩ := Bool.and_eq_true_iff.mp hin
      obtain ⟨row, hrow, hmatch⟩ := any_eq_true.mp hany
      obtain ⟨first, hfirst⟩ := Option.isSome_iff_exists.mp (find?_isSome.mpr ⟨row, hrow, hmatch⟩)
      have hresolve : resolveFullSha rows entry.sha = first := by
        unfold resolveFullSha
        rw [hfirst, Option.getD_some]
      rw [hresolve]
      refine ⟨mem_of_find?_eq_some hfirst, plannerAction_mem haction, fun sha => ?_⟩
      unfold RawAction.IsFor
      rw [haction, hfirst]
      simp [hvalid]
    · simp only [hin, Bool.not_false, if_true] at h
      cases h

/-- The actions for a commit are those of the entries for it. -/
theorem count_cleaned (parsed : List RawAction) (sha : Text) :
    ((parsed.filterMap (cleanEntry rows)).map (·.sha)).count sha =
      parsed.countP fun entry => entry.IsFor rows sha := by
  induction parsed with
  | nil => rfl
  | cons entry parsed ih =>
    rw [countP_cons, ← ih]
    cases hentry : cleanEntry rows entry with
    | none =>
      rw [filterMap_cons_none hentry]
      simp [cleanEntry_none hentry sha]
    | some a =>
      rw [filterMap_cons_some hentry, map_cons, count_cons]
      simp [(cleanEntry_some hentry).2.2 sha]

/-! ## The rows -/

variable {view : List TodoRow}

section

variable (hview : (view.filter (·.sha ≠ [])).map (·.sha) = rows)
include hview

theorem originalBySha_of_mem {sha : Text}
    (hsha : sha ∈ rows) : ∃ row, originalBySha view sha = some row ∧ row.sha = sha := by
  obtain ⟨row, hrow, rfl⟩ := mem_map.mp (hview ▸ hsha)
  obtain ⟨found, hfound⟩ := Option.isSome_iff_exists.mp
    (find?_isSome (p := fun r : TodoRow => r.sha = row.sha).mpr
      ⟨row, mem_reverse.mpr hrow, decide_eq_true rfl⟩)
  have hsha := find?_some hfound
  exact ⟨found, hfound, of_decide_eq_true hsha⟩

theorem plannedRows_map (ordered : List PlannedAction) (h : ∀ a ∈ ordered, a.sha ∈ rows) :
    (plannedRows view ordered).map (fun row => (row.sha, row.action)) =
      ordered.map fun a => (a.sha, a.action) := by
  induction ordered with
  | nil => rfl
  | cons a ordered ih =>
    obtain ⟨row, hrow, hsha⟩ := originalBySha_of_mem hview (h a mem_cons_self)
    unfold plannedRows at ih ⊢
    rw [filterMap_cons_some (by rw [hrow]; rfl), map_cons, map_cons,
      ih fun b hb => h b (mem_cons_of_mem a hb)]
    rw [hsha]

end

theorem steps_buildTodo {generateToken : Nat → Text} {newRows : List TodoRow} {step : TodoStep}
    (h : step ∈ (buildTodoFromRows generateToken newRows).steps) :
    ∃ row ∈ newRows, ∃ token, step = row.step token := by
  have hfold : ∀ (l : List (TodoRow × Nat)) (b : RebaseTodo),
      step ∈ (l.foldl (fun b row => b.push (generateToken row.2) row.1) b).steps →
        step ∈ b.steps ∨ ∃ row ∈ l.map (·.1), ∃ token, step = row.step token := by
    intro l
    induction l with
    | nil => exact fun b h => .inl h
    | cons r l ih =>
      intro b h
      rcases ih _ h with h | ⟨row, hrow, h⟩
      · have hsteps : (b.push (generateToken r.2) r.1).steps =
            b.steps ++ [r.1.step (generateToken r.2)] := by
          unfold RebaseTodo.push TodoRow.step
          cases r.1.action <;> rfl
        rcases mem_append.mp (hsteps ▸ h) with h | h
        · exact .inl h
        · exact .inr ⟨r.1, mem_cons_self, _, mem_singleton.mp h⟩
      · exact .inr ⟨row, mem_cons_of_mem _ hrow, h⟩
  rcases hfold _ _ h with h | ⟨row, hrow, h⟩
  · cases h
  · rw [zipIdx_map_fst] at hrow
    exact ⟨row, hrow, h⟩

/-- **The rows of a plan**: each commit as often as the reply has usable entries for it. -/
theorem planned_rows_spec {fromStr : Text → Except Text (List RawAction)} {raw : Text}
    {parsed : List RawAction} {actions ordered : List PlannedAction} {fuel : Nat}
    (hview : (view.filter (·.sha ≠ [])).map (·.sha) = rows)
    (hparsed : fromStr (stripJsonFence raw) = .ok parsed)
    (hok : sanitizeResponse rows fromStr raw = .ok actions)
    (hordered : reorder fuel (actions, 0) = some ordered) (generateToken : Nat → Text)
    (helperCmd : Text) :
    Replaced rows (plannedRows view ordered)
      (buildTodoFromRows generateToken (plannedRows view ordered)) helperCmd
      fun sha => parsed.countP fun entry => entry.IsFor rows sha := by
  have hactions : actions = parsed.filterMap (cleanEntry rows) := by
    unfold sanitizeResponse at hok
    rw [hparsed] at hok
    dsimp only at hok
    split at hok
    · cases hok
    · exact (Except.ok.inj hok).symm
  have hperm : ordered.Perm actions := reorder_perm hordered
  have hspec : ∀ a ∈ ordered, a.sha ∈ rows ∧ a.action ∈ plannerActions := fun a ha => by
    obtain ⟨entry, -, hentry⟩ := mem_filterMap.mp (hactions ▸ hperm.mem_iff.mp ha)
    exact ⟨(cleanEntry_some hentry).1, (cleanEntry_some hentry).2.1⟩
  have hmap := plannedRows_map hview ordered fun a ha => (hspec a ha).1
  have hshas := congrArg (List.map Prod.fst) hmap
  rw [map_map, map_map] at hshas
  have hrows : ∀ row ∈ plannedRows view ordered, row.sha ∈ rows ∧ row.action ∈ plannerActions := by
    intro row hrow
    have hmem : (row.sha, row.action) ∈ ordered.map fun a => (a.sha, a.action) :=
      hmap ▸ mem_map_of_mem hrow
    obtain ⟨a, ha, heq⟩ := mem_map.mp hmem
    have := hspec a ha
    rw [Prod.mk.injEq] at heq
    rwa [heq.1, heq.2] at this
  refine ⟨fun sha _ => ?_, hrows, fun step hstep hexec => ?_⟩
  · dsimp only
    rw [← count_cleaned, ← hactions, ← (hperm.map _).count_eq]
    exact congrArg (List.count sha) hshas
  · obtain ⟨row, hrow, token, rfl⟩ := steps_buildTodo hstep
    have haction := (hrows row hrow).2
    unfold TodoRow.step at hexec ⊢
    cases hact : row.action <;> rw [hact] at hexec haction
    case reword => exact ⟨_, _, rfl⟩
    case exec => cases of_decide_eq_false (p := TodoAction.exec ∈ plannerActions) (by decide) haction
    all_goals cases hexec

def pickOf (commit : Char) : RawAction := ⟨"pick".toList, sha commit, none, none⟩

def commitRows : List TodoRow :=
  [{ sha := sha 'a', originalMessage := ['A'] }, { sha := sha 'b', originalMessage := ['B'] }]

def twoActions : List PlannedAction :=
  [⟨.pick, sha 'b', none, none⟩, ⟨.pick, sha 'a', none, none⟩]

/-- A reply for the second commit, and then the first one. -/
theorem planned_rows_two : Replaced [sha 'a', sha 'b'] (plannedRows commitRows twoActions)
    (buildTodoFromRows (fun _ => []) (plannedRows commitRows twoActions)) []
    fun sha' => [pickOf 'b', pickOf 'a'].countP fun entry => entry.IsFor [sha 'a', sha 'b'] sha' :=
  @planned_rows_spec _ commitRows (fun _ => .ok [pickOf 'b', pickOf 'a']) [] _ twoActions
    twoActions 3 (by decide) rfl (by rfl) rfl _ _

/-- A reply for one of them only: the other one is lost. -/
theorem planned_rows_lost : ∃ actions ordered,
    sanitizeResponse [sha 'a', sha 'b'] (fun _ => .ok [pickOf 'a']) [] = .ok actions ∧
    reorder 2 (actions, 0) = some ordered ∧
    ¬ Replaced [sha 'a', sha 'b'] (plannedRows commitRows ordered)
      (buildTodoFromRows (fun _ => []) (plannedRows commitRows ordered)) [] fun _ => 1 := by
  refine ⟨_, _, rfl, rfl, fun h => ?_⟩
  have := h.1 (sha 'b') (by decide)
  revert this
  decide

end SpkEditor.Rebase
