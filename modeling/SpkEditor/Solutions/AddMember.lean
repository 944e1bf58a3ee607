import Mathlib.Algebra.Order.Ring.Nat
import SpkEditor.Lib.Run
import SpkEditor.Solutions.Config

/-!
# Adding members

`solutions/src/add_member.rs` and the mutators of `store.rs` an add can meet. `add_member`
checks its request and files a record of it; a task does the work: bring the cache up to
date, wipe what an earlier add left at the target, clone, point the clone at its remote.
One lock serves the tasks in turn. The task looks at its cancel flag twice, after the cache
and after the clone, and ends by pushing the member or by marking its record as failed.

The store's methods run on the main thread, so they interleave with a task only where the
task waits: each wait is a stage here. What git and the file system answer is part of the
step that hears it.
-/

namespace SpkEditor.Solutions

/-- What an add in flight is filed under: its solution and its catalog entry. -/
abbrev AddKey := List Char × List Char

def cancelledText : List Char := "cancelled".toList

/-- Where the task of an add waits. -/
inductive Stage where
  /-- For the lock. -/
  | queued
  /-- In `ensure_cache`. -/
  | caching
  /-- In `remove_dir_all`: the target was there. -/
  | wiping
  /-- In `clone_local`. -/
  | cloning
  /-- In `set_remote_url` or `checkout`. -/
  | settling
  /-- The work is over with this error, if any; the last progress is still to be pumped. -/
  | completing (error : Option (List Char))
  | ended
deriving DecidableEq

structure AddTask where
  solutionId : List Char
  catalogId : List Char
  target : Path
  /-- `cancel_flag`, which its record shares. -/
  cancelFlag : Bool
  stage : Stage

def AddTask.key (task : AddTask) : AddKey := (task.solutionId, task.catalogId)

/-- `InFlightAdd`: what the panel shows of the add is left out. -/
structure InFlightAdd where
  error : Option (List Char)
  /-- The add whose task holds the other end of `cancel_flag`. -/
  add : Nat

/-- What the store tells, with the add it is about. The event itself names the solution and
the catalog entry only. -/
inductive AddEvent where
  | memberAddCompleted (add : Nat) (solution catalog : List Char) (error : Option (List Char))
  /-- The member is pushed. -/
  | pushed (add : Nat) (m : SolutionMember)

def AddEvent.add : AddEvent → Nat
  | .memberAddCompleted add _ _ _ => add
  | .pushed add _ => add

def AddEvent.isCompletion : AddEvent → Bool
  | .memberAddCompleted .. => true
  | .pushed .. => false

/-- The store, its tasks, and what was told so far. Accepted adds are numbered. -/
structure AddState where
  config : Config
  inFlight : AddKey → Option InFlightAdd
  tasks : Nat → Option AddTask
  /-- The number of accepted adds. -/
  accepted : Nat
  /-- The task that holds `fs_lock`. -/
  lock : Option Nat
  log : List AddEvent

/-- A store that has just loaded its configuration. -/
def AddState.start (c : Config) : AddState := ⟨c, fun _ => none, fun _ => none, 0, none, []⟩

namespace AddState

variable (s : AddState)

def tell (es : List AddEvent) : AddState := { s with log := s.log ++ es }

def setTask (t : Nat) (task : AddTask) : AddState :=
  { s with tasks := Function.update s.tasks t (some task) }

def setRecord (k : AddKey) (r : Option InFlightAdd) : AddState :=
  { s with inFlight := Function.update s.inFlight k r }

/-! ## The store's methods -/

/-- The checks of `add_member`, with the solution it is for. -/
def accepts (solutionId catalogId : List Char) : Option Solution :=
  (s.config.find solutionId).bind fun sol =>
    if s.config.catalog.any (·.id = catalogId) ∧ ¬ sol.members.any (·.catalogId = catalogId) ∧
        s.inFlight (solutionId, catalogId) = none then some sol
    else none

/-- `add_member`. A refused call only answers with an error. -/
def addMember (solutionId catalogId : List Char) : AddState :=
  match s.accepts solutionId catalogId with
  | none => s
  | some sol =>
    { s with
      inFlight := Function.update s.inFlight (solutionId, catalogId) (some ⟨none, s.accepted⟩)
      tasks := Function.update s.tasks s.accepted
        (some ⟨solutionId, catalogId, sol.root.join catalogId, false, .queued⟩)
      accepted := s.accepted + 1 }

/-- The other end of a record's flag. -/
def raiseFlag (t : Nat) : AddState :=
  { s with
    tasks := Function.update s.tasks t ((s.tasks t).map fun task => { task with cancelFlag := true }) }

/-- `cancel_add_member`. -/
def cancelAddMember (solutionId catalogId : List Char) : AddState :=
  match s.inFlight (solutionId, catalogId) with
  | none => s
  | some r =>
    ((s.setRecord (solutionId, catalogId) none).raiseFlag r.add).tell
      [.memberAddCompleted r.add solutionId catalogId (some cancelledText)]

/-- `clear_failed_add`. -/
def clearFailedAdd (solutionId catalogId : List Char) : AddState :=
  match s.inFlight (solutionId, catalogId) with
  | none => s
  | some r => if r.error.isSome then s.setRecord (solutionId, catalogId) none else s

/-- `add_empty_member`; `created` is whether its directory could be. -/
def addEmptyMember (sha : List Char → Nat) (solutionId projectName : List Char) (created : Bool) :
    AddState :=
  match s.config.addEmptyMember sha solutionId projectName with
  | none => s
  | some (_, _, c) => if created then { s with config := c } else s

/-- A method of the store that only changes the configuration, when it does not fail. -/
def withConfig (c : Option Config) : AddState := { s with config := c.getD s.config }

/-- `remove_catalog_project_cascade`: the records of the entry go, their flags stay. -/
def removeCatalogProjectCascade (id : List Char) : AddState :=
  match s.config.removeCatalogProjectCascade id with
  | none => s
  | some (_, c) =>
    { s with
      config := c
      inFlight := fun k => if k.2 = id then none else s.inFlight k }

/-! ## The steps of a task -/

/-- A step a task takes from one of its stages. -/
def fromStage (t : Nat) (stage : Stage) (f : AddTask → AddState) : Option AddState :=
  (s.tasks t).bind fun task => if task.stage = stage then some (f task) else none

def goTo (t : Nat) (task : AddTask) (stage : Stage) : AddState :=
  s.setTask t { task with stage := stage }

def endWork (t : Nat) (task : AddTask) (error : Option (List Char)) : AddState :=
  { s.goTo t task (.completing error) with lock := none }

/-- The lock is free and this task gets it. -/
def acquire (t : Nat) : Option AddState :=
  if s.lock = none then s.fromStage t .queued fun task => { s.goTo t task .caching with lock := some t }
  else none

/-- `ensure_cache` is back; the flag is looked at, then whether the target is there. -/
def cached (t : Nat) (error : Option (List Char)) (targetExists : Bool) : Option AddState :=
  s.fromStage t .caching fun task =>
    match error with
    | some e => s.endWork t task (some e)
    | none =>
      if task.cancelFlag then s.endWork t task (some cancelledText)
      else s.goTo t task (if targetExists then .wiping else .cloning)

def wiped (t : Nat) (error : Option (List Char)) : Option AddState :=
  s.fromStage t .wiping fun task =>
    match error with
    | some e => s.endWork t task (some e)
    | none => s.goTo t task .cloning

/-- `clone_local` is back; the flag is looked at for the last time. -/
def cloned (t : Nat) (error : Option (List Char)) : Option AddState :=
  s.fromStage t .cloning fun task =>
    match error with
    | some e => s.endWork t task (some e)
    | none =>
      if task.cancelFlag then s.endWork t task (some cancelledText)
      else s.goTo t task .settling

/-- `set_remote_url` is back; `checkout` cannot fail the add. -/
def settled (t : Nat) (error : Option (List Char)) : Option AddState :=
  s.fromStage t .settling fun task => s.endWork t task error

/-- The work went well: the member is pushed if its solution is still there. -/
def complete (t : Nat) (task : AddTask) : AddState :=
  let m : SolutionMember := ⟨task.catalogId, task.target⟩
  let done := (s.goTo t task .ended).setRecord task.key none
  let completed := AddEvent.memberAddCompleted t task.solutionId task.catalogId none
  match s.config.pushMember task.solutionId m with
  | none => done.tell [completed]
  | some (_, c) => { done with config := c }.tell [.pushed t m, completed]

/-- The work failed: the record is marked, and nothing is told when it is gone. -/
def fail (t : Nat) (task : AddTask) (e : List Char) : AddState :=
  let done := s.goTo t task .ended
  match s.inFlight task.key with
  | none => done
  | some r =>
    (done.setRecord task.key (some { r with error := some e })).tell
      [.memberAddCompleted t task.solutionId task.catalogId (some e)]

def finish (t : Nat) : Option AddState :=
  (s.tasks t).bind fun task =>
    match task.stage with
    | .completing none => some (s.complete t task)
    | .completing (some e) => some (s.fail t task e)
    | _ => none

end AddState

/-- What happens next: a call of a method, or a wait of a task that is over. -/
inductive AddOp where
  | addMember (solutionId catalogId : List Char)
  | cancelAddMember (solutionId catalogId : List Char)
  | clearFailedAdd (solutionId catalogId : List Char)
  | addEmptyMember (solutionId projectName : List Char) (created : Bool)
  | removeMember (solutionId catalogId : List Char)
  | removeCatalogProject (id : List Char)
  | removeCatalogProjectCascade (id : List Char)
  | deleteSolution (id : List Char)
  | acquire (t : Nat)
  | cached (t : Nat) (error : Option (List Char)) (targetExists : Bool)
  | wiped (t : Nat) (error : Option (List Char))
  | cloned (t : Nat) (error : Option (List Char))
  | settled (t : Nat) (error : Option (List Char))
  | finish (t : Nat)

def AddOp.task? : AddOp → Option Nat
  | .acquire t | .cached t _ _ | .wiped t _ | .cloned t _ | .settled t _ | .finish t => some t
  | _ => none

def AddState.step (sha : List Char → Nat) (s : AddState) : AddOp → Option AddState
  | .addMember sid cid => some (s.addMember sid cid)
  | .cancelAddMember sid cid => some (s.cancelAddMember sid cid)
  | .clearFailedAdd sid cid => some (s.clearFailedAdd sid cid)
  | .addEmptyMember sid name created => some (s.addEmptyMember sha sid name created)
  | .removeMember sid cid => some (s.withConfig (s.config.removeMember sid cid))
  | .removeCatalogProject id => some (s.withConfig (s.config.removeCatalogProject id))
  | .removeCatalogProjectCascade id => some (s.removeCatalogProjectCascade id)
  | .deleteSolution id => some (s.withConfig (s.config.deleteSolution id))
  | .acquire t => s.acquire t
  | .cached t error targetExists => s.cached t error targetExists
  | .wiped t error => s.wiped t error
  | .cloned t error => s.cloned t error
  | .settled t error => s.settled t error
  | .finish t => s.finish t

abbrev AddRun (sha : List Char → Nat) : AddState → List AddOp → AddState → Prop :=
  Run fun s op s' => s.step sha op = some s'

end SpkEditor.Solutions
