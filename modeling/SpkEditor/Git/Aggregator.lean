import Mathlib.Data.Char
import Mathlib.Data.List.Lex
import SpkEditor.Lib.Merge

/-!
# The aggregated log

`solution_git/src/aggregator.rs`: one log over the members of a solution. `git log` is run
for each member in batches; the batches wait in a buffer for each member, and the commit to
show next is the newest of those in front.

`produce_range` lets go of the lock whenever it waits for `git log`. Between two such places
a call goes through the stages of `Stage`; a step of `Fetch` is one of them. Each buffer
remembers what has been taken from it (`popped`), and each call which session its commits
came from (`sources`); the program keeps neither.
-/

namespace SpkEditor.Aggregator

def INITIAL_BATCH : Nat := 200
def REFILL_BATCH : Nat := 200
def REFILL_THRESHOLD : Nat := 50

/-- How many commits are asked for at a time, and when. -/
structure Sizes where
  initialBatch : Nat
  refillBatch : Nat
  refillThreshold : Nat
  refillBatch_pos : 0 < refillBatch
  refillThreshold_pos : 0 < refillThreshold

def Sizes.built : Sizes := ⟨INITIAL_BATCH, REFILL_BATCH, REFILL_THRESHOLD, by decide, by decide⟩

/-- What `git log` says about a commit. The order only looks at the hash and the date. -/
structure GitCommit (δ : Type) where
  sha : List Char
  committerDateUnix : Int
  info : δ

structure AggregatedCommit (δ : Type) where
  memberId : List Char
  sha : List Char
  committerDateUnix : Int
  info : δ
  deriving DecidableEq

/-- `parse_log_line`: the commit of a member. -/
def GitCommit.tag {δ : Type} (memberId : List Char) (c : GitCommit δ) : AggregatedCommit δ :=
  ⟨memberId, c.sha, c.committerDateUnix, c.info⟩

/-- All that `git log` lists in a directory, with some arguments and paths. It does not change
while the log is read. -/
abbrev GitLog (δ : Type) := List Char → List (List Char) → List (List Char) → List (GitCommit δ)

section

variable {δ : Type}

def history (log : GitLog δ) (gitArgs paths : List (List Char)) (workDir memberId : List Char) :
    List (AggregatedCommit δ) := (log workDir gitArgs paths).map (GitCommit.tag memberId)

/-- `run_git_log`. -/
def runGitLog (log : GitLog δ) (workDir : List Char) (gitArgs paths : List (List Char))
    (skip maxCount : Nat) (memberId : List Char) : List (AggregatedCommit δ) :=
  (((log workDir gitArgs paths).drop skip).take maxCount).map (GitCommit.tag memberId)

/-! ## Sessions -/

structure MemberBuffer (δ : Type) where
  pending : List (AggregatedCommit δ)
  produced : Nat
  exhausted : Bool
  workDir : List Char
  memberId : List Char
  popped : List (AggregatedCommit δ)

structure SessionKey where
  solutionId : List Char
  gitArgs : List (List Char)
  paths : List (List Char)
  members : List (List Char)
  deriving DecidableEq

structure Session (δ : Type) where
  key : SessionKey
  members : List (MemberBuffer δ)
  totalEmitted : Nat
  cap : Nat

structure SessionPlan where
  key : SessionKey
  cap : Nat
  eligible : List (List Char × List Char)
  gitArgs : List (List Char)
  paths : List (List Char)
  nodup : (eligible.map Prod.fst).Nodup

/-- The end of `plan_session`. -/
def SessionPlan.new (solutionId : List Char) (gitArgs paths : List (List Char)) (cap : Nat)
    (eligible : List (List Char × List Char)) (nodup : (eligible.map Prod.fst).Nodup) : SessionPlan where
  key := ⟨solutionId, gitArgs, paths, eligible.map Prod.fst⟩
  cap := cap
  eligible := eligible
  gitArgs := gitArgs
  paths := paths
  nodup := nodup

/-! ## The merge front -/

/-- `commit_lt`: `a` comes after `b`. -/
def commitLt (a b : AggregatedCommit δ) : Bool :=
  if a.committerDateUnix ≠ b.committerDateUnix then
    decide (a.committerDateUnix < b.committerDateUnix)
  else if a.memberId ≠ b.memberId then decide (a.memberId > b.memberId)
  else decide (a.sha > b.sha)

inductive Pick (δ : Type) where
  | yielded (commit : AggregatedCommit δ)
  | allEmptyButRefillable
  | done

/-- The loop of `pick_next`: the index of the best front so far, with that front. -/
def bestFrom : Nat → Option (Nat × AggregatedCommit δ) → List (MemberBuffer δ) →
    Option (Nat × AggregatedCommit δ)
  | _, best, [] => best
  | i, best, buf :: members =>
    match buf.pending, best with
    | [], _ => bestFrom (i + 1) best members
    | front :: _, none => bestFrom (i + 1) (some (i, front)) members
    | front :: _, some (_, other) =>
      if commitLt other front then bestFrom (i + 1) (some (i, front)) members
      else bestFrom (i + 1) best members

/-- `pop_front`. -/
def MemberBuffer.popFront (buf : MemberBuffer δ) : MemberBuffer δ :=
  { buf with pending := buf.pending.drop 1, popped := buf.popped ++ buf.pending.take 1 }

/-- `pick_next`. -/
def pickNext (members : List (MemberBuffer δ)) : Pick δ × List (MemberBuffer δ) :=
  match bestFrom 0 none members with
  | some (i, commit) => (.yielded commit, members.modify i MemberBuffer.popFront)
  | none => (if members.all (·.exhausted) then .done else .allEmptyButRefillable, members)

/-! ## Batches -/

/-- A batch arrives: a short one is the last. -/
def MemberBuffer.extend (batch : Nat) (commits : List (AggregatedCommit δ)) (buf : MemberBuffer δ) :
    MemberBuffer δ :=
  { buf with
    exhausted := buf.exhausted || decide (commits.length < batch)
    produced := buf.produced + commits.length
    pending := buf.pending ++ commits }

def extendMember (memberId : List Char) (batch : Nat) (commits : List (AggregatedCommit δ)) :
    List (MemberBuffer δ) → List (MemberBuffer δ)
  | [] => []
  | buf :: members =>
    if buf.memberId = memberId then buf.extend batch commits :: members
    else buf :: extendMember memberId batch commits members

def MemberBuffer.new (m : List Char × List Char) : MemberBuffer δ := ⟨[], 0, false, m.2, m.1, []⟩

@[simp] theorem MemberBuffer.memberId_new (m : List Char × List Char) :
    (MemberBuffer.new m : MemberBuffer δ).memberId = m.1 := rfl
@[simp] theorem MemberBuffer.memberId_extend (batch : Nat) (commits : List (AggregatedCommit δ))
    (buf : MemberBuffer δ) : (buf.extend batch commits).memberId = buf.memberId := rfl
@[simp] theorem MemberBuffer.memberId_popFront (buf : MemberBuffer δ) :
    buf.popFront.memberId = buf.memberId := rfl

def SessionPlan.session (sizes : Sizes) (log : GitLog δ) (plan : SessionPlan) : Session δ where
  key := plan.key
  members := plan.eligible.foldl (fun members m => extendMember m.1 sizes.initialBatch
    (runGitLog log m.2 plan.gitArgs plan.paths 0 sizes.initialBatch m.1) members)
    (plan.eligible.map MemberBuffer.new)
  totalEmitted := 0
  cap := plan.cap

/-- A `git log` that has been asked for. -/
structure Refill where
  memberId : List Char
  workDir : List Char
  produced : Nat
  deriving DecidableEq

/-- The buffers that are short of commits. -/
def Session.refills (sizes : Sizes) (s : Session δ) : List Refill :=
  (s.members.filter fun b => !b.exhausted && decide (b.pending.length < sizes.refillThreshold)).map
    fun b => ⟨b.memberId, b.workDir, b.produced⟩

def Refill.commits (sizes : Sizes) (log : GitLog δ) (plan : SessionPlan) (r : Refill) : List (AggregatedCommit δ) :=
  runGitLog log r.workDir plan.gitArgs plan.paths r.produced sizes.refillBatch r.memberId

def Session.refill (sizes : Sizes) (s : Session δ) (log : GitLog δ) (plan : SessionPlan) (r : Refill) :
    Session δ :=
  { s with members := extendMember r.memberId sizes.refillBatch (r.commits sizes log plan) s.members }

/-! ## `produce_range` -/

/-- Where a call stands. It waits for `git log` in `initializing` and `refilling`. -/
inductive Stage where
  | start
  | initializing
  | top
  | refilling (refills : List Refill)
  | pop
  | finished
  deriving DecidableEq

structure Fetch (δ : Type) where
  plan : SessionPlan
  start : Nat
  stop : Nat
  stage : Stage
  output : List (AggregatedCommit δ)
  sources : List SessionKey

def Fetch.new (plan : SessionPlan) (start stop : Nat) : Fetch δ := ⟨plan, start, stop, .start, [], []⟩

def needInit (session : Option (Session δ)) (plan : SessionPlan) (start : Nat) : Bool :=
  match session with
  | some s => decide (s.key ≠ plan.key) || start == 0
  | none => true

/-- The end of the loop: take the next commit, or stop. -/
def Fetch.popStep (s : Session δ) (f : Fetch δ) : Session δ × Fetch δ :=
  if s.totalEmitted ≥ s.cap then (s, { f with stage := .finished })
  else if s.totalEmitted ≥ f.stop then (s, { f with stage := .finished })
  else
    match pickNext s.members with
    | (.yielded commit, members) =>
      ({ s with members := members, totalEmitted := s.totalEmitted + 1 },
        if s.totalEmitted ≥ f.start ∧ s.totalEmitted < f.stop then
          { f with
            stage := .top
            output := f.output ++ [commit]
            sources := f.sources ++ [s.key] }
        else { f with stage := .top })
    | (.allEmptyButRefillable, members) => ({ s with members := members }, { f with stage := .top })
    | (.done, members) => ({ s with members := members }, { f with stage := .finished })

/-- **One step of a call.** -/
def Fetch.step (sizes : Sizes) (log : GitLog δ) (session : Option (Session δ)) (f : Fetch δ) :
    Option (Session δ) × Fetch δ :=
  match f.stage with
  | .start =>
    if needInit session f.plan f.start then (session, { f with stage := .initializing })
    else (session, { f with stage := .top })
  | .initializing => (some (f.plan.session sizes log), { f with stage := .top })
  | .top =>
    match session with
    | none => (none, { f with stage := .finished })
    | some s =>
      match s.refills sizes with
      | [] => (some s, { f with stage := .pop })
      | refills => (some s, { f with stage := .refilling refills })
  | .refilling [] => (session, { f with stage := .pop })
  | .refilling (r :: refills) =>
    match session with
    | none => (none, { f with stage := .finished })
    | some s => (some (s.refill sizes log f.plan r), { f with stage := .refilling refills })
  | .pop =>
    match session with
    | none => (none, { f with stage := .finished })
    | some s => let r := f.popStep s; (some r.1, r.2)
  | .finished => (session, f)

/-- Some steps of a call, with nobody else around. -/
def Fetch.steps (sizes : Sizes) (log : GitLog δ) :
    Nat → Option (Session δ) × Fetch δ → Option (Session δ) × Fetch δ
  | 0, x => x
  | n + 1, x => Fetch.steps sizes log n (x.2.step sizes log x.1)

/-- `produce_range`, with nobody else around. -/
def produceRange (sizes : Sizes) (log : GitLog δ) (fuel : Nat) (session : Option (Session δ))
    (plan : SessionPlan) (start stop : Nat) : Option (Option (Session δ) × List (AggregatedCommit δ)) :=
  let r := Fetch.steps sizes log fuel (session, .new plan start stop)
  if r.2.stage = .finished then some (r.1, r.2.output) else none

/-- One call after another for consecutive ranges of some lengths. -/
def fetchPages (sizes : Sizes) (log : GitLog δ) (fuel : Nat) (plan : SessionPlan) :
    Option (Session δ) → Nat → List Nat →
      Option (Option (Session δ) × List (List (AggregatedCommit δ)))
  | session, _, [] => some (session, [])
  | session, start, n :: lengths =>
    match produceRange sizes log fuel session plan start (start + n) with
    | none => none
    | some (session, page) =>
      (fetchPages sizes log fuel plan session (start + n) lengths).map fun r => (r.1, page :: r.2)

end

end SpkEditor.Aggregator
