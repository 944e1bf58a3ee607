import SpkEditor.Lib.Cut
import SpkEditor.Lib.Run

/-!
# The repository lock

`git/src/repo_lock.rs`: one writing operation at a time for each repository. The lock is a
file `.git/spke/op.lock` that names the operation and the process; a process that finds a
file whose process is gone removes it and goes on.

Processes take the steps of `acquire` one at a time, in any order among each other, and
crash where they like. Files are inodes: what a process writes goes to the file it has
created, whatever the path points at by then.

The lock is exclusive as long as nobody removes a stale file late, after a live process has
put its own in the place; and it can be taken again as long as nobody crashes between
creating the file and writing it.
-/

namespace SpkEditor.RepoLock

open Cut Option

/-- A `u32`. No pid is used twice. -/
abbrev Pid := Fin (2 ^ 32)

/-- The name of an operation, a static text on one line. -/
abbrev OpName := { name : List Char // '\n' ∉ name }

inductive BusyReason where
  | otherOp (name : List Char)
  | externalGit
deriving DecidableEq

structure ExistingLock where
  opName : List Char
  pid : Pid
deriving DecidableEq

/-- What `acquire` writes. -/
def lockBody (op : OpName) (pid : Pid) (unix : Nat) : List Char :=
  op.val ++ '\n' :: (Nat.toDigits 10 pid ++ '\n' :: (Nat.toDigits 10 unix ++ ['\n']))

/-- `str::parse::<u32>`. -/
def parsePid (t : List Char) : Option Pid :=
  match h : parseBelow (2 ^ 32) t with
  | none => none
  | some n => some ⟨n, lt_of_parseBelow h⟩

/-- What `read_existing_lock` makes of the text of a file. -/
def parseLock (body : List Char) : Option ExistingLock :=
  match lines body with
  | opName :: pid :: _ => (parsePid (trim pid)).map fun pid => ⟨trim opName, pid⟩
  | _ => none

/-- Where a call of `acquire` stands. -/
inductive Stage where
  | createDir
  | read
  | test (existing : ExistingLock)
  | remove
  | createNew
  | reread
  | write (file : Nat)
  /-- The write failed and the file goes again. -/
  | undo (err : List Char)
deriving DecidableEq

inductive Proc where
  /-- Not in `acquire`, with what it last failed with. -/
  | idle (busy : Option BusyReason)
  | acquiring (op : OpName) (stage : Stage)
  /-- Has a `RepoLock`. -/
  | holding
  | dead
deriving DecidableEq

/-- A repository and the processes that work on it. -/
structure Repo where
  /-- `.git/index.lock` exists. -/
  indexLock : Bool
  /-- The file at `.git/spke/op.lock`. -/
  lock : Option Nat
  body : Nat → List Char
  /-- Who created a file. -/
  creator : Nat → Pid
  /-- Files below this have been created. -/
  files : Nat
  proc : Pid → Proc

def Repo.init : Repo := ⟨false, none, fun _ => [], fun _ => 0, 0, fun _ => .idle none⟩

def Repo.setProc (s : Repo) (p : Pid) (x : Proc) : Repo :=
  { s with proc := Function.update s.proc p x }

/-- `read_existing_lock`. -/
def Repo.readExistingLock (s : Repo) : Option ExistingLock :=
  s.lock.bind fun file => parseLock (s.body file)

/-- `pid_is_alive`, where `kill` can tell. -/
def Repo.pidIsAlive (s : Repo) (p : Pid) : Bool := s.proc p ≠ .dead

/-- The lock file created anew, empty. -/
def Repo.createLock (s : Repo) (p : Pid) : Repo :=
  { s with
    lock := some s.files
    body := Function.update s.body s.files []
    creator := Function.update s.creator s.files p
    files := s.files + 1 }

def Repo.writeFile (s : Repo) (file : Nat) (text : List Char) : Repo :=
  { s with body := Function.update s.body file text }

def Repo.removeLock (s : Repo) : Repo := { s with lock := none }

/-- What a process does next; an error of the system comes with its text. -/
inductive Act where
  /-- `acquire` is called, and finds the repository and whether `index.lock` is there. -/
  | acquire (op : OpName)
  | locateFails (err : List Char)
  | createDir
  | createDirFails (err : List Char)
  | read
  | test
  | remove
  | createNew
  | openFails (err : List Char)
  | reread
  | write (unix : Nat)
  /-- Part of the text may have been written. -/
  | writeFails (written err : List Char)
  | undo
  /-- `RepoLock::drop`. -/
  | drop
  | crash
  /-- Some other git takes `index.lock` or gives it back. -/
  | external (indexLock : Bool)
deriving DecidableEq

/-- One step of a process in a call of `acquire`. -/
def Repo.stage (s : Repo) (p : Pid) (op : OpName) : Stage → Act → Option Repo
  | .createDir, .createDir => some (s.setProc p (.acquiring op .read))
  | .createDir, .createDirFails err => some (s.setProc p (.idle (some (.otherOp err))))
  | .read, .read =>
    match s.readExistingLock with
    | some existing => some (s.setProc p (.acquiring op (.test existing)))
    | none => some (s.setProc p (.acquiring op .createNew))
  | .test existing, .test =>
    if s.pidIsAlive existing.pid then
      some (s.setProc p (.idle (some (.otherOp existing.opName))))
    else some (s.setProc p (.acquiring op .remove))
  | .remove, .remove => some (s.removeLock.setProc p (.acquiring op .createNew))
  | .createNew, .createNew =>
    match s.lock with
    | none => some ((s.createLock p).setProc p (.acquiring op (.write s.files)))
    | some _ => some (s.setProc p (.acquiring op .reread))
  | .createNew, .openFails err => some (s.setProc p (.idle (some (.otherOp err))))
  | .reread, .reread =>
    let other := (s.readExistingLock.map (·.opName)).getD "unknown".toList
    some (s.setProc p (.idle (some (.otherOp other))))
  | .write file, .write unix =>
    some ((s.writeFile file (lockBody op p unix)).setProc p .holding)
  | .write file, .writeFails written err =>
    some ((s.writeFile file written).setProc p (.acquiring op (.undo err)))
  | .undo err, .undo => some (s.removeLock.setProc p (.idle (some (.otherOp err))))
  | _, _ => none

def Repo.step (s : Repo) (p : Pid) (a : Act) : Option Repo :=
  match a, s.proc p with
  | .external indexLock, _ => some { s with indexLock }
  | _, .dead => none
  | .crash, _ => some (s.setProc p .dead)
  | .acquire op, .idle _ =>
    if s.indexLock then some (s.setProc p (.idle (some .externalGit)))
    else some (s.setProc p (.acquiring op .createDir))
  | .locateFails err, .idle _ => some (s.setProc p (.idle (some (.otherOp err))))
  | a, .acquiring op stage => s.stage p op stage a
  | .drop, .holding => some (s.removeLock.setProc p (.idle none))
  | _, _ => none

/-- The interleavings. -/
def Step (s : Repo) (l : Pid × Act) (t : Repo) : Prop := s.step l.1 l.2 = some t

/-- The live processes that have created the lock file of the moment: they write it, take
it back or hold the lock. -/
def Proc.owns : Proc → Bool
  | .acquiring _ (.write _) => true
  | .acquiring _ (.undo _) => true
  | .holding => true
  | _ => false

/-- A process between creating the file and having it written or removed. -/
def Proc.midway : Proc → Bool
  | .acquiring _ (.write _) => true
  | .acquiring _ (.undo _) => true
  | _ => false

/-- The step is one of those that do no harm: a stale file is removed only if it is still
the file of a dead process, and nobody crashes between creating a file and writing it. -/
def Careful (s : Repo) (l : Pid × Act) : Prop :=
  (l.2 = .remove → ∀ file ∈ s.lock, s.proc (s.creator file) = .dead) ∧
    (l.2 = .crash → (s.proc l.1).midway = false)

instance (s : Repo) (l : Pid × Act) : Decidable (Careful s l) :=
  inferInstanceAs (Decidable (_ ∧ _))

/-- At most one live process holds the lock. -/
def Exclusive (s : Repo) : Prop := ∀ p q, s.proc p = .holding → s.proc q = .holding → p = q

/-- The lock file is created and written, and the lock is held. -/
def Repo.taken (s : Repo) (p : Pid) (op : OpName) (unix : Nat) : Repo :=
  ((s.createLock p).writeFile s.files (lockBody op p unix)).setProc p .holding

/-- The second half of `acquire`, undisturbed. -/
def Repo.createAndWrite (s : Repo) (p : Pid) (op : OpName) (unix : Nat) :
    Except BusyReason Repo :=
  match s.lock with
  | none => .ok (s.taken p op unix)
  | some _ =>
    .error (.otherOp ((s.readExistingLock.map (·.opName)).getD "unknown".toList))

/-- `acquire` from its call to its return, with nobody in between. -/
def Repo.acquire (s : Repo) (p : Pid) (op : OpName) (unix : Nat) : Except BusyReason Repo :=
  if s.indexLock then .error .externalGit
  else
    match s.readExistingLock with
    | some existing =>
      if s.pidIsAlive existing.pid then .error (.otherOp existing.opName)
      else s.removeLock.createAndWrite p op unix
    | none => s.createAndWrite p op unix

/-- Once nobody owns the lock file any more, an `acquire` without contention succeeds. -/
def Recoverable (s : Repo) : Prop :=
  (∀ p, (s.proc p).owns = false) → s.indexLock = false →
    ∀ p busy op unix, s.proc p = .idle busy →
      ∃ t, s.acquire p op unix = .ok t ∧ t.proc p = .holding ∧
        ∃ acts : List Act, Run Step s (acts.map (p, ·)) t

theorem parseLock_lockBody (op : OpName) (pid : Pid) (unix : Nat) :
    ∃ name, parseLock (lockBody op pid unix) = some ⟨name, pid⟩ := by
  have hnl : '\n' ∉ Nat.toDigits 10 pid := not_mem_toDigits (by decide) _
  have hcr : '\r' ∉ Nat.toDigits 10 pid := not_mem_toDigits (by decide) _
  have hlines : ∃ rest, lines (lockBody op pid unix) =
      stripCr op.val :: Nat.toDigits 10 pid :: rest := by
    rw [lines, lockBody, closedLines_append op.property, closedLines_append hnl]
    simp [stripCr_of_not_mem hcr]
  obtain ⟨rest, hlines⟩ := hlines
  have htrim : trim (Nat.toDigits 10 (pid : Nat)) = Nat.toDigits 10 pid := by
    refine trim_of_forall fun c hc => isSpace_of_isDigit ?_
    exact Nat.isDigit_of_mem_toDigits (by decide) (by decide) hc
  have hpid : parsePid (Nat.toDigits 10 pid) = some pid := by
    rw [parsePid]
    split
    · rename_i h
      rw [parseBelow_toDigits pid.isLt] at h
      simp at h
    · rename_i n h
      rw [parseBelow_toDigits pid.isLt] at h
      cases h
      rfl
  exact ⟨trim (stripCr op.val), by simp only [parseLock, hlines, htrim, hpid, map_some]⟩

/-! ## Who owns the lock file -/

/-- What the creator of the lock file is doing: writing it, taking it back, holding the
lock, or it has died after the file was complete. -/
def FileOk (s : Repo) (file : Nat) : Prop :=
  match s.proc (s.creator file) with
  | .acquiring _ (.write f) => f = file
  | .acquiring _ (.undo _) => True
  | .holding | .dead => ∃ op unix, s.body file = lockBody op (s.creator file) unix
  | _ => False

structure Inv (s : Repo) : Prop where
  owner : ∀ p, (s.proc p).owns = true → ∃ file, s.lock = some file ∧ s.creator file = p
  file : ∀ file, s.lock = some file → file < s.files ∧ FileOk s file

theorem inv_init : Inv Repo.init where
  owner p h := by simp [Repo.init, Proc.owns] at h
  file _ h := by simp [Repo.init] at h

section

variable {s : Repo} {p : Pid} {x : Proc}

theorem Inv.exclusive (h : Inv s) : Exclusive s := by
  intro p q hp hq
  obtain ⟨f, hf, rfl⟩ := h.owner p (by rw [hp]; rfl)
  obtain ⟨f', hf', rfl⟩ := h.owner q (by rw [hq]; rfl)
  rw [hf] at hf'
  rw [some.inj hf']

theorem Inv.ne_creator (h : Inv s) (hdead : s.proc p ≠ .dead) (hp : (s.proc p).owns = false)
    {file : Nat} (hf : s.lock = some file) : s.creator file ≠ p := by
  rintro rfl
  have := (h.file file hf).2
  rw [FileOk] at this
  split at this
  · rename_i he
    rw [he] at hp
    simp [Proc.owns] at hp
  · rename_i he
    rw [he] at hp
    simp [Proc.owns] at hp
  · rename_i he
    rw [he] at hp
    simp [Proc.owns] at hp
  · rename_i he
    exact hdead he
  · exact this

theorem Inv.owner_unique (h : Inv s) (hp : (s.proc p).owns = true) {q : Pid} (hq : q ≠ p) :
    (s.proc q).owns = false := by
  by_contra hq'
  obtain ⟨f, hf, rfl⟩ := h.owner p hp
  obtain ⟨f', hf', rfl⟩ := h.owner q (by simpa using hq')
  rw [hf] at hf'
  exact hq (by rw [some.inj hf'])

theorem setProc_self (s : Repo) (p : Pid) (x : Proc) : (s.setProc p x).proc p = x :=
  Function.update_self ..

theorem setProc_of_ne (s : Repo) {p q : Pid} (x : Proc) (h : q ≠ p) :
    (s.setProc p x).proc q = s.proc q :=
  Function.update_of_ne h ..

theorem Inv.setProc (h : Inv s) (hdead : s.proc p ≠ .dead) (hp : (s.proc p).owns = false)
    (hx : x.owns = false) : Inv (s.setProc p x) where
  owner q hq := by
    by_cases hqp : q = p
    · rw [hqp, setProc_self, hx] at hq
      simp at hq
    · rw [setProc_of_ne s x hqp] at hq
      exact h.owner q hq
  file f hf := by
    have hne := h.ne_creator hdead hp hf
    have := h.file f hf
    refine ⟨this.1, ?_⟩
    rw [FileOk] at this ⊢
    rw [show (s.setProc p x).proc ((s.setProc p x).creator f) = s.proc (s.creator f) from
      setProc_of_ne s x hne]
    exact this.2

theorem Inv.removeLock (hothers : ∀ q, q ≠ p → (s.proc q).owns = false) (hx : x.owns = false) :
    Inv (s.removeLock.setProc p x) where
  owner q hq := by
    by_cases hqp : q = p
    · rw [hqp, setProc_self, hx] at hq
      simp at hq
    · rw [setProc_of_ne _ x hqp] at hq
      rw [show s.removeLock.proc q = s.proc q from rfl, hothers q hqp] at hq
      simp at hq
  file f hf := by simp [Repo.setProc, Repo.removeLock] at hf

theorem Inv.createLock (h : Inv s) (hlock : s.lock = none) (op : OpName) :
    Inv ((s.createLock p).setProc p (.acquiring op (.write s.files))) where
  owner q hq := by
    by_cases hqp : q = p
    · exact ⟨s.files, rfl, by simp [Repo.setProc, Repo.createLock, hqp]⟩
    · rw [setProc_of_ne _ _ hqp] at hq
      obtain ⟨f, hf, -⟩ := h.owner q hq
      rw [hlock] at hf
      simp at hf
  file f hf := by
    obtain rfl : s.files = f := some.inj hf
    refine ⟨Nat.lt_succ_self _, ?_⟩
    simp [FileOk, Repo.setProc, Repo.createLock]

theorem Inv.writeFile (h : Inv s) {op : OpName} {file : Nat}
    (hp : s.proc p = .acquiring op (.write file)) (text : List Char)
    (hx : (x = .holding ∧ ∃ op unix, text = lockBody op p unix) ∨
      ∃ op err, x = .acquiring op (.undo err)) :
    Inv ((s.writeFile file text).setProc p x) := by
  obtain ⟨f, hf, hc⟩ := h.owner p (by rw [hp]; rfl)
  have hfile := (h.file f hf).2
  rw [FileOk, hc, hp] at hfile
  obtain rfl : file = f := hfile
  refine ⟨?_, ?_⟩
  · intro q hq
    by_cases hqp : q = p
    · exact ⟨file, hf, by rw [hqp]; exact hc⟩
    · rw [setProc_of_ne _ _ hqp] at hq
      exact h.owner q hq
  · intro f' hf'
    obtain rfl : file = f' := some.inj (hf.symm.trans hf')
    refine ⟨(h.file file hf).1, ?_⟩
    have hcreator : ((s.writeFile file text).setProc p x).creator file = p := hc
    rw [FileOk, hcreator, setProc_self]
    rcases hx with ⟨rfl, op', unix, rfl⟩ | ⟨op', err, rfl⟩
    · exact ⟨op', unix, by simp [Repo.setProc, Repo.writeFile]⟩
    · trivial

theorem Inv.crash_holding (h : Inv s) (hp : s.proc p = .holding) : Inv (s.setProc p .dead) where
  owner q hq := by
    by_cases hqp : q = p
    · rw [hqp, setProc_self] at hq
      simp [Proc.owns] at hq
    · rw [setProc_of_ne _ _ hqp] at hq
      exact h.owner q hq
  file f hf := by
    have := h.file f hf
    refine ⟨this.1, ?_⟩
    rw [FileOk] at this ⊢
    by_cases hc : s.creator f = p
    · have hc' : (s.setProc p .dead).creator f = p := hc
      rw [hc', setProc_self]
      rw [hc, hp] at this
      exact this.2
    · rw [show (s.setProc p .dead).proc ((s.setProc p .dead).creator f) = s.proc (s.creator f) from
        setProc_of_ne s _ hc]
      exact this.2

end

theorem Inv.stage {s t : Repo} {p : Pid} {a : Act} {op : OpName} {st : Stage} (h : Inv s)
    (hp : s.proc p = .acquiring op st) (hc : Careful s (p, a)) (hs : s.stage p op st a = some t) :
    Inv t := by
  have hdead : s.proc p ≠ .dead := by rw [hp]; simp
  -- most steps only move a process on that does not own the file
  have move : ∀ x : Proc, (s.proc p).owns = false → x.owns = false → Inv (s.setProc p x) :=
    fun x hp hx => h.setProc hdead hp hx
  rw [Repo.stage.eq_def] at hs
  split at hs
  · cases hs
    exact move _ (by rw [hp]; rfl) rfl
  · cases hs
    exact move _ (by rw [hp]; rfl) rfl
  · split at hs
    · cases hs
      exact move _ (by rw [hp]; rfl) rfl
    · cases hs
      exact move _ (by rw [hp]; rfl) rfl
  · split at hs
    · cases hs
      exact move _ (by rw [hp]; rfl) rfl
    · cases hs
      exact move _ (by rw [hp]; rfl) rfl
  · -- the file to remove is nobody's
    cases hs
    refine Inv.removeLock (fun q _ => ?_) rfl
    by_contra hq
    obtain ⟨f, hf, rfl⟩ := h.owner q (by simpa using hq)
    rw [hc.1 rfl f hf] at hq
    simp [Proc.owns] at hq
  · split at hs
    · rename_i hlock
      cases hs
      exact h.createLock hlock op
    · cases hs
      exact move _ (by rw [hp]; rfl) rfl
  · cases hs
    exact move _ (by rw [hp]; rfl) rfl
  · cases hs
    exact move _ (by rw [hp]; rfl) rfl
  · cases hs
    exact h.writeFile hp _ (.inl ⟨rfl, _, _, rfl⟩)
  · cases hs
    exact h.writeFile hp _ (.inr ⟨_, _, rfl⟩)
  · cases hs
    exact Inv.removeLock (fun q hq => h.owner_unique (by rw [hp]; rfl) hq) rfl
  · simp at hs

/-- **A careful step keeps the invariant.** -/
theorem Inv.step {s t : Repo} {l : Pid × Act} (h : Inv s) (hs : Step s l t) (hc : Careful s l) :
    Inv t := by
  obtain ⟨p, a⟩ := l
  rw [Step, Repo.step.eq_def] at hs
  dsimp only at hs
  split at hs
  · cases hs
    exact ⟨h.owner, h.file⟩
  · simp at hs
  · -- a crash: of a holder, or of a process that owns nothing
    rename_i hne
    cases hs
    have hdead : s.proc p ≠ .dead := by
      intro he
      exact hne he
    by_cases hp : (s.proc p).owns = false
    · exact h.setProc hdead hp rfl
    · have hmid := hc.2 rfl
      cases hq : s.proc p with
      | holding => exact h.crash_holding hq
      | idle b =>
        rw [hq] at hp
        simp [Proc.owns] at hp
      | dead =>
        rw [hq] at hp
        simp [Proc.owns] at hp
      | acquiring op st =>
        rw [hq] at hp hmid
        cases st <;> simp [Proc.owns, Proc.midway] at hp hmid
  · rename_i hp
    have hdead : s.proc p ≠ .dead := by rw [hp]; simp
    split at hs
    · cases hs
      exact h.setProc hdead (by rw [hp]; rfl) rfl
    · cases hs
      exact h.setProc hdead (by rw [hp]; rfl) rfl
  · rename_i hp
    cases hs
    exact h.setProc (by rw [hp]; simp) (by rw [hp]; rfl) rfl
  · rename_i hp
    exact h.stage hp hc hs
  · rename_i hp
    cases hs
    exact Inv.removeLock (fun q hq => h.owner_unique (by rw [hp]; rfl) hq) rfl
  · simp at hs

/-! ## An acquire without contention -/

section

variable {s : Repo} {p : Pid} {op : OpName}

theorem setProc_setProc (s : Repo) (p : Pid) (x y : Proc) :
    (s.setProc p x).setProc p y = s.setProc p y := by
  simp [Repo.setProc]

/-- A step of a process inside `acquire` is what its stage does. -/
theorem step_setProc {st : Stage} {a : Act} {t : Repo} (ha : a ≠ .crash)
    (ha' : ∀ b, a ≠ .external b)
    (h : (s.setProc p (.acquiring op st)).stage p op st a = some t) :
    Step (s.setProc p (.acquiring op st)) (p, a) t := by
  rw [Step, Repo.step.eq_def]
  rw [setProc_self]
  cases a with
  | crash => exact absurd rfl ha
  | external b => exact absurd rfl (ha' b)
  | _ => exact h

theorem run_createAndWrite (hlock : s.lock = none) (unix : Nat) :
    Run Step (s.setProc p (.acquiring op .createNew)) [(p, .createNew), (p, .write unix)]
      (s.taken p op unix) := by
  refine .cons (t := (s.createLock p).setProc p (.acquiring op (.write s.files)))
    (step_setProc (by simp) (by simp) ?_) ?_
  · rw [Repo.stage]
    split
    · exact congrArg some (setProc_setProc (s.createLock p) ..)
    · rename_i heq
      rw [show (s.setProc p (.acquiring op .createNew)).lock = s.lock from rfl, hlock] at heq
      simp at heq
  · refine .cons (step_setProc (by simp) (by simp) ?_) .nil
    exact congrArg some (setProc_setProc ((s.createLock p).writeFile ..) ..)

/-- The first steps of an undisturbed `acquire`, up to reading the lock file. -/
theorem run_toRead {busy : Option BusyReason} (hp : s.proc p = .idle busy)
    (hindex : s.indexLock = false) :
    Run Step s [(p, .acquire op), (p, .createDir)] (s.setProc p (.acquiring op .read)) := by
  refine .cons (t := s.setProc p (.acquiring op .createDir)) ?_ ?_
  · simp [Step, Repo.step, hp, hindex]
  · refine .cons (step_setProc (by simp) (by simp) ?_) .nil
    exact congrArg some (setProc_setProc s ..)

theorem Inv.stale (h : Inv s) (hno : ∀ p, (s.proc p).owns = false) {file : Nat}
    (hf : s.lock = some file) :
    ∃ name, s.readExistingLock = some ⟨name, s.creator file⟩ ∧
      s.pidIsAlive (s.creator file) = false := by
  have hok := (h.file file hf).2
  have hn := hno (s.creator file)
  rw [FileOk] at hok
  cases hc : s.proc (s.creator file) with
  | idle b =>
    rw [hc] at hok
    exact absurd hok id
  | acquiring op st =>
    rw [hc] at hok hn
    cases st <;> simp [Proc.owns] at hn hok
  | holding =>
    rw [hc] at hn
    simp [Proc.owns] at hn
  | dead =>
    rw [hc] at hok
    obtain ⟨op, unix, hbody⟩ := hok
    obtain ⟨name, hparse⟩ := parseLock_lockBody op (s.creator file) unix
    refine ⟨name, ?_, by simp [Repo.pidIsAlive, hc]⟩
    rw [Repo.readExistingLock, hf, bind_some, hbody, hparse]

theorem Inv.recoverable (h : Inv s) : Recoverable s := by
  intro hno hindex p busy op unix hp
  cases hlock : s.lock with
  | none =>
    have hread : s.readExistingLock = none := by rw [Repo.readExistingLock, hlock]; rfl
    refine ⟨s.taken p op unix, ?_, setProc_self ..,
      [.acquire op, .createDir, .read, .createNew, .write unix], ?_⟩
    · simp only [Repo.acquire, hindex, hread, Repo.createAndWrite, hlock]
      rfl
    · have hstep : Step (s.setProc p (.acquiring op .read)) (p, .read)
          (s.setProc p (.acquiring op .createNew)) := by
        refine step_setProc (by simp) (by simp) ?_
        have : (s.setProc p (.acquiring op .read)).readExistingLock = none := hread
        simp only [Repo.stage, this, setProc_setProc]
      exact (run_toRead hp hindex).append (.cons hstep (run_createAndWrite hlock unix))
  | some file =>
    obtain ⟨name, hread, hdead⟩ := h.stale hno hlock
    refine ⟨s.removeLock.taken p op unix, ?_, setProc_self ..,
      [.acquire op, .createDir, .read, .test, .remove, .createNew, .write unix], ?_⟩
    · simp only [Repo.acquire, hindex, hread, hdead, Repo.createAndWrite, Repo.removeLock]
      rfl
    · have hstep : Step (s.setProc p (.acquiring op .read)) (p, .read)
          (s.setProc p (.acquiring op (.test ⟨name, s.creator file⟩))) := by
        refine step_setProc (by simp) (by simp) ?_
        have : (s.setProc p (.acquiring op .read)).readExistingLock =
          some ⟨name, s.creator file⟩ := hread
        simp only [Repo.stage, this, setProc_setProc]
      have htest : Step (s.setProc p (.acquiring op (.test ⟨name, s.creator file⟩))) (p, .test)
          (s.setProc p (.acquiring op .remove)) := by
        refine step_setProc (by simp) (by simp) ?_
        -- the process that tests is not the dead one
        have hne : s.creator file ≠ p := by
          intro he
          rw [Repo.pidIsAlive, he, hp] at hdead
          simp at hdead
        have halive : (s.setProc p (.acquiring op (.test ⟨name, s.creator file⟩))).pidIsAlive
            (s.creator file) = false := by
          rw [Repo.pidIsAlive, setProc_of_ne _ _ hne]
          exact hdead
        simp only [Repo.stage, halive, setProc_setProc]
        rfl
      have hremove : Step (s.setProc p (.acquiring op .remove)) (p, .remove)
          (s.removeLock.setProc p (.acquiring op .createNew)) := by
        refine step_setProc (by simp) (by simp) ?_
        exact congrArg some (setProc_setProc s.removeLock ..)
      exact (run_toRead hp hindex).append (.cons hstep (.cons htest (.cons hremove
        (run_createAndWrite rfl unix))))

end

/-- **In every run of careful steps the lock is exclusive and can be recovered.** -/
theorem lock_exclusive_recoverable {s : Repo} {acts : List (Pid × Act)}
    (h : Run (fun s l t => Step s l t ∧ Careful s l) Repo.init acts s) :
    Exclusive s ∧ Recoverable s := by
  have hinv : Inv s := h.keeps (fun _ _ _ hi hs => hi.step hs.1 hs.2) inv_init
  exact ⟨hinv.exclusive, hinv.recoverable⟩

def Repo.steps (s : Repo) : List (Pid × Act) → Option Repo
  | [] => some s
  | l :: acts => (s.step l.1 l.2).bind fun t => t.steps acts

def Repo.carefulSteps (s : Repo) : List (Pid × Act) → Option Repo
  | [] => some s
  | l :: acts =>
    if Careful s l then (s.step l.1 l.2).bind fun t => t.carefulSteps acts else none

section

variable {s t : Repo} {acts : List (Pid × Act)}

theorem run_of_steps (h : s.steps acts = some t) :
    Run Step s acts t := by
  induction acts generalizing s with
  | nil =>
    cases h
    exact .nil
  | cons l acts ih =>
    obtain ⟨u, hu, h⟩ := Option.bind_eq_some_iff.mp h
    exact .cons hu (ih h)

theorem run_of_carefulSteps (h : s.carefulSteps acts = some t) : Run (fun s l t => Step s l t ∧ Careful s l) s acts t := by
  induction acts generalizing s with
  | nil =>
    cases h
    exact .nil
  | cons l acts ih =>
    rw [Repo.carefulSteps] at h
    split at h
    · rename_i hc
      obtain ⟨u, hu, h⟩ := Option.bind_eq_some_iff.mp h
      exact .cons ⟨hu, hc⟩ (ih h)
    · simp at h

end

def sampleOp : OpName := ⟨"rebase".toList, by decide⟩

/-- An `acquire` that finds no lock file. -/
def takes (p : Pid) : List (Pid × Act) :=
  [.acquire sampleOp, .createDir, .read, .createNew, .write 1700000000].map (p, ·)

/-- An `acquire` up to the removal of a stale file, and the rest of it. -/
def findsStale (p : Pid) : List (Pid × Act) :=
  [.acquire sampleOp, .createDir, .read, .test].map (p, ·)

def takesStale (p : Pid) : List (Pid × Act) :=
  [.remove, .createNew, .write 1700000001].map (p, ·)

/-- A holder dies, and the next process takes the lock over. -/
theorem lock_recovered_after_crash :
    ∃ s, Repo.init.carefulSteps (takes 1 ++ [(1, .crash)] ++ findsStale 2 ++ takesStale 2) = some s ∧
      s.proc 2 = .holding ∧ Exclusive s ∧ Recoverable s := by
  obtain ⟨s, hs⟩ := Option.isSome_iff_exists.mp
    (show (Repo.init.carefulSteps
      (takes 1 ++ [(1, .crash)] ++ findsStale 2 ++ takesStale 2)).isSome from by decide)
  refine ⟨s, hs, ?_, lock_exclusive_recoverable (run_of_carefulSteps hs)⟩
  have : (Repo.init.carefulSteps
      (takes 1 ++ [(1, .crash)] ++ findsStale 2 ++ takesStale 2)).map (·.proc 2) =
    some .holding := by decide
  rw [hs] at this
  exact some.inj this

/-- Two processes read the file of a dead holder, and each removes what it finds: the second
one removes the file of the first, and both hold the lock. And a process that dies between
creating the file and writing it leaves a file that nobody ever removes. -/
theorem lock_not_exclusive_not_recoverable :
    (∃ s, Run Step Repo.init (takes 1 ++ [(1, .crash)] ++ findsStale 2 ++ findsStale 3 ++
        takesStale 2 ++ takesStale 3) s ∧ ¬ Exclusive s) ∧
      ∃ s, Run Step Repo.init ((takes 1).take 4 ++ [(1, .crash)]) s ∧ ¬ Recoverable s := by
  constructor
  · obtain ⟨s, hs⟩ := Option.isSome_iff_exists.mp
      (show (Repo.init.steps (takes 1 ++ [(1, .crash)] ++ findsStale 2 ++ findsStale 3 ++
        takesStale 2 ++ takesStale 3)).isSome from by decide)
    refine ⟨s, run_of_steps hs, fun he => ?_⟩
    have hboth : (Repo.init.steps (takes 1 ++ [(1, .crash)] ++ findsStale 2 ++ findsStale 3 ++
        takesStale 2 ++ takesStale 3)).map (fun s => (s.proc 2, s.proc 3)) =
      some (.holding, .holding) := by decide
    rw [hs] at hboth
    have := he 2 3 (congrArg Prod.fst (some.inj hboth))
      (congrArg Prod.snd (some.inj hboth))
    exact absurd this (by decide)
  · have hread : Step (Repo.init.setProc 1 (.acquiring sampleOp .read)) (1, .read)
        (Repo.init.setProc 1 (.acquiring sampleOp .createNew)) :=
      step_setProc (by simp) (by simp) (congrArg some (setProc_setProc Repo.init ..))
    have hcreate : Step (Repo.init.setProc 1 (.acquiring sampleOp .createNew)) (1, .createNew)
        ((Repo.init.createLock 1).setProc 1 (.acquiring sampleOp (.write 0))) :=
      step_setProc (by simp) (by simp)
        (congrArg some (setProc_setProc (Repo.init.createLock 1) ..))
    have hcrash : Step ((Repo.init.createLock 1).setProc 1 (.acquiring sampleOp (.write 0)))
        (1, .crash) ((Repo.init.createLock 1).setProc 1 .dead) :=
      congrArg some (setProc_setProc (Repo.init.createLock 1) ..)
    refine ⟨_, (run_toRead rfl rfl).append (.cons hread (.cons hcreate (.cons hcrash .nil))), ?_⟩
    intro hr
    -- nobody owns the file, and yet the next process is told that somebody is busy
    obtain ⟨t, ht, -⟩ := hr
      (by
        intro p
        by_cases hp : p = 1
        · rw [hp]
          rfl
        · rw [setProc_of_ne _ _ hp]
          rfl)
      rfl 2 none sampleOp 1700000001 rfl
    have hbusy : ((Repo.init.createLock 1).setProc 1 .dead).acquire 2 sampleOp 1700000001 =
        .error (.otherOp "unknown".toList) := by rfl
    rw [hbusy] at ht
    simp at ht

end SpkEditor.RepoLock
