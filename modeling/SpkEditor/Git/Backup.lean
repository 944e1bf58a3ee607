import Mathlib.Algebra.Order.Ring.Int
import Mathlib.Data.List.Sort
import SpkEditor.Lib.Cut
import SpkEditor.Lib.Run

/-!
# Backup refs

`git/src/backup.rs`: before a destructive operation the tip of the branch is kept under
`refs/spke/backup/<branch>/<timestamp>-<op>`; `list` reads the names back apart and
`cleanup` deletes what is older than a number of days.

Git itself is not part of the repository. What the module asks of it is the class
`GitRefs`, and what it may rely on is `LawfulGitRefs`.
-/

namespace SpkEditor.Backup

open Cut List

/-- The git commands the module runs, on the state `σ` of a repository. -/
class GitRefs (σ : Type) where
  /-- `git rev-parse --verify <branch>^{commit}`. -/
  tip : σ → List Char → Option (List Char)
  /-- What a full ref name points at. -/
  resolve : σ → List Char → Option (List Char)
  /-- `git update-ref <name> <sha>`. -/
  updateRef : σ → List Char → List Char → Option σ
  /-- `git update-ref -d <name>`. -/
  deleteRef : σ → List Char → Option σ
  /-- `git for-each-ref <pattern>`: the object name and the ref name of each match. -/
  forEachRef : σ → List Char → List (List Char × List Char)

/-- A text that fits in one column of git's output: `git check-ref-format` rules blanks
and control characters out of ref names, and object names are hexadecimal. -/
def Plain (t : List Char) : Prop := ' ' ∉ t ∧ '\n' ∉ t ∧ '\r' ∉ t

instance (t : List Char) : Decidable (Plain t) := inferInstanceAs (Decidable (_ ∧ _ ∧ _))

/-- What git documents about these commands. -/
class LawfulGitRefs (σ : Type) [GitRefs σ] : Prop where
  plain {s : σ} {name sha : List Char} : GitRefs.resolve s name = some sha → Plain name ∧ Plain sha
  resolve_updateRef {s t : σ} {name sha : List Char} : GitRefs.updateRef s name sha = some t →
      ∀ n, GitRefs.resolve t n = if n = name then some sha else GitRefs.resolve s n
  resolve_deleteRef {s t : σ} {name : List Char} : GitRefs.deleteRef s name = some t →
      ∀ n, GitRefs.resolve t n = if n = name then none else GitRefs.resolve s n
  deleteRef_isSome {s : σ} {name : List Char} :
    (GitRefs.resolve s name).isSome → (GitRefs.deleteRef s name).isSome
  /-- A pattern matches a ref completely, or from the beginning up to a slash. -/
  mem_forEachRef {s : σ} {pattern sha name : List Char} :
    (sha, name) ∈ GitRefs.forEachRef s pattern ↔
      GitRefs.resolve s name = some sha ∧ (name = pattern ∨ pattern ++ ['/'] <+: name)

/-- `REF_PREFIX`. -/
def refDir : List Char := "refs/spke/backup".toList

/-- `branch.replace('/', "__")`. -/
def sanitizeBranch (branch : List Char) : List Char :=
  branch.flatMap fun c => if c = '/' then ['_', '_'] else [c]

/-- `sanitized.replace("__", "/")`. -/
def unsanitizeBranch : List Char → List Char
  | [] => []
  | [c] => [c]
  | c :: d :: rest =>
    if c = '_' ∧ d = '_' then '/' :: unsanitizeBranch rest
    else c :: unsanitizeBranch (d :: rest)

/-- One backup ref. The timestamp comes from the clock or from the digits of a name, so
it is never negative. -/
structure BackupRef where
  branch : List Char
  op : List Char
  timestampUnix : Nat
  beforeSha : List Char

/-- `<timestamp>-<op>`, the last component of a backup's name. -/
def leaf (timestamp : Nat) (op : List Char) : List Char := Nat.toDigits 10 timestamp ++ '-' :: op

/-- `BackupRef::ref_name`. -/
def BackupRef.refName (b : BackupRef) : List Char :=
  refDir ++ '/' :: (sanitizeBranch b.branch ++ '/' :: leaf b.timestampUnix b.op)

/-- `current_unix_seconds`: an `i64`, and not negative. -/
abbrev UnixSeconds := Fin (2 ^ 63)

/-- What `create` fails with; the context each puts in front of git's own words is
"reading tip of branch ..." and "creating backup ref ...". -/
inductive CreateError where
  | readingTip (branch : List Char)
  | creatingRef (refName : List Char)

section

variable {σ : Type} [GitRefs σ]

/-- `create`. -/
def create (s : σ) (now : UnixSeconds) (branch op : List Char) :
    Except CreateError (BackupRef × σ) :=
  match GitRefs.tip s branch with
  | none => .error (.readingTip branch)
  | some beforeSha =>
    let backup : BackupRef := ⟨branch, op, now, beforeSha⟩
    match GitRefs.updateRef s backup.refName beforeSha with
    | none => .error (.creatingRef backup.refName)
    | some t => .ok (backup, t)

/-- `str::parse::<i64>` of a text without a minus sign. -/
def parseI64 : List Char → Option Nat := parseBelow (2 ^ 63)

/-- Reads a ref name apart: the branch as encoded, the timestamp and the operation. -/
def parseName (refName : List Char) : Option (List Char × Nat × List Char) :=
  (stripFront (refDir ++ ['/']) refName).bind fun rest =>
  (rsplitOnce '/' rest).bind fun (rawBranch, leaf) =>
  (splitOnce '-' leaf).bind fun (timestampPart, opPart) =>
  (parseI64 timestampPart).map fun timestamp => (rawBranch, timestamp, opPart)

/-- One turn of the loop in `list`. -/
def parseLine (sinceUnix : Option Int) (line : List Char) : Option BackupRef :=
  (splitOnce ' ' line).bind fun (sha, refName) =>
  (parseName refName).bind fun (rawBranch, timestamp, op) =>
  if sinceUnix.any ((timestamp : Int) < ·) then none
  else some ⟨unsanitizeBranch rawBranch, op, timestamp, sha⟩

/-- The output of `git for-each-ref --format=%(objectname) %(refname) <pattern>`. -/
def forEachRefStdout (s : σ) (pattern : List Char) : List Char :=
  ((GitRefs.forEachRef s pattern).map fun (sha, name) => sha ++ ' ' :: name).flatMap
    fun line => line ++ ['\n']

/-- `list`: newest first. -/
def list (s : σ) (branch : Option (List Char)) (sinceUnix : Option Int) : List BackupRef :=
  let pattern :=
    match branch with
    | some branch => refDir ++ '/' :: sanitizeBranch branch
    | none => refDir
  ((lines (forEachRefStdout s pattern)).filterMap (parseLine sinceUnix)).insertionSort
    fun a b => b.timestampUnix ≤ a.timestampUnix

/-- The oldest timestamp a cleanup keeps; neither saturating operation of the source gets
near the bounds of an `i64`. -/
def cutoff (now : UnixSeconds) (olderThanDays : Nat) : Int := (now : Int) - olderThanDays * 86400

/-- One turn of the loop in `cleanup`. A ref that git does not delete is only logged. -/
def cleanupEntry (cutoff : Int) (acc : Nat × σ) (entry : BackupRef) : Nat × σ :=
  if cutoff ≤ entry.timestampUnix then acc
  else
    match GitRefs.deleteRef acc.2 entry.refName with
    | none => acc
    | some t => (acc.1 + 1, t)

/-- `cleanup`: the number of refs it removed. -/
def cleanup (s : σ) (now : UnixSeconds) (olderThanDays : Nat) : Nat × σ :=
  (list s none none).foldl (cleanupEntry (cutoff now olderThanDays)) (0, s)

end

/-- What `create` puts together: an operation name without a slash, and a timestamp that
fits in an `i64`. -/
structure BackupRef.Wf (b : BackupRef) : Prop where
  op : '/' ∉ b.op
  timestamp : b.timestampUnix < 2 ^ 63

theorem slash_not_mem_sanitizeBranch (branch : List Char) : '/' ∉ sanitizeBranch branch := by
  intro h
  obtain ⟨c, -, hc⟩ := List.mem_flatMap.mp h
  by_cases he : c = '/'
  · simp [he] at hc
  · rw [if_neg he] at hc
    exact he (List.mem_singleton.mp hc).symm

theorem sanitizeBranch_unsanitizeBranch {raw : List Char} (h : '/' ∉ raw) :
    sanitizeBranch (unsanitizeBranch raw) = raw := by
  fun_induction unsanitizeBranch raw with
  | case1 => rfl
  | case2 c =>
    have hc : c ≠ '/' := by
      intro he
      simp [he] at h
    simp [sanitizeBranch, hc]
  | case3 c d rest hcd ih =>
    have hrest : '/' ∉ rest := fun hm => h (by simp [hm])
    have := ih hrest
    rw [sanitizeBranch] at this
    rw [sanitizeBranch, flatMap_cons, this, hcd.1, hcd.2]
    rfl
  | case4 c d rest _ ih =>
    have hc : c ≠ '/' := by
      intro he
      simp [he] at h
    have := ih fun hm => h (mem_cons_of_mem _ hm)
    rw [sanitizeBranch] at this
    rw [sanitizeBranch, flatMap_cons, this, if_neg hc]
    rfl

theorem BackupRef.Wf.slash_not_mem_leaf {b : BackupRef} (h : b.Wf) :
    '/' ∉ leaf b.timestampUnix b.op := by
  intro hm
  rcases List.mem_append.mp hm with hm | hm
  · exact not_mem_toDigits (by decide) _ hm
  · rcases List.mem_cons.mp hm with hm | hm
    · exact absurd hm (by decide)
    · exact h.op hm

theorem BackupRef.Wf.parseName_refName {b : BackupRef} (h : b.Wf) :
    parseName b.refName = some (sanitizeBranch b.branch, b.timestampUnix, b.op) := by
  have hdash : splitOnce '-' (leaf b.timestampUnix b.op) =
      some (Nat.toDigits 10 b.timestampUnix, b.op) :=
    splitOnce_append (not_mem_toDigits (by decide) _)
  have hname : b.refName = (refDir ++ ['/']) ++
      (sanitizeBranch b.branch ++ '/' :: leaf b.timestampUnix b.op) := by
    simp [BackupRef.refName]
  simp only [parseName, hname, stripFront_append, Option.bind_some,
    rsplitOnce_append h.slash_not_mem_leaf, hdash, parseI64, parseBelow_toDigits h.timestamp,
    Option.map_some]

theorem BackupRef.Wf.timestamp_eq {a b : BackupRef} (ha : a.Wf) (hb : b.Wf)
    (h : a.refName = b.refName) : a.timestampUnix = b.timestampUnix := by
  have := ha.parseName_refName
  rw [h, hb.parseName_refName] at this
  exact (Prod.mk.inj (Prod.mk.inj (Option.some.inj this)).2).1.symm

/-- What is read apart has an operation without a slash and a timestamp of an `i64`. -/
theorem parseName_wf {name raw op : List Char} {timestamp : Nat}
    (h : parseName name = some (raw, timestamp, op)) : '/' ∉ op ∧ timestamp < 2 ^ 63 := by
  obtain ⟨rest, -, h⟩ := Option.bind_eq_some_iff.mp h
  obtain ⟨⟨raw', l⟩, hcut, h⟩ := Option.bind_eq_some_iff.mp h
  obtain ⟨⟨digits, op'⟩, hdash, h⟩ := Option.bind_eq_some_iff.mp h
  obtain ⟨t, ht, he⟩ := Option.map_eq_some_iff.mp h
  obtain ⟨rfl, rfl, rfl⟩ : raw' = raw ∧ t = timestamp ∧ op' = op := by simpa using he
  constructor
  · -- the operation is a piece of the part behind the last slash
    intro hm
    refine (eq_of_rsplitOnce hcut).2 ?_
    rw [(eq_of_splitOnce hdash).1]
    exact mem_append_right _ (mem_cons_of_mem _ hm)
  · exact lt_of_parseBelow ht

/-! ## Listing -/

theorem parseLine_append {sha name : List Char} (h : ' ' ∉ sha) :
    parseLine none (sha ++ ' ' :: name) = (parseName name).map fun p =>
      ⟨unsanitizeBranch p.1, p.2.2, p.2.1, sha⟩ := by
  simp only [parseLine, splitOnce_append h, Option.bind_some]
  cases parseName name <;> rfl

section

variable {σ : Type} [GitRefs σ] [LawfulGitRefs σ] {s : σ}

/-- Entries of a listing are the refs below the directory that can be read apart. -/
theorem mem_list {e : BackupRef} : e ∈ list s none none ↔
      ∃ sha name, GitRefs.resolve s name = some sha ∧ (name = refDir ∨ refDir ++ ['/'] <+: name) ∧
        parseLine none (sha ++ ' ' :: name) = some e := by
  have hlines : lines (forEachRefStdout s refDir) =
      (GitRefs.forEachRef s refDir).map fun (sha, name) => sha ++ ' ' :: name := by
    refine lines_flatMap ?_
    intro l hl
    obtain ⟨⟨sha, name⟩, hm, rfl⟩ := List.mem_map.mp hl
    obtain ⟨hname, hsha⟩ := LawfulGitRefs.plain (LawfulGitRefs.mem_forEachRef.mp hm).1
    constructor
    · simpa using ⟨hsha.2.1, hname.2.1⟩
    · simpa using ⟨hsha.2.2, hname.2.2⟩
  rw [list, mem_insertionSort]
  simp only [hlines, mem_filterMap, List.mem_map, Prod.exists]
  constructor
  · rintro ⟨l, ⟨sha, name, hm, rfl⟩, hp⟩
    obtain ⟨hr, hdir⟩ := LawfulGitRefs.mem_forEachRef.mp hm
    exact ⟨sha, name, hr, hdir, hp⟩
  · rintro ⟨sha, name, hr, hdir, hp⟩
    exact ⟨_, ⟨sha, name, LawfulGitRefs.mem_forEachRef.mpr ⟨hr, hdir⟩, rfl⟩, hp⟩

theorem wf_of_mem_list {e : BackupRef} (h : e ∈ list s none none) : e.Wf := by
  obtain ⟨sha, name, hr, -, hp⟩ := mem_list.mp h
  rw [parseLine_append (LawfulGitRefs.plain hr).2.1] at hp
  obtain ⟨⟨raw, t, op⟩, hname, rfl⟩ := Option.map_eq_some_iff.mp hp
  obtain ⟨hop, ht⟩ := parseName_wf hname
  exact ⟨hop, ht⟩

/-- **A backup that is there is listed**, under its own name and with its own second. -/
theorem exists_mem_list {b : BackupRef} (h : b.Wf) (hr : (GitRefs.resolve s b.refName).isSome) :
    ∃ e ∈ list s none none, e.refName = b.refName ∧ e.timestampUnix = b.timestampUnix := by
  obtain ⟨sha, hsha⟩ := Option.isSome_iff_exists.mp hr
  have hp : parseLine none (sha ++ ' ' :: b.refName) =
      some ⟨unsanitizeBranch (sanitizeBranch b.branch), b.op, b.timestampUnix, sha⟩ := by
    rw [parseLine_append (LawfulGitRefs.plain hsha).2.1, h.parseName_refName]
    rfl
  have hdir : refDir ++ ['/'] <+: b.refName :=
    ⟨sanitizeBranch b.branch ++ '/' :: leaf b.timestampUnix b.op, by simp [BackupRef.refName]⟩
  refine ⟨_, mem_list.mpr ⟨sha, b.refName, hsha, Or.inr hdir, hp⟩, ?_, rfl⟩
  simp only [BackupRef.refName,
    sanitizeBranch_unsanitizeBranch (slash_not_mem_sanitizeBranch b.branch)]

/-! ## Cleaning up -/

theorem resolve_cleanupEntry (c : Int) (acc : Nat × σ) (e : BackupRef) (n : List Char) :
    GitRefs.resolve (cleanupEntry c acc e).2 n =
      if (e.timestampUnix : Int) < c ∧ e.refName = n then none else GitRefs.resolve acc.2 n := by
  rw [cleanupEntry]
  by_cases hc : c ≤ e.timestampUnix
  · rw [if_pos hc, if_neg (fun h => absurd h.1 (by omega))]
  · rw [if_neg hc]
    cases hd : GitRefs.deleteRef acc.2 e.refName with
    | some t =>
      rw [LawfulGitRefs.resolve_deleteRef hd]
      by_cases hn : n = e.refName
      · rw [if_pos hn, if_pos ⟨by omega, hn.symm⟩]
      · rw [if_neg hn, if_neg (fun h => hn h.2.symm)]
    | none =>
      -- git only refuses to delete what is not there
      by_cases hn : e.refName = n
      · rw [if_pos ⟨by omega, hn⟩, ← Option.not_isSome_iff_eq_none, ← hn]
        intro hr
        have := LawfulGitRefs.deleteRef_isSome hr
        rw [hd] at this
        simp at this
      · rw [if_neg (fun h => hn h.2)]

theorem resolve_foldl_cleanupEntry (c : Int) (es : List BackupRef) (acc : Nat × σ) (n : List Char) :
    GitRefs.resolve (es.foldl (cleanupEntry c) acc).2 n =
      if ∃ e ∈ es, (e.timestampUnix : Int) < c ∧ e.refName = n then none
      else GitRefs.resolve acc.2 n := by
  induction es generalizing acc with
  | nil => simp
  | cons e es ih =>
    rw [foldl_cons, ih, resolve_cleanupEntry]
    by_cases hes : ∃ e ∈ es, (e.timestampUnix : Int) < c ∧ e.refName = n
    · obtain ⟨d, hd, hn⟩ := hes
      rw [if_pos ⟨d, hd, hn⟩, if_pos ⟨d, mem_cons_of_mem _ hd, hn⟩]
    · rw [if_neg hes]
      by_cases he : (e.timestampUnix : Int) < c ∧ e.refName = n
      · rw [if_pos he, if_pos ⟨e, mem_cons_self .., he⟩]
      · rw [if_neg he, if_neg]
        rintro ⟨d, hd, hn⟩
        rcases List.mem_cons.mp hd with rfl | hd
        · exact he hn
        · exact hes ⟨d, hd, hn⟩

theorem resolve_cleanup (now : UnixSeconds) (days : Nat) (n : List Char) :
    GitRefs.resolve (cleanup s now days).2 n =
      if ∃ e ∈ list s none none, (e.timestampUnix : Int) < cutoff now days ∧ e.refName = n then none
      else GitRefs.resolve s n :=
  resolve_foldl_cleanupEntry ..

end

end SpkEditor.Backup
