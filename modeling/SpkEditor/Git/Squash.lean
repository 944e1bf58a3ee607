import SpkEditor.Git.Rebase
import Mathlib.Data.List.Dedup

/-!
# Squashing commits

`git/src/operations/squash.rs`: the first of the selected commits is reworded, the others are
folded into it, and the rebase starts at the parent of the first one. One loop over the commits
from there on emits the todo list and looks whether the selection is contiguous. Once it has met
the first one it gives up at every commit that is not selected, those behind the selection
included, for which `pick` was due. So only a selection that reaches up to the tip of the branch
can be squashed.
-/

namespace SpkEditor.Rebase

open Cut List

/-! ## The steps of the builder, whose fields `build` hands over -/

namespace RebaseTodo

def pick (b : RebaseTodo) (sha : Text) : RebaseTodo := { b with steps := b.steps ++ [.pick sha] }

def fixup (b : RebaseTodo) (sha : Text) : RebaseTodo := { b with steps := b.steps ++ [.fixup sha] }

/-- `generate_token` has given `token`. -/
def reword (b : RebaseTodo) (sha token newMessage : Text) : RebaseTodo :=
  ⟨b.steps ++ [.reword sha token], (token, newMessage) :: b.messages⟩

end RebaseTodo

structure SquashOp where
  shas : List Text
  finalMessage : Text

abbrev Git := List Text → Except Text Output

def revParse (git : Git) (rev : Text) : Except Text Text :=
  match git ["rev-parse".toList, "--verify".toList, rev] with
  | .error err => .error ("spawn git: ".toList ++ err)
  | .ok output =>
    if output.success then .ok (trim output.stdout)
    else .error ("git rev-parse ".toList ++ rev ++ " failed: ".toList ++ trim output.stderr)

def listCommitsToPick (git : Git) (base : Text) : Except Text (List Text) :=
  match git ["rev-list".toList, "--reverse".toList, base ++ "..HEAD".toList] with
  | .error err => .error ("spawn git: ".toList ++ err)
  | .ok output =>
    if output.success then .ok (((lines output.stdout).map trim).filter (· ≠ []))
    else
      .error ("git rev-list ".toList ++ base ++ "..HEAD failed: ".toList ++ trim output.stderr)

/-- The texts are ASCII, so they are cut between characters. -/
def shasEqual (a b : Text) : Bool :=
  let min := min a.length b.length
  if min = 0 then false else toAsciiLowercase (a.take min) = toAsciiLowercase (b.take min)

structure SquashLoop where
  builder : RebaseTodo
  emittedFirst : Bool
  squashesEmitted : Nat

variable (first token finalMessage : Text) (squashTargets : List Text)

/-- The body of the loop. -/
def squashStep (s : SquashLoop) (commit : Text) : Except Text SquashLoop :=
  if !s.emittedFirst then
    if shasEqual commit first then
      .ok ⟨s.builder.reword commit token finalMessage, true, s.squashesEmitted⟩
    else .ok { s with builder := s.builder.pick commit }
  else if squashTargets.any (shasEqual commit) then
    .ok ⟨s.builder.fixup commit, true, s.squashesEmitted + 1⟩
  else
    .error ("squash targets are not contiguous: commit ".toList ++ commit ++
      " sits between selected commits".toList)

/-- `SquashOp::run` as far as the rebase, with what `run_rebase_with_op_name` is called with. -/
def SquashOp.run (git : Git) (op : SquashOp) : Except Text (Text × RebaseTodo) := do
  match op.shas with
  | [] => .error "squash: no commits supplied".toList
  | first :: others =>
    let base ← revParse git (first ++ ['^'])
    let history ← listCommitsToPick git base
    let squashTargets := (others.map toAsciiLowercase).dedup
    let s ← history.foldlM (squashStep first token op.finalMessage squashTargets)
      ⟨⟨[], []⟩, false, 0⟩
    if !s.emittedFirst then .error "squash: oldest selected commit not found in history".toList
    else if s.squashesEmitted ≠ squashTargets.length then
      .error ("squash: only ".toList ++ (toString s.squashesEmitted).toList ++ " of ".toList ++
        (toString squashTargets.length).toList ++
        " extra commits found in history (contiguity violation)".toList)
    else .ok (base, s.builder)

/-! ## What is to hold -/

/-- `sha` is `commit`, or a prefix of it that no other commit of the history has. -/
structure Names (history : List Text) (sha commit : Text) : Prop where
  mem : commit ∈ history
  ne_nil : sha ≠ []
  isPrefix : toAsciiLowercase sha <+: toAsciiLowercase commit
  unique : ∀ other ∈ history, toAsciiLowercase sha <+: toAsciiLowercase other → other = commit

/-- `selected` and `later` are the commits behind the first selected one: the other selected ones,
and all. -/
def SquashPlan (git : Git) (op : SquashOp) (base commit : Text) (selected later : List Text) :
    Prop :=
  ((∃ todo, op.run token git = .ok (base, todo)) ↔ selected <+: later) ∧
    ∀ newer todo, later = selected ++ newer → op.run token git = .ok (base, todo) →
      todo = ⟨.reword commit token :: selected.map .fixup ++ newer.map .pick,
        [(token, op.finalMessage)]⟩

variable {token first finalMessage squashTargets}

theorem Names.shasEqual_iff {history : List Text} {sha commit other : Text}
    (h : Names history sha commit) {n : Nat} (hlen : ∀ c ∈ history, c.length = n)
    (hother : other ∈ history) : shasEqual other sha ↔ other = commit := by
  have hle : sha.length ≤ other.length := by
    have := h.isPrefix.length_le
    simp only [toAsciiLowercase, length_map] at this
    rw [hlen other hother, ← hlen commit h.mem]
    exact this
  have hne : sha.length ≠ 0 := List.length_eq_zero_iff.not.mpr h.ne_nil
  -- the whole of `sha` is compared
  have hcut : shasEqual other sha ↔ toAsciiLowercase sha <+: toAsciiLowercase other := by
    unfold shasEqual
    rw [min_eq_right hle, if_neg hne, decide_eq_true_iff, take_length, prefix_iff_eq_take]
    simp only [toAsciiLowercase, length_map, map_take, eq_comm]
  rw [hcut]
  exact ⟨h.unique other hother, fun heq => heq ▸ h.isPrefix⟩

theorem toLower_toLower (c : Char) : c.toLower.toLower = c.toLower := by
  unfold Char.toLower
  by_cases h : c.val ≥ 'A'.val ∧ c.val ≤ 'Z'.val
  · rw [dif_pos h]
    refine dif_neg fun h' => ?_
    have habove := h'.2
    have hle := h.1
    simp only [ge_iff_le, UInt32.le_iff_toNat_le, UInt32.toNat_add, UInt32.toNat_sub] at habove hle
    simp at habove hle
    have := UInt32.le_iff_toNat_le.mp h.2
    simp at this
    omega
  · simp only [dif_neg h]

theorem toAsciiLowercase_idem (text : Text) :
    toAsciiLowercase (toAsciiLowercase text) = toAsciiLowercase text := by
  unfold toAsciiLowercase
  rw [List.map_map]
  exact map_congr_left fun c _ => toLower_toLower c

theorem shasEqual_lower (a b : Text) : shasEqual a (toAsciiLowercase b) = shasEqual a b := by
  have h : (toAsciiLowercase b).length = b.length := length_map _
  have htake (n : Nat) : toAsciiLowercase ((toAsciiLowercase b).take n) =
      toAsciiLowercase (b.take n) := by
    rw [← toAsciiLowercase_idem (b.take n)]
    unfold toAsciiLowercase
    simp only [map_take]
  unfold shasEqual
  simp only [h, htake]

theorem exists_named {R : Text → Text → Prop} {l l' : List Text} (h : List.Forall₂ R l l')
    {a : Text} (ha : a ∈ l) : ∃ b ∈ l', R a b := by
  induction h with
  | nil => cases ha
  | @cons x y l l' hxy _ ih =>
    rcases List.mem_cons.mp ha with rfl | ha
    · exact ⟨y, mem_cons_self, hxy⟩
    · obtain ⟨b, hb, hab⟩ := ih ha
      exact ⟨b, mem_cons_of_mem y hb, hab⟩

theorem nodup_targets {history others selected : List Text}
    (h : List.Forall₂ (Names history) others selected) (hn : selected.Nodup) :
    (others.map toAsciiLowercase).Nodup := by
  induction h with
  | nil => exact nodup_nil
  | @cons o c others selected ho hrest ih =>
    obtain ⟨hc, hn⟩ := List.nodup_cons.mp hn
    refine List.nodup_cons.mpr ⟨fun hmem => hc ?_, ih hn⟩
    obtain ⟨o', ho', heq⟩ := List.mem_map.mp hmem
    obtain ⟨c', hc', hnames⟩ := exists_named hrest ho'
    exact ho.unique c' hnames.mem (heq ▸ hnames.isPrefix) ▸ hc'

/-- Behind the first commit, the loop takes selected commits only. -/
theorem fixups_spec (later : List Text) (s : SquashLoop) (hs : s.emittedFirst = true) :
    ((∀ c ∈ later, squashTargets.any (shasEqual c)) →
      later.foldlM (squashStep first token finalMessage squashTargets) s =
        .ok ⟨⟨s.builder.steps ++ later.map .fixup, s.builder.messages⟩, true,
          s.squashesEmitted + later.length⟩) ∧
    (¬ (∀ c ∈ later, squashTargets.any (shasEqual c)) →
      ∃ err, later.foldlM (squashStep first token finalMessage squashTargets) s = .error err) := by
  induction later generalizing s with
  | nil =>
    obtain ⟨b, e, k⟩ := s
    cases hs
    refine ⟨fun _ => ?_, fun h => absurd nofun h⟩
    rw [map_nil, append_nil]
    rfl
  | cons c later ih =>
    rw [forall_mem_cons, foldlM_cons]
    by_cases hc : squashTargets.any (shasEqual c) = true
    · have hstep : squashStep first token finalMessage squashTargets s c =
          .ok ⟨s.builder.fixup c, true, s.squashesEmitted + 1⟩ := by
        unfold squashStep
        rw [hs, if_neg nofun, if_pos hc]
      obtain ⟨hok, herr⟩ := ih ⟨s.builder.fixup c, true, s.squashesEmitted + 1⟩ rfl
      rw [hstep]
      refine ⟨fun h => (hok h.2).trans ?_, fun h => herr fun hall => h ⟨hc, hall⟩⟩
      simp only [RebaseTodo.fixup, append_assoc, map_cons, singleton_append,
        length_cons, Nat.add_assoc, Nat.add_comm 1]
    · refine ⟨fun h => absurd h.1 hc, fun _ => ?_⟩
      unfold squashStep
      rw [hs, if_neg nofun, if_neg hc]
      exact ⟨_, rfl⟩

section

variable {git : Git} {op : SquashOp} {others later selected : List Text} {base commit : Text}

section

variable (hshas : op.shas = first :: others) (hbase : revParse git (first ++ ['^']) = .ok base)
  (hlist : listCommitsToPick git base = .ok (commit :: later))
include hshas hbase hlist

theorem run_spec (hfirst : shasEqual commit first = true) (hn : (others.map toAsciiLowercase).Nodup)
    (todo : RebaseTodo) :
    op.run token git = .ok (base, todo) ↔
      ((∀ c ∈ later, others.any (shasEqual c)) ∧ later.length = others.length) ∧
        todo = ⟨.reword commit token :: later.map .fixup, [(token, op.finalMessage)]⟩ := by
  have hany (c : Text) : (others.map toAsciiLowercase).any (shasEqual c) =
      others.any (shasEqual c) := by
    rw [List.any_map]
    exact congrArg others.any (funext fun o => shasEqual_lower c o)
  have hfold : (commit :: later).foldlM (squashStep first token op.finalMessage
      (others.map toAsciiLowercase)) ⟨⟨[], []⟩, false, 0⟩ =
      later.foldlM (squashStep first token op.finalMessage (others.map toAsciiLowercase))
        ⟨⟨[.reword commit token], [(token, op.finalMessage)]⟩, true, 0⟩ := by
    rw [foldlM_cons]
    unfold squashStep
    rw [if_pos (by rfl), if_pos hfirst]
    rfl
  obtain ⟨hok, herr⟩ := @fixups_spec first token op.finalMessage (others.map toAsciiLowercase) later
    ⟨⟨[.reword commit token], [(token, op.finalMessage)]⟩, true, 0⟩ rfl
  simp only [hany] at hok herr
  unfold SquashOp.run
  rw [hshas]
  by_cases hall : ∀ c ∈ later, others.any (shasEqual c) = true
  · simp only [hbase, hlist, hn.dedup, bind, Except.bind, hfold, hok hall, length_map,
      Nat.zero_add]
    by_cases hcount : later.length = others.length
    · rw [if_neg nofun, if_neg fun h => h hcount]
      exact ⟨fun h => ⟨⟨hall, hcount⟩, by cases h; rfl⟩, fun h => by rw [h.2]; rfl⟩
    · rw [if_neg nofun, if_pos hcount]
      exact iff_of_false nofun fun h => hcount h.1.2
  · obtain ⟨err, hloop⟩ := herr hall
    simp only [hbase, hlist, hn.dedup, bind, Except.bind, hfold, hloop]
    exact iff_of_false nofun fun h => hall h.1.1

/-- **Squashing keeps to the plan** unless there are commits behind a contiguous selection. -/
theorem squash_plan_iff (hn : (commit :: later).Nodup) {n : Nat} (hlen : ∀ c ∈ commit :: later, c.length = n)
    (hfirst : Names (commit :: later) first commit)
    (hothers : List.Forall₂ (Names (commit :: later)) others selected)
    (hselected : selected.Sublist later) :
    SquashPlan token git op base commit selected later ↔
      ¬ selected <+: later ∨ selected = later := by
  have hmatch (c : Text) (hc : c ∈ later) : others.any (shasEqual c) = true ↔ c ∈ selected := by
    have hmem := mem_cons_of_mem commit hc
    rw [List.any_eq_true]
    constructor
    · rintro ⟨o, ho, heq⟩
      obtain ⟨s, hs, hnames⟩ := exists_named hothers ho
      exact (hnames.shasEqual_iff hlen hmem).mp heq ▸ hs
    · intro hs
      obtain ⟨o, ho, hnames⟩ := exists_named hothers.flip hs
      exact ⟨o, ho, (hnames.shasEqual_iff hlen hmem).mpr rfl⟩
  have hrun := @run_spec first token git op others later base commit hshas hbase hlist
    ((hfirst.shasEqual_iff hlen hfirst.mem).mpr rfl)
    (nodup_targets hothers (hselected.nodup hn.of_cons))
  -- the loop gets to its end if all of them are selected
  have hall : ((∀ c ∈ later, others.any (shasEqual c) = true) ∧ later.length = others.length) ↔
      selected = later := by
    constructor
    · intro h
      exact hselected.eq_of_length (hothers.length_eq.symm.trans h.2.symm)
    · intro h
      subst h
      exact ⟨fun c hc => (hmatch c hc).mpr hc, hothers.length_eq.symm⟩
  simp only [hall] at hrun
  constructor
  · rintro ⟨hbuilt, -⟩
    by_cases hcontiguous : selected <+: later
    · obtain ⟨todo, h⟩ := hbuilt.mpr hcontiguous
      exact .inr ((hrun todo).mp h).1
    · exact .inl hcontiguous
  · intro h
    refine ⟨⟨?_, fun hcontiguous => ?_⟩, ?_⟩
    · rintro ⟨todo, hok⟩
      exact ((hrun todo).mp hok).1 ▸ prefix_rfl
    · exact ⟨_, (hrun _).mpr ⟨h.resolve_left (not_not_intro hcontiguous), rfl⟩⟩
    · intro newer todo hnewer hok
      obtain ⟨heq, rfl⟩ := (hrun todo).mp hok
      have hnil : newer = [] := by
        rw [← heq] at hnewer
        exact List.append_right_eq_self.mp hnewer.symm
      rw [hnil, heq, map_nil, append_nil]

end

end

def sha (c : Char) : Text := List.replicate 40 c

def gitOf (history : List Text) : Git := fun args =>
  .ok ⟨true, some 0, if args.head? = some "rev-parse".toList then sha '0'
    else history.flatMap (· ++ ['\n']), []⟩

/-- The two newest are squashed, the second one given by a prefix. -/
theorem squash_plan_newest :
    SquashPlan "t".toList (gitOf [sha 'b', sha 'c']) ⟨[sha 'b', "cc".toList], "both".toList⟩ (sha '0')
      (sha 'b') [sha 'c'] [sha 'c'] :=
  (squash_plan_iff (n := 40) rfl rfl (by decide) (by decide) (by decide)
    ⟨by decide, by decide, by decide, by decide⟩
    (.cons ⟨by decide, by decide, by decide, by decide⟩ .nil) (List.Sublist.refl _)).mpr (.inr rfl)

/-- The two oldest cannot be squashed. -/
theorem squash_plan_oldest :
    ¬ SquashPlan "t".toList (gitOf [sha 'a', sha 'b', sha 'c']) ⟨[sha 'a', sha 'b'], "both".toList⟩
      (sha '0') (sha 'a') [sha 'b'] [sha 'b', sha 'c'] := by
  rintro ⟨hbuilt, -⟩
  obtain ⟨todo, h⟩ := hbuilt.mpr ⟨[sha 'c'], rfl⟩
  have : (SquashOp.run "t".toList (gitOf [sha 'a', sha 'b', sha 'c'])
      ⟨[sha 'a', sha 'b'], "both".toList⟩).isOk = false := by decide
  rw [h] at this
  cases this

end SpkEditor.Rebase
