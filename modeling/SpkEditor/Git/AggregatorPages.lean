import Mathlib.Data.List.Nodup
import SpkEditor.Git.Aggregator

/-!
# Pages of the aggregated log

What is left of a member's history is what waits in its buffer and what has not been asked
for yet. A batch moves commits from the second part to the first and changes nothing about
the whole; taking a commit is a step of the merge of all histories. Before a commit is
taken, no buffer is empty whose member has more to give, so the commits in front are the
heads of what is left.
-/

namespace SpkEditor.Aggregator

open List Option

section

variable {δ : Type} {sizes : Sizes} {log : GitLog δ}

/-! ## The order -/

/-- `a` is shown before `b`: it is newer; or of the same date, and its member comes first. -/
def Before (a b : AggregatedCommit δ) : Prop :=
  b.committerDateUnix < a.committerDateUnix ∨ (a.committerDateUnix = b.committerDateUnix ∧
      (a.memberId < b.memberId ∨ (a.memberId = b.memberId ∧ a.sha < b.sha)))

theorem commitLt_iff {a b : AggregatedCommit δ} : commitLt a b = true ↔ Before b a := by
  unfold commitLt Before
  by_cases hd : a.committerDateUnix = b.committerDateUnix
  · rw [if_neg (not_not.mpr hd)]
    by_cases hm : a.memberId = b.memberId
    · rw [if_neg (not_not.mpr hm)]
      simp [hd, hm]
    · rw [if_pos hm]
      simp [hd, Ne.symm hm]
  · rw [if_pos hd]
    simp [Ne.symm hd]

theorem Before.trans {a b c : AggregatedCommit δ} (h : Before a b) (h' : Before b c) : Before a c := by
  rcases h with h | ⟨h, h1⟩
  · rcases h' with h' | ⟨h', -⟩ <;> exact .inl (by omega)
  · rcases h' with h' | ⟨h', h2⟩
    · exact .inl (by omega)
    · refine .inr ⟨h.trans h', ?_⟩
      rcases h1 with h1 | ⟨h1, h3⟩ <;> rcases h2 with h2 | ⟨h2, h4⟩
      · exact .inl (lt_trans h1 h2)
      · exact .inl (h2 ▸ h1)
      · exact .inl (h1 ▸ h2)
      · exact .inr ⟨h1.trans h2, lt_trans h3 h4⟩

theorem Before.irrefl (a : AggregatedCommit δ) : ¬ Before a a := by
  rintro (h | ⟨-, h | ⟨-, h⟩⟩)
  · exact lt_irrefl _ h
  · exact lt_irrefl _ h
  · exact lt_irrefl _ h

theorem Before.asymm (a b : AggregatedCommit δ) (h : Before a b) : ¬ Before b a :=
  fun h' => Before.irrefl a (h.trans h')

theorem Before.total {a b : AggregatedCommit δ} (h : a.memberId ≠ b.memberId) :
    Before a b ∨ Before b a := by
  rcases lt_trichotomy a.committerDateUnix b.committerDateUnix with hd | hd | hd
  · exact .inr (.inl hd)
  · rcases lt_or_gt_of_ne h with hm | hm
    · exact .inl (.inr ⟨hd, .inl hm⟩)
    · exact .inr (.inr ⟨hd.symm, .inl hm⟩)
  · exact .inl (.inl hd)

/-! ## One buffer -/

theorem runGitLog_eq (log : GitLog δ) (workDir : List Char) (gitArgs paths : List (List Char))
    (skip maxCount : Nat) (memberId : List Char) :
    runGitLog log workDir gitArgs paths skip maxCount memberId =
      ((history log gitArgs paths workDir memberId).drop skip).take maxCount := by
  rw [runGitLog, history, map_take, map_drop]

theorem memberId_history {gitArgs paths : List (List Char)} {workDir memberId : List Char}
    {c : AggregatedCommit δ} (h : c ∈ history log gitArgs paths workDir memberId) :
    c.memberId = memberId := by
  obtain ⟨g, -, rfl⟩ := List.mem_map.mp h
  rfl

/-- **A buffer holds what has been asked for and not been taken**, without gaps. -/
structure Held (log : GitLog δ) (gitArgs paths : List (List Char)) (b : MemberBuffer δ) : Prop where
  held : b.popped ++ b.pending = (history log gitArgs paths b.workDir b.memberId).take b.produced
  produced : b.produced ≤ (history log gitArgs paths b.workDir b.memberId).length

/-- A buffer that takes no more batches has all. -/
structure Fed (log : GitLog δ) (gitArgs paths : List (List Char)) (b : MemberBuffer δ) : Prop
    extends Held log gitArgs paths b where
  exhausted : b.exhausted = true → (history log gitArgs paths b.workDir b.memberId).length ≤ b.produced

def MemberBuffer.left (log : GitLog δ) (gitArgs paths : List (List Char)) (b : MemberBuffer δ) :
    List (AggregatedCommit δ) :=
  b.pending ++ (history log gitArgs paths b.workDir b.memberId).drop b.produced

def MemberBuffer.Ready (b : MemberBuffer δ) : Prop := b.pending ≠ [] ∨ b.exhausted = true

variable {gitArgs paths : List (List Char)} {b : MemberBuffer δ}

theorem Held.memberId_pending (h : Held log gitArgs paths b) {c : AggregatedCommit δ}
    (hc : c ∈ b.pending) : c.memberId = b.memberId := by
  have hmem : c ∈ b.popped ++ b.pending := mem_append_right _ hc
  rw [h.held] at hmem
  exact memberId_history (mem_of_mem_take hmem)

theorem Held.extend (h : Held log gitArgs paths b) (batch : Nat) : Held log gitArgs paths
      (b.extend batch (runGitLog log b.workDir gitArgs paths b.produced batch b.memberId)) := by
  rw [runGitLog_eq]
  constructor
  · show b.popped ++ (b.pending ++ _) = _
    rw [← append_assoc, h.held]
    show _ = (history log gitArgs paths b.workDir b.memberId).take (b.produced + _)
    rw [take_add]
    congr 1
    rw [length_take]
    exact take_eq_take_min
  · show b.produced + _ ≤ (history log gitArgs paths b.workDir b.memberId).length
    have := h.produced
    rw [length_take, length_drop]
    omega

theorem Fed.extend (h : Fed log gitArgs paths b) (batch : Nat) :
    let b' := b.extend batch (runGitLog log b.workDir gitArgs paths b.produced batch b.memberId)
    Fed log gitArgs paths b' ∧ (0 < batch → b'.Ready) ∧
      b'.left log gitArgs paths = b.left log gitArgs paths := by
  intro b'
  obtain ⟨l, hl⟩ : ∃ l, l = history log gitArgs paths b.workDir b.memberId := ⟨_, rfl⟩
  have hcommits : runGitLog log b.workDir gitArgs paths b.produced batch b.memberId =
      (l.drop b.produced).take batch := by rw [runGitLog_eq, hl]
  have hprod := h.produced
  have hlen : ((l.drop b.produced).take batch).length = min batch (l.length - b.produced) := by
    rw [length_take, length_drop]
  refine ⟨⟨h.toHeld.extend batch, ?_⟩, ?_, ?_⟩
  · show (b.exhausted || decide (_ < batch)) = true →
      (history log gitArgs paths b.workDir b.memberId).length ≤ b.produced + _
    rw [hcommits, ← hl, Bool.or_eq_true, decide_eq_true_iff]
    rintro (hex | hshort)
    · have := h.exhausted hex
      rw [← hl] at this
      omega
    · omega
  · intro hbatch
    show b.pending ++ _ ≠ [] ∨ (b.exhausted || decide (_ < batch)) = true
    rw [hcommits]
    by_cases hshort : ((l.drop b.produced).take batch).length < batch
    · exact .inr (by simp only [hshort, decide_true, Bool.or_true])
    · refine .inl (fun hnil => ?_)
      have := congrArg List.length hnil
      rw [length_append, length_nil] at this
      omega
  · show (b.pending ++ _) ++ (history log gitArgs paths b.workDir b.memberId).drop (b.produced + _) = _
    rw [MemberBuffer.left, hcommits, ← hl, append_assoc]
    congr 1
    rw [hlen, ← drop_drop]
    by_cases hshort : batch ≤ l.length - b.produced
    · rw [min_eq_left hshort, take_append_drop]
    · have hnone : (l.drop b.produced).drop (l.length - b.produced) = [] :=
        drop_of_length_le (by rw [length_drop])
      rw [min_eq_right (by omega), take_of_length_le (by rw [length_drop]; omega),
        hnone, append_nil]

theorem Held.popFront (h : Held log gitArgs paths b) : Held log gitArgs paths b.popFront := by
  refine ⟨?_, h.produced⟩
  show (b.popped ++ b.pending.take 1) ++ b.pending.drop 1 = _
  rw [append_assoc, take_append_drop]
  exact h.held

theorem Fed.popFront (h : Fed log gitArgs paths b) : Fed log gitArgs paths b.popFront :=
  ⟨h.toHeld.popFront, h.exhausted⟩

theorem Fed.head_left (h : Fed log gitArgs paths b) (hr : b.Ready) :
    (b.left log gitArgs paths).head? = b.pending.head? := by
  unfold MemberBuffer.left
  cases hp : b.pending with
  | cons c rest => rfl
  | nil =>
    have hex : b.exhausted = true := hr.resolve_left (fun hne => hne hp)
    rw [nil_append, drop_of_length_le (h.exhausted hex)]

/-! ## All buffers -/

variable {members : List (MemberBuffer δ)} {memberId : List Char} {batch : Nat}
  {commits : List (AggregatedCommit δ)}

def MemberBuffer.name (b : MemberBuffer δ) : List Char × List Char := (b.memberId, b.workDir)

theorem name_extendMember : ∀ members : List (MemberBuffer δ),
    (extendMember memberId batch commits members).map MemberBuffer.name =
      members.map MemberBuffer.name
  | [] => rfl
  | b :: members => by
      unfold extendMember
      split
      · rfl
      · rw [map_cons, map_cons, name_extendMember members]

theorem name_popFront (i : Nat) :
    (members.modify i MemberBuffer.popFront).map MemberBuffer.name = members.map MemberBuffer.name := by
  refine ext_getElem? (fun j => ?_)
  rw [getElem?_map, getElem?_map, getElem?_modify]
  cases members[j]? with
  | none => rfl
  | some b =>
    split <;> rfl

theorem extendMember_eq (hnd : (members.map MemberBuffer.memberId).Nodup) :
    extendMember memberId batch commits members =
      members.map fun b => if b.memberId = memberId then b.extend batch commits else b := by
  induction members with
  | nil => rfl
  | cons b members ih =>
    rw [map_cons, nodup_cons] at hnd
    unfold extendMember
    split
    · rename_i hb
      rw [map_cons, if_pos hb]
      congr 1
      conv_lhs => rw [← List.map_id members]
      refine map_congr_left (fun x hx => ?_)
      rw [if_neg (fun heq => hnd.1 (by rw [hb, ← heq]; exact List.mem_map_of_mem hx))]
      rfl
    · rename_i hb
      rw [map_cons, if_neg hb, ih hnd.2]

def leftOf (log : GitLog δ) (gitArgs paths : List (List Char)) (members : List (MemberBuffer δ))
    (memberId : List Char) : List (AggregatedCommit δ) :=
  match members.find? (·.memberId = memberId) with
  | some b => b.left log gitArgs paths
  | none => []

section

variable (hnd : (members.map MemberBuffer.memberId).Nodup) (hb : b ∈ members)
include hnd hb

theorem find_of_mem : members.find? (·.memberId = b.memberId) = some b := by
  induction members with
  | nil => exact absurd hb (not_mem_nil)
  | cons x members ih =>
    rw [map_cons, nodup_cons] at hnd
    rcases List.mem_cons.mp hb with rfl | hb
    · simp
    · have hne : x.memberId ≠ b.memberId := fun heq =>
        hnd.1 (by rw [heq]; exact List.mem_map_of_mem hb)
      rw [find?_cons_of_neg (by simpa using hne)]
      exact ih hnd.2 hb

theorem leftOf_of_mem : leftOf log gitArgs paths members b.memberId = b.left log gitArgs paths := by
  rw [leftOf, find_of_mem hnd hb]

end

theorem leftOf_eq_nil (h : memberId ∉ members.map MemberBuffer.memberId) :
    leftOf log gitArgs paths members memberId = [] := by
  rw [leftOf, List.find?_eq_none.mpr]
  intro x hx
  simp only [decide_eq_true_iff]
  exact fun heq => h (heq ▸ List.mem_map_of_mem hx)

theorem leftOf_map {f : MemberBuffer δ → MemberBuffer δ}
    (hid : ∀ b ∈ members, (f b).memberId = b.memberId)
    (hleft : ∀ b ∈ members, (f b).left log gitArgs paths = b.left log gitArgs paths) :
    leftOf log gitArgs paths (members.map f) = leftOf log gitArgs paths members := by
  funext m
  unfold leftOf
  induction members with
  | nil => rfl
  | cons b members ih =>
    have hrest := ih (fun x hx => hid x (mem_cons_of_mem _ hx))
      (fun x hx => hleft x (mem_cons_of_mem _ hx))
    have hb := hid b (by simp)
    rw [map_cons]
    by_cases hm : b.memberId = m
    · rw [find?_cons_of_pos (by simpa [hb] using hm), find?_cons_of_pos (by simpa using hm)]
      exact hleft b (by simp)
    · rw [find?_cons_of_neg (by simpa [hb] using hm), find?_cons_of_neg (by simpa using hm)]
      exact hrest

theorem not_before_of_eq_or_before {c d : AggregatedCommit δ} (h : c = d ∨ Before c d) : ¬ Before d c := by
  rcases h with rfl | h
  · exact Before.irrefl c
  · exact Before.asymm c d h

/-- **What the loop of `pick_next` finds**: a commit in front that no other one in front comes
before; nothing only if nothing is in front. -/
theorem bestFrom_spec : ∀ (members : List (MemberBuffer δ)) (i : Nat)
    (best : Option (Nat × AggregatedCommit δ)),
    (∀ k c, bestFrom i best members = some (k, c) →
      (best = some (k, c) ∨ ∃ j b rest, members[j]? = some b ∧ k = i + j ∧ b.pending = c :: rest) ∧
      (∀ b ∈ members, ∀ d ∈ b.pending.head?, ¬ Before d c) ∧
      ∀ x, best = some x → c = x.2 ∨ Before c x.2) ∧
    (bestFrom i best members = none → best = none ∧ ∀ b ∈ members, b.pending = [])
  | [], i, best => by
      refine ⟨fun k c h => ⟨.inl h, by simp, fun x hx => ?_⟩, fun h => ⟨h, by simp⟩⟩
      have hx' : some x = some (k, c) := hx.symm.trans h
      obtain rfl := some.inj hx'
      exact .inl rfl
  | buf :: members, i, best => by
      have hlater : ∀ {k : Nat} {c : AggregatedCommit δ},
          (∃ j b rest, members[j]? = some b ∧ k = i + 1 + j ∧ b.pending = c :: rest) →
          ∃ j b rest, (buf :: members)[j]? = some b ∧ k = i + j ∧ b.pending = c :: rest := by
        rintro k c ⟨j, b, rest, hj, rfl, hb⟩
        exact ⟨j + 1, b, rest, hj, by omega, hb⟩
      unfold bestFrom
      split
      · -- an empty buffer has nothing in front
        rename_i best _ _ hp
        obtain ⟨hsome, hnone⟩ := bestFrom_spec members (i + 1) best
        refine ⟨fun k c h => ?_, fun h => ?_⟩
        · obtain ⟨h1, h2, h3⟩ := hsome k c h
          refine ⟨h1.imp id hlater, fun b hb d hd => ?_, h3⟩
          rcases List.mem_cons.mp hb with rfl | hb
          · rw [hp] at hd
            cases hd
          · exact h2 b hb d hd
        · obtain ⟨h1, h2⟩ := hnone h
          refine ⟨h1, fun b hb => ?_⟩
          rcases List.mem_cons.mp hb with rfl | hb
          · exact hp
          · exact h2 b hb
      · rename_i front rest hp
        obtain ⟨hsome, hnone⟩ := bestFrom_spec members (i + 1) (some (i, front))
        refine ⟨fun k c h => ?_, fun h => absurd (hnone h).1 (by simp)⟩
        obtain ⟨h1, h2, h3⟩ := hsome k c h
        refine ⟨.inr ?_, fun b hb d hd => ?_, by simp⟩
        · rcases h1 with h1 | h1
          · cases h1
            exact ⟨0, buf, rest, rfl, rfl, hp⟩
          · exact hlater h1
        · rcases List.mem_cons.mp hb with rfl | hb
          · rw [hp, head?_cons, mem_some_iff] at hd
            exact hd ▸ not_before_of_eq_or_before (h3 _ rfl)
          · exact h2 b hb d hd
      · rename_i front rest l other hp
        split
        · -- the front of this buffer is better
          rename_i hlt
          rw [commitLt_iff] at hlt
          obtain ⟨hsome, hnone⟩ := bestFrom_spec members (i + 1) (some (i, front))
          refine ⟨fun k c h => ?_, fun h => absurd (hnone h).1 (by simp)⟩
          obtain ⟨h1, h2, h3⟩ := hsome k c h
          refine ⟨.inr ?_, fun b hb d hd => ?_, fun x hx => .inr ?_⟩
          · rcases h1 with h1 | h1
            · cases h1
              exact ⟨0, buf, rest, rfl, rfl, hp⟩
            · exact hlater h1
          · rcases List.mem_cons.mp hb with rfl | hb
            · rw [hp, head?_cons, mem_some_iff] at hd
              exact hd ▸ not_before_of_eq_or_before (h3 _ rfl)
            · exact h2 b hb d hd
          · cases hx
            rcases h3 _ rfl with heq | hbefore
            · exact heq ▸ hlt
            · exact hbefore.trans hlt
        · rename_i hlt
          rw [commitLt_iff] at hlt
          obtain ⟨hsome, hnone⟩ := bestFrom_spec members (i + 1) (some (l, other))
          refine ⟨fun k c h => ?_, fun h => absurd (hnone h).1 (by simp)⟩
          obtain ⟨h1, h2, h3⟩ := hsome k c h
          refine ⟨h1.imp id hlater, fun b hb d hd => ?_, h3⟩
          rcases List.mem_cons.mp hb with rfl | hb
          · rw [hp, head?_cons, mem_some_iff] at hd
            subst hd
            rcases h3 _ rfl with heq | hbefore
            · rw [heq]
              exact hlt
            · exact fun h => hlt (h.trans hbefore)
          · exact h2 b hb d hd

/-! ## A session -/

variable {plan : SessionPlan} {s : Session δ} {out : List (AggregatedCommit δ)}

/-- The history of each member, and nothing for the others. -/
def SessionPlan.histories (log : GitLog δ) (plan : SessionPlan) (memberId : List Char) :
    List (AggregatedCommit δ) :=
  match plan.eligible.lookup memberId with
  | some workDir => history log plan.gitArgs plan.paths workDir memberId
  | none => []

/-- **The session of a plan after some commits**: its buffers hold what has been asked for, and
what has been taken was taken in the order of the merge. -/
structure Serves (log : GitLog δ) (plan : SessionPlan) (s : Session δ)
    (out : List (AggregatedCommit δ)) : Prop where
  key : s.key = plan.key
  cap : s.cap = plan.cap
  named : s.members.map MemberBuffer.name = plan.eligible
  fed : ∀ b ∈ s.members, Fed log plan.gitArgs plan.paths b
  emitted : s.totalEmitted = out.length
  taken : Run (Takes Before) (plan.histories log) out (leftOf log plan.gitArgs plan.paths s.members)

theorem Serves.nodup (h : Serves log plan s out) : (s.members.map MemberBuffer.memberId).Nodup := by
  have := plan.nodup
  rw [← h.named, List.map_map] at this
  exact this

/-- **A batch, asked for at the right place, changes nothing about what is to come.** -/
theorem Serves.refill (h : Serves log plan s out) (hb : b ∈ s.members) :
    Serves log plan (s.refill sizes log plan ⟨b.memberId, b.workDir, b.produced⟩) out ∧
      ∀ x ∈ (s.refill sizes log plan ⟨b.memberId, b.workDir, b.produced⟩).members,
        (x.Ready ∧ x.memberId = b.memberId) ∨ (x ∈ s.members ∧ x.memberId ≠ b.memberId) := by
  obtain ⟨grow, hgrow⟩ : ∃ f : MemberBuffer δ → MemberBuffer δ, f = fun x =>
    if x.memberId = b.memberId then x.extend sizes.refillBatch
      (runGitLog log b.workDir plan.gitArgs plan.paths b.produced sizes.refillBatch b.memberId) else x :=
    ⟨_, rfl⟩
  have hmembers : (s.refill sizes log plan ⟨b.memberId, b.workDir, b.produced⟩).members =
      s.members.map grow := by
    rw [hgrow]
    exact extendMember_eq h.nodup
  -- the member has one buffer
  have hsame : ∀ x ∈ s.members, x.memberId = b.memberId → x = b := fun x hx heq =>
    inj_on_of_nodup_map h.nodup hx hb heq
  have hself := (h.fed b hb).extend sizes.refillBatch
  have hgrown : ∀ x ∈ s.members, Fed log plan.gitArgs plan.paths (grow x) ∧
      (grow x).left log plan.gitArgs plan.paths = x.left log plan.gitArgs plan.paths ∧
      (grow x).memberId = x.memberId ∧
      (((grow x).Ready ∧ x.memberId = b.memberId) ∨ (grow x = x ∧ x.memberId ≠ b.memberId)) := by
    intro x hx
    rw [hgrow]
    by_cases heq : x.memberId = b.memberId
    · obtain rfl := hsame x hx heq
      dsimp only
      rw [if_pos rfl]
      exact ⟨hself.1, hself.2.2, rfl, .inl ⟨hself.2.1 sizes.refillBatch_pos, rfl⟩⟩
    · dsimp only
      rw [if_neg heq]
      exact ⟨h.fed x hx, rfl, rfl, .inr ⟨rfl, heq⟩⟩
  refine ⟨⟨h.key, h.cap, ?_, ?_, h.emitted, ?_⟩, ?_⟩
  · exact (name_extendMember s.members).trans h.named
  · intro x hx
    rw [hmembers] at hx
    obtain ⟨y, hy, rfl⟩ := List.mem_map.mp hx
    exact (hgrown y hy).1
  · rw [hmembers, leftOf_map (fun x hx => (hgrown x hx).2.2.1) (fun x hx => (hgrown x hx).2.1)]
    exact h.taken
  · intro x hx
    rw [hmembers] at hx
    obtain ⟨y, hy, rfl⟩ := List.mem_map.mp hx
    obtain ⟨-, -, hid, hready | ⟨heq, hne⟩⟩ := hgrown y hy
    · exact .inl ⟨hready.1, hid.trans hready.2⟩
    · rw [heq]
      exact .inr ⟨hy, hne⟩

theorem leftOf_popFront (hnd : (members.map MemberBuffer.memberId).Nodup) {i : Nat}
    (hi : members[i]? = some b) {c : AggregatedCommit δ} {rest : List (AggregatedCommit δ)}
    (hb : b.pending = c :: rest) :
    leftOf log gitArgs paths (members.modify i MemberBuffer.popFront) =
      Function.update (leftOf log gitArgs paths members) b.memberId
        (rest ++ (history log gitArgs paths b.workDir b.memberId).drop b.produced) := by
  have hids : (members.modify i MemberBuffer.popFront).map MemberBuffer.memberId =
      members.map MemberBuffer.memberId := by
    have := congrArg (List.map Prod.fst) (@name_popFront δ members i)
    rwa [List.map_map, List.map_map] at this
  have hpop : b.popFront ∈ members.modify i MemberBuffer.popFront := by
    refine mem_of_getElem? (i := i) ?_
    rw [getElem?_modify, hi]
    simp
  have hnd' : ((members.modify i MemberBuffer.popFront).map MemberBuffer.memberId).Nodup := by
    rw [hids]; exact hnd
  funext m
  by_cases hm : m = b.memberId
  · subst hm
    rw [Function.update_self]
    refine (leftOf_of_mem hnd' hpop).trans ?_
    show b.pending.drop 1 ++ _ = _
    rw [hb]
    rfl
  · rw [Function.update_of_ne hm]
    by_cases hin : m ∈ members.map MemberBuffer.memberId
    · obtain ⟨x, hx, rfl⟩ := List.mem_map.mp hin
      obtain ⟨j, hj⟩ := mem_iff_getElem?.mp hx
      have hij : i ≠ j := by
        rintro rfl
        rw [hi] at hj
        exact hm (by rw [some.inj hj])
      have hx' : x ∈ members.modify i MemberBuffer.popFront := by
        refine mem_of_getElem? (i := j) ?_
        rw [getElem?_modify, hj]
        simp [hij]
      rw [leftOf_of_mem hnd hx, leftOf_of_mem hnd' hx']
    · rw [leftOf_eq_nil hin, leftOf_eq_nil (by rw [hids]; exact hin)]

/-- **`pick_next` takes a step of the merge**, if no buffer is empty by accident; and finds
nothing only if there is nothing left. -/
theorem Serves.pickNext (h : Serves log plan s out) (hready : ∀ b ∈ s.members, b.Ready) :
    (∃ c members, pickNext s.members = (.yielded c, members) ∧
      Serves log plan { s with members := members, totalEmitted := s.totalEmitted + 1 } (out ++ [c])) ∨
    (pickNext s.members = (.done, s.members) ∧
      leftOf log plan.gitArgs plan.paths s.members = fun _ => []) := by
  obtain ⟨hsome, hnone⟩ := bestFrom_spec s.members 0 none
  cases hbest : bestFrom 0 none s.members with
  | some x =>
    obtain ⟨k, c⟩ := x
    obtain ⟨hfound, hfirst, -⟩ := hsome k c hbest
    obtain ⟨j, b, rest, hj, hkj, hb⟩ := hfound.resolve_left (by simp)
    obtain rfl : k = j := by omega
    have hmem : b ∈ s.members := mem_of_getElem? hj
    have hfed := h.fed b hmem
    refine .inl ⟨c, s.members.modify k MemberBuffer.popFront, ?_, h.key, h.cap,
      (name_popFront k).trans h.named, fun x hx => ?_, by simp [h.emitted], h.taken.snoc ?_⟩
    · unfold Aggregator.pickNext
      rw [hbest]
    · obtain ⟨i, hi⟩ := mem_iff_getElem?.mp hx
      rw [getElem?_modify] at hi
      obtain ⟨y, hy, rfl⟩ := Option.map_eq_some_iff.mp hi
      split
      · exact (h.fed y (mem_of_getElem? hy)).popFront
      · exact h.fed y (mem_of_getElem? hy)
    · refine ⟨b.memberId, _, ?_, fun m hm d hd => ?_, leftOf_popFront h.nodup hj hb⟩
      · rw [leftOf_of_mem h.nodup hmem, MemberBuffer.left, hb]
        rfl
      · by_cases hin : m ∈ s.members.map MemberBuffer.memberId
        · obtain ⟨x, hx, rfl⟩ := List.mem_map.mp hin
          rw [leftOf_of_mem h.nodup hx, (h.fed x hx).head_left (hready x hx)] at hd
          have hdm : d.memberId = x.memberId :=
            (h.fed x hx).memberId_pending (mem_of_mem_head? hd)
          have hcm : c.memberId = b.memberId := hfed.memberId_pending (by rw [hb]; simp)
          exact (Before.total (by rw [hcm, hdm]; exact Ne.symm hm)).resolve_right (hfirst x hx d hd)
        · rw [leftOf_eq_nil hin] at hd
          cases hd
  | none =>
    have hempty := (hnone hbest).2
    have hex : ∀ b ∈ s.members, b.exhausted = true := fun b hb =>
      (hready b hb).resolve_left (fun hne => hne (hempty b hb))
    refine .inr ⟨?_, ?_⟩
    · unfold Aggregator.pickNext
      rw [hbest]
      rw [if_pos (List.all_eq_true.mpr hex)]
    · funext m
      by_cases hin : m ∈ s.members.map MemberBuffer.memberId
      · obtain ⟨x, hx, rfl⟩ := List.mem_map.mp hin
        have hhead := (h.fed x hx).head_left (hready x hx)
        rw [hempty x hx, head?_nil, head?_eq_none_iff] at hhead
        rw [leftOf_of_mem h.nodup hx, hhead]
      · exact leftOf_eq_nil hin

/-! ## The first batches -/

def firstBatches (sizes : Sizes) (log : GitLog δ) (gitArgs paths : List (List Char)) (b : MemberBuffer δ)
    (ms : List (List Char × List Char)) : MemberBuffer δ :=
  ms.foldl (fun b m => if b.memberId = m.1 then
    b.extend sizes.initialBatch (runGitLog log m.2 gitArgs paths 0 sizes.initialBatch m.1) else b) b

theorem firstBatches_other {ms : List (List Char × List Char)} (h : b.memberId ∉ ms.map Prod.fst) :
    firstBatches sizes log gitArgs paths b ms = b := by
  induction ms with
  | nil => rfl
  | cons m ms ih =>
    rw [map_cons, mem_cons, not_or] at h
    rw [firstBatches, foldl_cons, if_neg h.1]
    exact ih h.2

theorem foldl_extendMember (hnd : (members.map MemberBuffer.memberId).Nodup)
    (ms : List (List Char × List Char)) :
    ms.foldl (fun members m => extendMember m.1 sizes.initialBatch
      (runGitLog log m.2 gitArgs paths 0 sizes.initialBatch m.1) members) members =
      members.map fun b => firstBatches sizes log gitArgs paths b ms := by
  induction ms generalizing members with
  | nil => exact (List.map_id _).symm
  | cons m ms ih =>
    rw [foldl_cons, ih, extendMember_eq hnd, List.map_map]
    · rfl
    · have := congrArg (List.map Prod.fst)
        (@name_extendMember δ m.1 sizes.initialBatch (runGitLog log m.2 gitArgs paths 0 sizes.initialBatch m.1) members)
      rw [List.map_map, List.map_map] at this
      exact (congrArg Nodup this).mpr hnd

theorem serves_session (sizes : Sizes) (log : GitLog δ) (plan : SessionPlan) :
    Serves log plan (plan.session sizes log) [] := by
  have hids : (plan.eligible.map (MemberBuffer.new (δ := δ))).map MemberBuffer.memberId =
      plan.eligible.map Prod.fst := by
    rw [List.map_map]
    rfl
  have hmembers : (plan.session sizes log).members = plan.eligible.map fun m =>
      (MemberBuffer.new m).extend sizes.initialBatch
        (runGitLog log m.2 plan.gitArgs plan.paths 0 sizes.initialBatch m.1) := by
    refine (foldl_extendMember (by rw [hids]; exact plan.nodup) plan.eligible).trans ?_
    rw [List.map_map]
    refine map_congr_left (fun m hm => ?_)
    -- the batches of the others pass this buffer by
    obtain ⟨front, back, heq⟩ := append_of_mem hm
    have hnd := plan.nodup
    rw [heq, map_append, map_cons, nodup_append, nodup_cons] at hnd
    obtain ⟨-, ⟨hback, -⟩, hfront⟩ := hnd
    have hnot : m.1 ∉ front.map Prod.fst := fun hin => hfront _ hin m.1 (by simp) rfl
    have h1 : firstBatches sizes log plan.gitArgs plan.paths (MemberBuffer.new m) front = MemberBuffer.new m :=
      firstBatches_other hnot
    show firstBatches sizes log plan.gitArgs plan.paths (MemberBuffer.new m) plan.eligible = _
    rw [heq, firstBatches, foldl_append]
    unfold firstBatches at h1
    rw [h1, foldl_cons, if_pos (show (MemberBuffer.new (δ := δ) m).memberId = m.1 from rfl)]
    exact firstBatches_other hback
  have hnew : ∀ m : List Char × List Char, Fed log plan.gitArgs plan.paths (MemberBuffer.new m) :=
    fun m => ⟨⟨rfl, Nat.zero_le _⟩, fun h => absurd h Bool.false_ne_true⟩
  have hfirst : ∀ m : List Char × List Char, _ := fun m =>
    (hnew m).extend sizes.initialBatch
  refine ⟨rfl, rfl, ?_, fun b hb => ?_, rfl, ?_⟩
  · rw [hmembers, List.map_map]
    exact List.map_id _
  · rw [hmembers] at hb
    obtain ⟨m, -, rfl⟩ := List.mem_map.mp hb
    exact (hfirst m).1
  · have hall : plan.histories log = leftOf log plan.gitArgs plan.paths (plan.session sizes log).members := by
      funext m
      rw [hmembers]
      unfold SessionPlan.histories leftOf
      induction plan.eligible with
      | nil => rfl
      | cons x eligible ih =>
        rw [map_cons, lookup_cons]
        by_cases hx : x.1 = m
        · rw [find?_cons_of_pos (by simp [hx]), beq_iff_eq.mpr hx.symm]
          refine Eq.trans ?_ (hfirst x).2.2.symm
          rw [← hx]
          rfl
        · rw [find?_cons_of_neg (by simp [hx]),
            show (m == x.1) = false from beq_eq_false_iff_ne.mpr (Ne.symm hx)]
          exact ih
    rw [← hall]
    exact .nil

/-! ## Steps of a call -/

theorem steps_add (m n : Nat) (x : Option (Session δ) × Fetch δ) :
    Fetch.steps sizes log (m + n) x = Fetch.steps sizes log n (Fetch.steps sizes log m x) := by
  induction m generalizing x with
  | zero => rw [zero_add]; rfl
  | succ m ih =>
    rw [Nat.succ_add]
    exact ih _

theorem steps_finished {f : Fetch δ} (h : f.stage = .finished) (session : Option (Session δ)) (n : Nat) :
    Fetch.steps sizes log n (session, f) = (session, f) := by
  induction n with
  | zero => rfl
  | succ n ih =>
    have hstep : f.step sizes log session = (session, f) := by
      unfold Fetch.step
      rw [h]
    show Fetch.steps sizes log n (f.step sizes log session) = _
    rw [hstep, ih]

/-- From one state of a call to a later one, with nobody else around. -/
def Leads (sizes : Sizes) (log : GitLog δ) (x y : Option (Session δ) × Fetch δ) : Prop :=
  ∃ n, Fetch.steps sizes log n x = y

theorem Leads.refl (x : Option (Session δ) × Fetch δ) : Leads sizes log x x := ⟨0, rfl⟩

theorem Leads.trans {x y z : Option (Session δ) × Fetch δ} (h : Leads sizes log x y) (h' : Leads sizes log y z) :
    Leads sizes log x z := by
  obtain ⟨m, rfl⟩ := h
  obtain ⟨n, rfl⟩ := h'
  exact ⟨m + n, steps_add m n x⟩

theorem Leads.step {x y : Option (Session δ) × Fetch δ} (h : Leads sizes log (x.2.step sizes log x.1) y) :
    Leads sizes log x y := by
  obtain ⟨n, rfl⟩ := h
  exact ⟨n + 1, rfl⟩

/-- The buffers that still wait for a batch. -/
def Awaited (s : Session δ) (refills : List Refill) : Prop :=
  (refills.map Refill.memberId).Nodup ∧
    (∀ r ∈ refills, ∃ b ∈ s.members, r = ⟨b.memberId, b.workDir, b.produced⟩) ∧
    ∀ b ∈ s.members, b.Ready ∨ b.memberId ∈ refills.map Refill.memberId

/-- **All refills arrive.** The induction is on the refills. -/
theorem Serves.refilled : ∀ (refills : List Refill) {s : Session δ} {f : Fetch δ},
    Serves log plan s out → Awaited s refills → f.plan = plan → f.stage = .refilling refills →
    ∃ s', Leads sizes log (some s, f) (some s', { f with stage := .pop }) ∧ Serves log plan s' out ∧
      ∀ b ∈ s'.members, b.Ready
  | [], s, f, h, hw, _, hf => by
      refine ⟨s, Leads.step ?_, h, fun b hb => (hw.2.2 b hb).resolve_right (by simp)⟩
      unfold Fetch.step
      rw [hf]
      exact Leads.refl _
  | r :: refills, s, f, h, ⟨hnd, hasked, hready⟩, hplan, hf => by
      rw [map_cons, nodup_cons] at hnd
      obtain ⟨b, hb, rfl⟩ := hasked _ (mem_cons_self ..)
      obtain ⟨hserves, hmembers⟩ := h.refill hb
      have hstep : f.step sizes log (some s) = (some (s.refill sizes log plan ⟨b.memberId, b.workDir, b.produced⟩),
          { f with stage := .refilling refills }) := by
        unfold Fetch.step
        rw [hf, hplan]
      have hw' : Awaited (s.refill sizes log plan ⟨b.memberId, b.workDir, b.produced⟩) refills := by
        refine ⟨hnd.2, fun r hr => ?_, fun x hx => ?_⟩
        · -- the other buffers are as they were
          obtain ⟨x, hx, rfl⟩ := hasked r (mem_cons_of_mem _ hr)
          have hne : x.memberId ≠ b.memberId := by
            intro heq
            refine hnd.1 ?_
            rw [← heq]
            exact List.mem_map.mpr ⟨_, hr, rfl⟩
          refine ⟨x, ?_, rfl⟩
          rw [show (s.refill sizes log plan ⟨b.memberId, b.workDir, b.produced⟩).members = _ from
            extendMember_eq h.nodup]
          exact List.mem_map.mpr ⟨x, hx, if_neg hne⟩
        · rcases hmembers x hx with ⟨hr, -⟩ | ⟨hin, hne⟩
          · exact .inl hr
          · refine (hready x hin).imp id (fun hin => ?_)
            exact (List.mem_cons.mp hin).resolve_left hne
      obtain ⟨s', hleads, hs', hall⟩ := Serves.refilled refills
        (f := { f with stage := .refilling refills }) hserves hw' hplan rfl
      refine ⟨s', Leads.step ?_, hs', hall⟩
      rw [hstep]
      exact hleads

theorem Serves.readied (h : Serves log plan s out) {f : Fetch δ} (hplan : f.plan = plan)
    (hf : f.stage = .top) :
    ∃ s', Leads sizes log (some s, f) (some s', { f with stage := .pop }) ∧ Serves log plan s' out ∧
      ∀ b ∈ s'.members, b.Ready := by
  have hready : ∀ b ∈ s.members, b.Ready ∨ b.memberId ∈ (s.refills sizes).map Refill.memberId := by
    intro b hb
    by_cases hshort : (!b.exhausted && decide (b.pending.length < sizes.refillThreshold)) = true
    · refine .inr ?_
      unfold Session.refills
      rw [List.map_map]
      exact List.mem_map.mpr ⟨b, List.mem_filter.mpr ⟨hb, hshort⟩, rfl⟩
    · refine .inl ?_
      rw [Bool.and_eq_true, Bool.not_eq_true', decide_eq_true_iff, not_and_or] at hshort
      rcases hshort with hex | hlong
      · exact .inr (Bool.of_not_eq_false hex)
      · refine .inl (fun hnil => hlong ?_)
        rw [hnil]
        exact sizes.refillThreshold_pos
  cases hrefills : s.refills sizes with
  | nil =>
    refine ⟨s, Leads.step ?_, h, fun b hb => (hready b hb).resolve_right (by simp [hrefills])⟩
    unfold Fetch.step
    rw [hf]
    dsimp only
    rw [hrefills]
    exact Leads.refl _
  | cons r refills =>
    rw [hrefills] at hready
    have hw : Awaited s (r :: refills) := by
      refine ⟨?_, fun r' hr => ?_, hready⟩
      · rw [← hrefills, Session.refills, List.map_map]
        exact Nodup.sublist (List.filter_sublist.map _) h.nodup
      · rw [← hrefills, Session.refills] at hr
        obtain ⟨b, hb, rfl⟩ := List.mem_map.mp hr
        exact ⟨b, (List.mem_filter.mp hb).1, rfl⟩
    obtain ⟨s', hleads, hs', hall⟩ := Serves.refilled (r :: refills)
      (f := { f with stage := .refilling (r :: refills) }) h hw hplan rfl
    refine ⟨s', Leads.step ?_, hs', hall⟩
    have hstep : f.step sizes log (some s) = (some s, { f with stage := .refilling (r :: refills) }) := by
      unfold Fetch.step
      rw [hf]
      dsimp only
      rw [hrefills]
    rw [hstep]
    exact hleads

variable {M : List (AggregatedCommit δ)}

theorem Serves.eq_take (h : Serves log plan s out) (hM : Merged Before (plan.histories log) M) :
    out = M.take out.length := by
  obtain ⟨rest, rfl, -⟩ := hM.split Before.asymm h.taken
  rw [take_left' rfl]

/-- **The loop of `produce_range`** goes on up to the end of the range, the cap, or the end of
the merge. The induction is on how many commits may still be taken. -/
theorem Serves.loop (hM : Merged Before (plan.histories log) M) :
    ∀ (n : Nat) {s : Session δ} {f : Fetch δ} {out : List (AggregatedCommit δ)},
      Serves log plan s out → f.plan = plan → f.stage = .top → f.output = out.drop f.start →
      out.length + n = min plan.cap f.stop →
      ∃ s' f', Leads sizes log (some s, f) (some s', f') ∧ f'.stage = .finished ∧
        Serves log plan s' (M.take (min plan.cap f.stop)) ∧
        f'.output = (M.take (min plan.cap f.stop)).drop f.start
  | n, s, f, out, h, hplan, hf, hout, hn => by
      obtain ⟨s₁, hleads, h₁, hready⟩ := h.readied hplan hf
      have hemit : s₁.totalEmitted = out.length := h₁.emitted
      have hcap : s₁.cap = plan.cap := h₁.cap
      -- what the step in front of us does
      have hstep : ({ f with stage := .pop } : Fetch δ).step sizes log (some s₁) =
          (some (({ f with stage := .pop } : Fetch δ).popStep s₁).1,
            (({ f with stage := .pop } : Fetch δ).popStep s₁).2) := rfl
      cases n with
      | zero =>
        have hend : ({ f with stage := .pop } : Fetch δ).popStep s₁ =
            (s₁, { f with stage := .finished }) := by
          unfold Fetch.popStep
          split
          · rfl
          · rw [if_pos (show s₁.totalEmitted ≥ f.stop by omega)]
        refine ⟨s₁, { f with stage := .finished }, hleads.trans (Leads.step ?_), rfl, ?_, ?_⟩
        · rw [hstep, hend]
          exact Leads.refl _
        · rw [← hn, add_zero, ← h₁.eq_take hM]
          exact h₁
        · rw [← hn, add_zero, ← h₁.eq_take hM]
          exact hout
      | succ n =>
        have hnot : ¬ s₁.totalEmitted ≥ s₁.cap ∧ ¬ s₁.totalEmitted ≥ f.stop := by omega
        rcases h₁.pickNext hready with ⟨c, members, hpick, h₂⟩ | ⟨hpick, hleft⟩
        · obtain ⟨f₂, hf₂⟩ : ∃ x, x = (({ f with stage := .pop } : Fetch δ).popStep s₁).2 := ⟨_, rfl⟩
          have hpop : ({ f with stage := .pop } : Fetch δ).popStep s₁ =
              ({ s₁ with members := members, totalEmitted := s₁.totalEmitted + 1 }, f₂) := by
            rw [hf₂]
            unfold Fetch.popStep
            rw [if_neg hnot.1, if_neg hnot.2, hpick]
          have hsame : f₂.plan = plan ∧ f₂.stage = .top ∧ f₂.start = f.start ∧ f₂.stop = f.stop ∧
              f₂.output = (out ++ [c]).drop f.start := by
            rw [hf₂]
            unfold Fetch.popStep
            rw [if_neg hnot.1, if_neg hnot.2, hpick]
            dsimp only
            by_cases hin : f.start ≤ out.length
            · rw [if_pos (by omega), drop_append_of_le_length hin, ← hout]
              exact ⟨hplan, rfl, rfl, rfl, rfl⟩
            · rw [if_neg (by omega), drop_of_length_le (by simp; omega)]
              refine ⟨hplan, rfl, rfl, rfl, ?_⟩
              rw [hout, drop_of_length_le (by omega)]
          obtain ⟨hp₂, hst₂, hs₂, he₂, ho₂⟩ := hsame
          obtain ⟨s', f', hleads', hfin, hserves, houtput⟩ := Serves.loop hM n h₂ hp₂ hst₂
            (by rw [hs₂]; exact ho₂) (by rw [he₂, length_append, length_singleton]; omega)
          rw [he₂] at hserves houtput
          rw [hs₂] at houtput
          refine ⟨s', f', hleads.trans (Leads.step ?_), hfin, hserves, houtput⟩
          rw [hstep, hpop]
          exact hleads'
        · have hend : ({ f with stage := .pop } : Fetch δ).popStep s₁ =
              (s₁, { f with stage := .finished }) := by
            unfold Fetch.popStep
            rw [if_neg hnot.1, if_neg hnot.2, hpick]
          -- nothing is left: this is the whole merge
          have hall : M.take (min plan.cap f.stop) = out := by
            have hmerged : Merged Before (plan.histories log) out := by
              have := h₁.taken
              rw [hleft] at this
              exact this
            rw [hM.unique Before.asymm hmerged, take_of_length_le (by omega)]
          refine ⟨s₁, { f with stage := .finished }, hleads.trans (Leads.step ?_), rfl, ?_, ?_⟩
          · rw [hstep, hend]
            exact Leads.refl _
          · rw [hall]
            exact h₁
          · rw [hall]
            exact hout

/-! ## Pages -/

/-- A session that has served everything before a place, or a call that will make its own. -/
def Continues (log : GitLog δ) (plan : SessionPlan) (M : List (AggregatedCommit δ))
    (session : Option (Session δ)) (start : Nat) : Prop :=
  start = 0 ∨ ∃ s, session = some s ∧ Serves log plan s (M.take (min plan.cap start))

theorem produceRange_spec (hM : Merged Before (plan.histories log) M) {session : Option (Session δ)}
    {start : Nat} (n : Nat) (h : Continues log plan M session start) :
    ∃ s', (∃ fuel₀, ∀ fuel ≥ fuel₀, produceRange sizes log fuel session plan start (start + n) =
      some (some s', (M.take (min plan.cap (start + n))).drop start)) ∧
      Continues log plan M (some s') (start + n) := by
  obtain ⟨f, hf⟩ : ∃ f : Fetch δ, f = .new plan start (start + n) := ⟨_, rfl⟩
  -- the loop starts with a session that has served everything before the range
  have htop : ∃ s out, Leads sizes log (session, f) (some s, { f with stage := .top }) ∧
      Serves log plan s out ∧ out.length ≤ start ∧ out.length ≤ plan.cap := by
    cases hinit : needInit session plan start with
    | true =>
      refine ⟨plan.session sizes log, [], Leads.step ?_, serves_session sizes log plan, Nat.zero_le _,
        Nat.zero_le _⟩
      have h1 : f.step sizes log session = (session, { f with stage := .initializing }) := by
        rw [hf]
        show (if needInit session plan start then _ else _) = _
        rw [hinit]
        rfl
      rw [h1]
      refine Leads.step ?_
      rw [hf]
      exact Leads.refl _
    | false =>
      rcases h with h0 | ⟨s, rfl, hserves⟩
      · rw [h0] at hinit
        cases session <;> simp [needInit] at hinit
      · refine ⟨s, _, Leads.step ?_, hserves, ?_, ?_⟩
        · have h1 : f.step sizes log (some s) = (some s, { f with stage := .top }) := by
            rw [hf]
            show (if needInit (some s) plan start then _ else _) = _
            rw [hinit]
            rfl
          rw [h1]
          exact Leads.refl _
        · rw [length_take]
          omega
        · rw [length_take]
          omega
  obtain ⟨s, out, hleads, hserves, hle, hcap⟩ := htop
  have hfields : f.plan = plan ∧ f.start = start ∧ f.stop = start + n ∧ f.output = [] := by
    rw [hf]
    exact ⟨rfl, rfl, rfl, rfl⟩
  obtain ⟨hfp, hfs, hfe, hfo⟩ := hfields
  obtain ⟨s', f', hleads', hfin, hserves', houtput⟩ := Serves.loop (f := { f with stage := .top }) hM
    (min plan.cap (start + n) - out.length) hserves hfp rfl
    (by dsimp only; rw [hfo, hfs, drop_of_length_le hle]) (by dsimp only; rw [hfe]; omega)
  rw [hfe] at hserves' houtput
  rw [hfs] at houtput
  obtain ⟨k, hk⟩ := hleads.trans hleads'
  refine ⟨s', ⟨k, fun fuel hfuel => ?_⟩, .inr ⟨s', rfl, hserves'⟩⟩
  have hrun : Fetch.steps sizes log fuel (session, .new plan start (start + n)) = (some s', f') := by
    rw [← hf, show fuel = k + (fuel - k) by omega, steps_add, hk, steps_finished hfin]
  unfold produceRange
  rw [hrun]
  rw [if_pos hfin, houtput]

theorem take_append_drop_take {α : Type} (l : List α) (cap a b : Nat) (h : a ≤ b) :
    l.take (min cap a) ++ (l.take (min cap b)).drop a = l.take (min cap b) := by
  by_cases hc : cap ≤ a
  · rw [min_eq_left hc, min_eq_left (by omega),
      drop_of_length_le (by rw [length_take]; omega), append_nil]
  · have hmin : l.take (min cap a) = (l.take (min cap b)).take a := by
      rw [take_take, min_eq_right (by omega), min_eq_left (by omega)]
    rw [hmin, take_append_drop]

theorem fetchPages_spec (hM : Merged Before (plan.histories log) M) :
    ∀ (lengths : List Nat) {session : Option (Session δ)} {start : Nat},
      Continues log plan M session start →
      ∃ fuel₀, ∀ fuel ≥ fuel₀, ∃ session' pages,
        fetchPages sizes log fuel plan session start lengths = some (session', pages) ∧
        M.take (min plan.cap start) ++ pages.flatten = M.take (min plan.cap (start + lengths.sum))
  | [], session, start, _ => ⟨0, fun _ _ => ⟨session, [], rfl, by simp⟩⟩
  | n :: lengths, session, start, h => by
      obtain ⟨s', ⟨fuel₁, hpage⟩, hcont⟩ := produceRange_spec hM n h
      obtain ⟨fuel₂, hpages⟩ := fetchPages_spec hM lengths hcont
      refine ⟨max fuel₁ fuel₂, fun fuel hfuel => ?_⟩
      obtain ⟨session', pages, hrest, hflat⟩ := hpages fuel (by omega)
      refine ⟨session', (M.take (min plan.cap (start + n))).drop start :: pages, ?_, ?_⟩
      · unfold fetchPages
        rw [hpage fuel (by omega)]
        dsimp only
        rw [hrest]
        rfl
      · rw [flatten_cons, ← append_assoc,
          take_append_drop_take M plan.cap start (start + n) (by omega), hflat, sum_cons,
          add_assoc]

theorem exists_merged_histories (log : GitLog δ) (plan : SessionPlan) :
    ∃ M, Merged Before (plan.histories log) M := by
  have howner : ∀ m, ∀ c ∈ plan.histories log m, c.memberId = m := by
    intro m c hc
    unfold SessionPlan.histories at hc
    split at hc
    · exact memberId_history hc
    · exact absurd hc (not_mem_nil)
  refine exists_merged (fun _ _ _ h h' => h.trans h') plan.nodup _ (fun m hm => ?_)
    (fun i j hij a ha b hb => Before.total ?_) rfl
  · have hnone : plan.eligible.lookup m = none := by
      rw [lookup_eq_none_iff]
      intro x hx
      rw [bne_iff_ne]
      exact fun heq => hm (List.mem_map.mpr ⟨x, hx, heq.symm⟩)
    unfold SessionPlan.histories
    rw [hnone]
  · rw [howner i a ha, howner j b hb]
    exact hij

/-- **Pages are exact**: calls one after another for consecutive ranges return the beginning of
the merge of the members' histories, up to the cap; whatever session was there before, and
with every member's history in the merge as it is. -/
theorem log_pages_exact (sizes : Sizes) (log : GitLog δ) (plan : SessionPlan) (session : Option (Session δ))
    (lengths : List Nat) :
    ∃ M, Merged Before (plan.histories log) M ∧ (∀ M', Merged Before (plan.histories log) M' → M' = M) ∧
      (∀ m, M.filter (fun c => c.memberId = m) = plan.histories log m) ∧
      ∃ fuel₀, ∀ fuel ≥ fuel₀, ∃ session' pages,
        fetchPages sizes log fuel plan session 0 lengths = some (session', pages) ∧
        pages.flatten = M.take (min plan.cap lengths.sum) := by
  obtain ⟨M, hM⟩ := exists_merged_histories log plan
  refine ⟨M, hM, fun M' hM' => hM'.unique Before.asymm hM, fun m => ?_, ?_⟩
  · refine hM.filter_owner (fun i c hc => ?_) m
    unfold SessionPlan.histories at hc
    split at hc
    · exact memberId_history hc
    · exact absurd hc (not_mem_nil)
  · have hstart : Continues log plan M session 0 := .inl rfl
    obtain ⟨fuel₀, h⟩ := fetchPages_spec hM lengths hstart
    refine ⟨fuel₀, fun fuel hfuel => ?_⟩
    obtain ⟨session', pages, heq, hflat⟩ := h fuel hfuel
    refine ⟨session', pages, heq, ?_⟩
    simpa using hflat

end

end SpkEditor.Aggregator
