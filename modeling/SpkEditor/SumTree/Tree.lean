import Mathlib.Algebra.Order.Ring.Nat
import Mathlib.Data.List.Basic

/-!
# Trees with summaries

A B+ tree whose leaves hold items and whose nodes hold a summary of what is below them.
Every node keeps the summaries of its children beside the children. Nodes are arrays of a
fixed capacity: whatever does not fit into one is a panic, and `none` here. The first
child and the last one are taken without a check where the source unwraps them.

Trees are shared in the source and copied on write, so that a tree that is changed in
place is a new tree here.
-/

namespace SpkEditor

def TREE_BASE : Nat := 6

/-- `Summary`, for one context. -/
class Summary (S : Type) where
  zero : S
  addSummary : S → S → S

/-- `Item`: what its summary is. -/
class Item (T : Type) (S : outParam Type) where
  summary : T → S

inductive Bias where
  | left
  | right
  deriving DecidableEq

inductive SumTree (T S : Type) where
  | internal (height : Nat) (summary : S) (childSummaries : List S) (childTrees : List (SumTree T S))
  | leaf (summary : S) (items : List T) (itemSummaries : List S)

/-- An array of the capacity that nodes have. -/
def fits {α : Type} (l : List α) : Option (List α) := if l.length ≤ 2 * TREE_BASE then some l else none

/-- `*l.last_mut().unwrap() = a`. -/
def setLast {α : Type} (l : List α) (a : α) : Option (List α) :=
  if l.isEmpty then none else some (l.dropLast ++ [a])

variable {T S : Type} [Summary S] [Item T S]

/-- `sum`. -/
def sum (l : List S) : S := l.foldl Summary.addSummary Summary.zero

namespace SumTree

def isLeaf : SumTree T S → Bool
  | internal .. => false
  | leaf .. => true

def height : SumTree T S → Nat
  | internal height .. => height
  | leaf .. => 0

def summary : SumTree T S → S
  | internal _ summary _ _ => summary
  | leaf summary _ _ => summary

def childSummaries : SumTree T S → List S
  | internal _ _ childSummaries _ => childSummaries
  | leaf _ _ itemSummaries => itemSummaries

def childTrees : SumTree T S → Option (List (SumTree T S))
  | internal _ _ _ childTrees => some childTrees
  | leaf .. => none

/-- `Node::items`. -/
def leafItems : SumTree T S → Option (List T)
  | internal .. => none
  | leaf _ items _ => some items

def isUnderflowing : SumTree T S → Bool
  | internal _ _ _ childTrees => childTrees.length < TREE_BASE
  | leaf _ items _ => items.length < TREE_BASE

def isEmpty : SumTree T S → Bool
  | internal .. => false
  | leaf _ items _ => items.isEmpty

/-- `SumTree::new`. -/
def new : SumTree T S := leaf Summary.zero [] []

/-! ## Appending -/

/-- `from_child_trees`. -/
def fromChildTrees (left right : SumTree T S) : SumTree T S :=
  internal (left.height + 1) (sum [left.summary, right.summary]) [left.summary, right.summary] [left, right]

/-- The end of `push_tree_recursive` on an internal node: the children to append go in, or the
node is split in the middle. -/
def appendChildren (height : Nat) (summary : S) (childSummaries : List S) (childTrees : List (SumTree T S))
    (summariesToAppend : List S) (treesToAppend : List (SumTree T S)) :
    Option (SumTree T S × Option (SumTree T S)) := do
  let summariesToAppend ← fits summariesToAppend
  let treesToAppend ← fits treesToAppend
  let childCount := childTrees.length + treesToAppend.length
  if 2 * TREE_BASE < childCount then
    let midpoint := (childCount + childCount % 2) / 2
    let leftSummaries ← fits ((childSummaries ++ summariesToAppend).take midpoint)
    let rightSummaries ← fits ((childSummaries ++ summariesToAppend).drop midpoint)
    let leftTrees ← fits ((childTrees ++ treesToAppend).take midpoint)
    let rightTrees ← fits ((childTrees ++ treesToAppend).drop midpoint)
    pure (internal height (sum leftSummaries) leftSummaries leftTrees,
      some (internal height (sum rightSummaries) rightSummaries rightTrees))
  else
    let childSummaries ← fits (childSummaries ++ summariesToAppend)
    let childTrees ← fits (childTrees ++ treesToAppend)
    pure (internal height summary childSummaries childTrees, none)

/-- `push_tree_recursive` on a leaf. -/
def appendItems (summary : S) (items : List T) (itemSummaries : List S) (other : SumTree T S) :
    Option (SumTree T S × Option (SumTree T S)) := do
  let otherItems ← other.leafItems
  let childCount := items.length + otherItems.length
  if 2 * TREE_BASE < childCount then
    let midpoint := (childCount + childCount % 2) / 2
    let leftItems ← fits ((items ++ otherItems).take midpoint)
    let rightItems ← fits ((items ++ otherItems).drop midpoint)
    let leftSummaries ← fits ((itemSummaries ++ other.childSummaries).take midpoint)
    let rightSummaries ← fits ((itemSummaries ++ other.childSummaries).drop midpoint)
    pure (leaf (sum leftSummaries) leftItems leftSummaries,
      some (leaf (sum rightSummaries) rightItems rightSummaries))
  else
    let items ← fits (items ++ otherItems)
    let itemSummaries ← fits (itemSummaries ++ other.childSummaries)
    pure (leaf (Summary.addSummary summary other.summary) items itemSummaries, none)

/-- `push_tree_recursive`: the tree with another one appended, and what was split off it. -/
def pushTreeRecursive (self other : SumTree T S) : Option (SumTree T S × Option (SumTree T S)) :=
  match self with
  | leaf summary items itemSummaries => appendItems summary items itemSummaries other
  | internal height summary childSummaries childTrees =>
    if height < other.height then none
    else if height - other.height = 0 then
      other.childTrees.bind fun trees =>
        appendChildren height (Summary.addSummary summary other.summary) childSummaries childTrees
          other.childSummaries trees
    else if height - other.height = 1 ∧ ¬ other.isUnderflowing then
      appendChildren height (Summary.addSummary summary other.summary) childSummaries childTrees
        [other.summary] [other]
    else
      match _h : childTrees.getLast? with
      | none => none
      | some last =>
        (pushTreeRecursive last other).bind fun r =>
          (setLast childSummaries r.1.summary).bind fun childSummaries =>
            (setLast childTrees r.1).bind fun childTrees =>
              appendChildren height (Summary.addSummary summary other.summary) childSummaries childTrees
                (r.2.toList.map SumTree.summary) r.2.toList
termination_by sizeOf self
decreasing_by
  have := List.sizeOf_lt_of_mem (List.mem_of_getLast? _h)
  simp only [internal.sizeOf_spec]
  omega

/-- `merge_into_right`: what does not fit is returned, and comes first. -/
def mergeIntoRight (small large : SumTree T S) : Option (Option (SumTree T S) × SumTree T S) :=
  match small, large with
  | internal _ smallSummary smallChildSummaries smallChildTrees, internal height summary childSummaries childTrees =>
    let totalChildCount := childTrees.length + smallChildTrees.length
    if totalChildCount ≤ 2 * TREE_BASE then do
      let allTrees ← fits (smallChildTrees ++ childTrees)
      let allSummaries ← fits (smallChildSummaries ++ childSummaries)
      pure (none, internal height (Summary.addSummary smallSummary summary) allSummaries allTrees)
    else do
      let midpoint := (totalChildCount + 1) / 2
      let leftTrees ← fits ((smallChildTrees ++ childTrees).take midpoint)
      let rightTrees ← fits ((smallChildTrees ++ childTrees).drop midpoint)
      let leftSummaries ← fits ((smallChildSummaries ++ childSummaries).take midpoint)
      let rightSummaries ← fits ((smallChildSummaries ++ childSummaries).drop midpoint)
      pure (some (internal height (sum leftSummaries) leftSummaries leftTrees),
        internal height (sum rightSummaries) rightSummaries rightTrees)
  | leaf smallSummary smallItems smallItemSummaries, leaf summary items itemSummaries =>
    let totalChildCount := smallItems.length + items.length
    if totalChildCount ≤ 2 * TREE_BASE then do
      let allItems ← fits (smallItems ++ items)
      let allSummaries ← fits (smallItemSummaries ++ itemSummaries)
      pure (none, leaf (Summary.addSummary smallSummary summary) allItems allSummaries)
    else do
      let midpoint := (totalChildCount + 1) / 2
      let leftItems ← fits ((smallItems ++ items).take midpoint)
      let rightItems ← fits ((smallItems ++ items).drop midpoint)
      let leftSummaries ← fits ((smallItemSummaries ++ itemSummaries).take midpoint)
      let rightSummaries ← fits ((smallItemSummaries ++ itemSummaries).drop midpoint)
      pure (some (leaf (sum leftSummaries) leftItems leftSummaries),
        leaf (sum rightSummaries) rightItems rightSummaries)
  | _, _ => none

/-- What `append_large` does with a tree that came back from the first child: it goes in
front, or the front half of the node is split off. -/
def prependChild (height : Nat) (summary : S) (childSummaries : List S) (childTrees : List (SumTree T S))
    (tree : SumTree T S) : Option (Option (SumTree T S) × SumTree T S) := do
  if childTrees.length < 2 * TREE_BASE then
    let childSummaries ← fits (tree.summary :: childSummaries)
    let childTrees ← fits (tree :: childTrees)
    pure (none, internal height summary childSummaries childTrees)
  else
    let newChildSummaries ← fits (tree.summary :: childSummaries.take TREE_BASE)
    let newChildTrees ← fits (tree :: childTrees.take TREE_BASE)
    let childSummaries := childSummaries.drop TREE_BASE
    pure (some (internal height (sum newChildSummaries) newChildSummaries newChildTrees),
      internal height (sum childSummaries) childSummaries (childTrees.drop TREE_BASE))

/-- `append_large`: what is left over in front of the larger tree, and the larger tree. -/
def appendLarge (small : SumTree T S) (large : SumTree T S) : Option (Option (SumTree T S) × SumTree T S) :=
  if small.height = large.height then
    if ¬ small.isUnderflowing then some (some small, large) else mergeIntoRight small large
  else
    match large with
    | leaf .. => none
    | internal height summary childSummaries childTrees =>
      match childTrees with
      | [] => none
      | first :: rest =>
        match appendLarge small first, childSummaries with
        | none, _ => none
        | some _, [] => none
        | some (none, first), _ :: restSummaries =>
          some (none, internal height (Summary.addSummary small.summary summary)
            (first.summary :: restSummaries) (first :: rest))
        | some (some tree, first), _ :: restSummaries =>
          prependChild height (Summary.addSummary small.summary summary)
            (first.summary :: restSummaries) (first :: rest) tree
termination_by sizeOf large
decreasing_by
  simp only [internal.sizeOf_spec, List.cons.sizeOf_spec]
  omega

/-- `append`. -/
def append (self other : SumTree T S) : Option (SumTree T S) :=
  if self.isEmpty then some other
  else if ¬ other.isEmpty then
    if self.height < other.height then
      (appendLarge self other).map fun r =>
        match r.1 with
        | some tree => fromChildTrees tree r.2
        | none => r.2
    else
      (pushTreeRecursive self other).map fun r =>
        match r.2 with
        | some splitTree => fromChildTrees r.1 splitTree
        | none => r.1
  else some self

/-- `push`. -/
def push (self : SumTree T S) (item : T) : Option (SumTree T S) :=
  self.append (leaf (Item.summary item) [item] [Item.summary item])

/-! ## Building -/

/-- The summary of a node that is built at once: the first one, and the others added to it. -/
def sumFromFirst : List S → Option S
  | [] => none
  | s :: rest => some (rest.foldl Summary.addSummary s)

/-- `chunks`: `n` at a time. -/
def chunks {α : Type} (n : Nat) (l : List α) : List (List α) :=
  if _h : l = [] ∨ n = 0 then [] else l.take n :: chunks n (l.drop n)
termination_by l.length
decreasing_by
  rw [List.length_drop]
  have : l.length ≠ 0 := fun h0 => _h (Or.inl (List.length_eq_zero_iff.1 h0))
  have : n ≠ 0 := fun h0 => _h (Or.inr h0)
  omega

def leafOf (items : List T) : Option (SumTree T S) := do
  let items ← fits items
  let itemSummaries ← fits (items.map Item.summary)
  let summary ← sumFromFirst itemSummaries
  pure (leaf summary items itemSummaries)

def addToParent (height : Nat) (st : List (SumTree T S) × Option (SumTree T S)) (child : SumTree T S) :
    Option (List (SumTree T S) × Option (SumTree T S)) :=
  match st.2.getD (internal height Summary.zero [] []) with
  | leaf .. => none
  | internal height summary childSummaries childTrees => do
      let childSummaries ← fits (childSummaries ++ [child.summary])
      let childTrees ← fits (childTrees ++ [child])
      let parent := internal height (Summary.addSummary summary child.summary) childSummaries childTrees
      if childTrees.length = 2 * TREE_BASE then pure (st.1 ++ [parent], none)
      else pure (st.1, some parent)

/-- The parents of a level in `from_iter`. -/
def parentsOf (height : Nat) (nodes : List (SumTree T S)) : Option (List (SumTree T S)) := do
  let st ← nodes.foldlM (addToParent height) ([], none)
  pure (st.1 ++ st.2.toList)

/-- A node that is built at once over its children. -/
def internalOf (height : Nat) (childTrees : List (SumTree T S)) : Option (SumTree T S) := do
  let childTrees ← fits childTrees
  let childSummaries ← fits (childTrees.map SumTree.summary)
  let summary ← sumFromFirst childSummaries
  pure (internal height summary childSummaries childTrees)

/-- The parents of a level in `from_par_iter`. -/
def parParentsOf (height : Nat) (nodes : List (SumTree T S)) : Option (List (SumTree T S)) :=
  (chunks (2 * TREE_BASE) nodes).mapM (internalOf height)

/-- The levels above the leaves: as long as there is more than one node, they get parents. -/
def buildUp (parents : Nat → List (SumTree T S) → Option (List (SumTree T S))) :
    Nat → Nat → List (SumTree T S) → Option (List (SumTree T S))
  | 0, _, nodes => if 1 < nodes.length then none else some nodes
  | fuel + 1, height, nodes =>
    if 1 < nodes.length then
      (parents (height + 1) nodes).bind fun nodes => buildUp parents fuel (height + 1) nodes
    else some nodes

/-- A tree over leaves. Every level has fewer nodes than the one below. -/
def fromLeaves (parents : Nat → List (SumTree T S) → Option (List (SumTree T S)))
    (leaves : List (SumTree T S)) : Option (SumTree T S) :=
  (buildUp parents leaves.length 0 leaves).bind fun nodes =>
    match nodes with
    | [] => some new
    | [node] => some node
    | _ => none

/-- `from_iter`. -/
def fromIter (items : List T) : Option (SumTree T S) := do
  let leaves ← (chunks (2 * TREE_BASE) items).mapM leafOf
  fromLeaves parentsOf leaves

/-- `from_par_iter`. -/
def fromParIter (items : List T) : Option (SumTree T S) := do
  let leaves ← (chunks (2 * TREE_BASE) items).mapM leafOf
  fromLeaves parParentsOf leaves

/-- `extend`. -/
def extend (self : SumTree T S) (items : List T) : Option (SumTree T S) := do
  let other ← fromIter items
  self.append other

/-- `par_extend`. -/
def parExtend (self : SumTree T S) (items : List T) : Option (SumTree T S) := do
  let other ← fromParIter items
  self.append other

/-! ## Both ends -/

/-- `leftmost_leaf`. -/
def leftmostLeaf (self : SumTree T S) : Option (SumTree T S) :=
  match self with
  | leaf summary items itemSummaries => some (leaf summary items itemSummaries)
  | internal _ _ _ childTrees =>
    match childTrees with
    | [] => none
    | first :: _ => leftmostLeaf first
termination_by sizeOf self
decreasing_by
  simp only [internal.sizeOf_spec, List.cons.sizeOf_spec]
  omega

/-- `rightmost_leaf`. -/
def rightmostLeaf (self : SumTree T S) : Option (SumTree T S) :=
  match self with
  | leaf summary items itemSummaries => some (leaf summary items itemSummaries)
  | internal _ _ _ childTrees =>
    match _h : childTrees.getLast? with
    | none => none
    | some last => rightmostLeaf last
termination_by sizeOf self
decreasing_by
  have := List.sizeOf_lt_of_mem (List.mem_of_getLast? _h)
  simp only [internal.sizeOf_spec]
  omega

/-- `first`. -/
def first (self : SumTree T S) : Option (Option T) := do
  let leaf ← self.leftmostLeaf
  let items ← leaf.leafItems
  pure items.head?

/-- `last`. -/
def last (self : SumTree T S) : Option (Option T) := do
  let leaf ← self.rightmostLeaf
  let items ← leaf.leafItems
  pure items.getLast?

/-- `update_last_recursive`: the tree with its last item changed, and its new summary. -/
def updateLastRecursive (self : SumTree T S) (f : T → T) : Option (SumTree T S × Option S) :=
  match self with
  | leaf summary items itemSummaries =>
    match items.getLast?, itemSummaries.getLast? with
    | some item, some _ =>
      (setLast items (f item)).bind fun items =>
        (setLast itemSummaries (Item.summary (f item))).map fun itemSummaries =>
          (leaf (sum itemSummaries) items itemSummaries, some (sum itemSummaries))
    | _, _ => some (leaf summary items itemSummaries, none)
  | internal height _ childSummaries childTrees =>
    match _h : childTrees.getLast? with
    | none => none
    | some last =>
      (updateLastRecursive last f).bind fun r =>
        r.2.bind fun lastSummary =>
          (setLast childSummaries lastSummary).bind fun childSummaries =>
            (setLast childTrees r.1).map fun childTrees =>
              (internal height (sum childSummaries) childSummaries childTrees, some (sum childSummaries))
termination_by sizeOf self
decreasing_by
  have := List.sizeOf_lt_of_mem (List.mem_of_getLast? _h)
  simp only [internal.sizeOf_spec]
  omega

/-- `update_last`. -/
def updateLast (self : SumTree T S) (f : T → T) : Option (SumTree T S) :=
  (self.updateLastRecursive f).map Prod.fst

def updateFirstRecursive (self : SumTree T S) (f : T → T) : Option (SumTree T S × Option S) :=
  match self with
  | leaf summary items itemSummaries =>
    match items, itemSummaries with
    | item :: items, _ :: itemSummaries =>
      let itemSummaries := Item.summary (f item) :: itemSummaries
      some (leaf (sum itemSummaries) (f item :: items) itemSummaries, some (sum itemSummaries))
    | items, itemSummaries => some (leaf summary items itemSummaries, none)
  | internal height _ childSummaries childTrees =>
    match childTrees with
    | [] => none
    | first :: rest =>
      match updateFirstRecursive first f, childSummaries with
      | some (first, some firstSummary), _ :: restSummaries =>
        let childSummaries := firstSummary :: restSummaries
        some (internal height (sum childSummaries) childSummaries (first :: rest),
          some (sum childSummaries))
      | _, _ => none
termination_by sizeOf self
decreasing_by
  simp only [internal.sizeOf_spec, List.cons.sizeOf_spec]
  omega

/-- `update_first`. -/
def updateFirst (self : SumTree T S) (f : T → T) : Option (SumTree T S) :=
  (self.updateFirstRecursive f).map Prod.fst

end SumTree

end SpkEditor
