import SpkEditor.Lib.Loop
import SpkEditor.SumTree.Tree

/-!
# Cursors

A cursor stands at an item of a tree, and measures how far that is along one dimension of
the summaries. It keeps the way down to the item as a stack of nodes, each with the child
that the way goes through and the position of that child. The stack has room for sixteen
entries; one more is a panic, and `none` here, as everything else is that the source
asserts or unwraps.

Stacks are kept with the leaf first. Loops have fuel: no loop makes more than two turns
for each node and each item of the tree and two more (`forward_above`, `backward_above`,
`seek_up`).
-/

namespace SpkEditor

/-- `Dimension`, for one context. -/
class Dimension (D S : Type) where
  zero : D
  addSummary : D → S → D

structure StackEntry (T S D : Type) where
  tree : SumTree T S
  index : Nat
  position : D

structure TreeCursor (T S D : Type) where
  tree : SumTree T S
  stack : List (StackEntry T S D)
  position : D
  didSeek : Bool
  atEnd : Bool

/-- How many entries a stack has room for. -/
def STACK_CAPACITY : Nat := 16

/-- `SeekAggregate`: what is done with everything a seek passes over. -/
structure SeekAggregate (T S A : Type) where
  beginLeaf : A → A
  endLeaf : A → Option A
  pushItem : A → T → S → Option A
  pushTree : A → SumTree T S → S → Option A

namespace SumTree

def nodes {T S : Type} : SumTree T S → Nat
  | internal _ _ _ childTrees => nodesAll childTrees + 1
  | leaf _ items _ => items.length + 1
where
  nodesAll : List (SumTree T S) → Nat
    | [] => 0
    | t :: ts => nodes t + nodesAll ts

end SumTree

variable {T S D : Type} [Summary S] [Item T S] [Dimension D S]

/-- Whether a seek goes past something that ends where the target is compared to. -/
def passes (comparison : Ordering) (bias : Bias) : Bool :=
  comparison = .gt || (comparison = .eq && bias = .right)

namespace TreeCursor

/-- `Cursor::new`. -/
def new (tree : SumTree T S) : TreeCursor T S D := ⟨tree, [], Dimension.zero S, false, tree.isEmpty⟩

/-- `reset`. -/
def reset (c : TreeCursor T S D) : TreeCursor T S D :=
  { c with didSeek := false, atEnd := c.tree.isEmpty, stack := [], position := Dimension.zero S }

/-- `self.stack.push(..).unwrap_oob()`. -/
def pushEntry (c : TreeCursor T S D) (entry : StackEntry T S D) : Option (TreeCursor T S D) :=
  if c.stack.length < STACK_CAPACITY then some { c with stack := entry :: c.stack } else none

/-- How many turns a loop may make. -/
def fuel (c : TreeCursor T S D) : Nat := 2 * c.tree.nodes + 2

/-! ## Looking -/

/-- The element at an index, none at the end. -/
def getAt {α : Type} (l : List α) (index : Nat) : Option (Option α) :=
  if index = l.length then some none else (l[index]?).map some

/-- `item`. -/
def item (c : TreeCursor T S D) : Option (Option T) :=
  if ¬ c.didSeek then none
  else
    match c.stack with
    | [] => some none
    | entry :: _ => entry.tree.leafItems.bind fun items => getAt items entry.index

/-- `item_summary`. -/
def itemSummary (c : TreeCursor T S D) : Option (Option S) :=
  if ¬ c.didSeek then none
  else
    match c.stack with
    | [] => some none
    | entry :: _ =>
      match entry.tree with
      | .leaf _ _ itemSummaries => getAt itemSummaries entry.index
      | .internal .. => none

/-- `start`. -/
def start (c : TreeCursor T S D) : D := c.position

def behind (position : D) : Option S → D
  | some summary => Dimension.addSummary position summary
  | none => position

/-- `end`. -/
def «end» (c : TreeCursor T S D) : Option D := c.itemSummary.map (behind c.start)

/-- `next_leaf`: the first leaf of the next child, over the nodes above the leaf. -/
def nextLeaf : List (StackEntry T S D) → Option (Option (SumTree T S))
  | [] => some none
  | entry :: rest =>
    entry.tree.childTrees.bind fun childTrees =>
      if childTrees.length = 0 then none
      else if entry.index < childTrees.length - 1 then
        (childTrees[entry.index + 1]?).bind fun child => child.leftmostLeaf.map some
      else nextLeaf rest

/-- `next_item`. -/
def nextItem (c : TreeCursor T S D) : Option (Option T) :=
  if ¬ c.didSeek then none
  else
    match c.stack with
    | [] => if c.atEnd then some none else c.tree.first
    | entry :: rest =>
      entry.tree.leafItems.bind fun items =>
        if items.length = 0 then none
        else if entry.index = items.length - 1 then
          (nextLeaf rest).bind fun leaf =>
            match leaf with
            | none => some none
            | some leaf => leaf.leafItems.bind fun items => items.head?.map some
        else (items[entry.index + 1]?).map some

/-- `prev_leaf`: the last leaf of the previous child, over the nodes above the leaf. -/
def prevLeaf : List (StackEntry T S D) → Option (Option (SumTree T S))
  | [] => some none
  | entry :: rest =>
    if entry.index ≠ 0 then
      entry.tree.childTrees.bind fun childTrees =>
        (childTrees[entry.index - 1]?).bind fun child => child.rightmostLeaf.map some
    else prevLeaf rest

/-- `prev_item`. -/
def prevItem (c : TreeCursor T S D) : Option (Option T) :=
  if ¬ c.didSeek then none
  else
    match c.stack with
    | [] => if c.atEnd then c.tree.last else some none
    | entry :: rest =>
      if entry.index = 0 then
        (prevLeaf rest).bind fun leaf =>
          match leaf with
          | none => some none
          | some leaf => leaf.leafItems.bind fun items => items.getLast?.map some
      else entry.tree.leafItems.bind fun items => (items[entry.index - 1]?).map some

/-! ## Stepping forward -/

/-- Summaries that the filter does not want are passed over, from an index on. Both the
position of the entry and the one of the cursor move along. -/
def skip (filterNode : S → Bool) : List S → Nat → D → D → Nat × D × D
  | [], index, entryPosition, position => (index, entryPosition, position)
  | summary :: rest, index, entryPosition, position =>
    if filterNode summary then (index, entryPosition, position)
    else
      skip filterNode rest (index + 1) (Dimension.addSummary entryPosition summary)
        (Dimension.addSummary position summary)

/-- One turn of the loop of `search_forward`. -/
def forwardTurn (filterNode : S → Bool) (st : TreeCursor T S D × Bool) :
    Option ((TreeCursor T S D × Bool) ⊕ TreeCursor T S D) :=
  let (c, descend) := st
  match c.stack with
  | [] => some (.inr { c with atEnd := true })
  | entry :: rest =>
    match entry.tree with
    | .internal _ _ childSummaries childTrees =>
      let entry := if descend then entry else { entry with index := entry.index + 1, position := c.position }
      let (index, entryPosition, position) :=
        skip filterNode (childSummaries.drop entry.index) entry.index entry.position c.position
      let entry := { entry with index, position := entryPosition }
      match childTrees[index]? with
      | some subtree =>
        (pushEntry { c with stack := entry :: rest, position } ⟨subtree, 0, position⟩).map fun c =>
          .inl (c, true)
      | none => some (.inl ({ c with stack := rest, position }, false))
    | .leaf _ _ itemSummaries =>
      let stepped :=
        if descend then some (entry, c.position)
        else
          (itemSummaries[entry.index]?).map fun summary =>
            ({ entry with
                index := entry.index + 1
                position := Dimension.addSummary entry.position summary },
              Dimension.addSummary c.position summary)
      stepped.map fun (entry, position) =>
        let (index, entryPosition, position) :=
          skip filterNode (itemSummaries.drop entry.index) entry.index entry.position position
        let entry := { entry with index, position := entryPosition }
        if index < itemSummaries.length then .inr { c with stack := entry :: rest, position }
        else .inl ({ c with stack := rest, position }, false)

/-- `search_forward`. -/
def searchForward (filterNode : S → Bool) (c : TreeCursor T S D) : Option (TreeCursor T S D) := do
  let descend := c.stack.isEmpty && ! c.atEnd
  let c := if c.stack.isEmpty then { c with didSeek := true } else c
  let c ← if descend then c.pushEntry ⟨c.tree, 0, Dimension.zero S⟩ else some c
  loop (forwardTurn filterNode) c.fuel (c, descend)

/-- `next`. -/
def next (c : TreeCursor T S D) : Option (TreeCursor T S D) := c.searchForward fun _ => true

/-! ## Stepping backward -/

/-- The position of the second entry from the top, where a node starts. -/
def parentPosition : List (StackEntry T S D) → D
  | parent :: _ => parent.position
  | [] => Dimension.zero S

/-- One turn of the loop of `search_backward`. -/
def backwardTurn (filterNode : S → Bool) (st : TreeCursor T S D × Bool) :
    Option ((TreeCursor T S D × Bool) ⊕ TreeCursor T S D) :=
  let (c, descending) := st
  match c.stack with
  | [] => some (.inr c)
  | entry :: rest =>
    let position := parentPosition rest
    if ¬ descending ∧ entry.index = 0 then some (.inl ({ c with stack := rest, position }, descending))
    else
      let index := if descending then entry.index else entry.index - 1
      (entry.tree.childSummaries[index]?).bind fun summary =>
        let position := (entry.tree.childSummaries.take index).foldl Dimension.addSummary position
        let entry := { entry with index, position }
        let c := { c with stack := entry :: rest, position }
        let descending := filterNode summary
        match entry.tree with
        | .internal _ _ _ childTrees =>
          if descending then
            (childTrees[index]?).bind fun tree =>
              if tree.childSummaries.length = 0 then none
              else
                (c.pushEntry ⟨tree, tree.childSummaries.length - 1, Dimension.zero S⟩).map fun c =>
                  .inl (c, descending)
          else some (.inl (c, descending))
        | .leaf .. => if descending then some (.inr c) else some (.inl (c, descending))

/-- `search_backward`. -/
def searchBackward (filterNode : S → Bool) (c : TreeCursor T S D) : Option (TreeCursor T S D) := do
  let c := if c.didSeek then c else { c with didSeek := true, atEnd := true }
  let c ←
    if c.atEnd then
      let c := { c with position := Dimension.zero S, atEnd := c.tree.isEmpty }
      if ¬ c.tree.isEmpty then
        c.pushEntry ⟨c.tree, c.tree.childSummaries.length,
          Dimension.addSummary (Dimension.zero S) c.tree.summary⟩
      else some c
    else some c
  loop (backwardTurn filterNode) c.fuel (c, false)

/-- `prev`. -/
def prev (c : TreeCursor T S D) : Option (TreeCursor T S D) := c.searchBackward fun _ => true

/-! ## Seeking -/

variable {A : Type}

def seekChildren (agg : SeekAggregate T S A) (target : D → Ordering) (bias : Bias) :
    List (SumTree T S × S) → Nat → D → D → A → Option (Nat × D × D × A × Option (SumTree T S))
  | [], index, entryPosition, position, a => some (index, entryPosition, position, a, none)
  | (childTree, childSummary) :: rest, index, entryPosition, position, a =>
    let childEnd := Dimension.addSummary position childSummary
    if passes (target childEnd) bias then
      (agg.pushTree a childTree childSummary).bind fun a =>
        seekChildren agg target bias rest (index + 1) childEnd childEnd a
    else some (index, entryPosition, position, a, some childTree)

def seekItems (agg : SeekAggregate T S A) (target : D → Ordering) (bias : Bias) :
    List (T × S) → Nat → D → A → Option (Nat × D × A × Bool)
  | [], index, position, a => some (index, position, a, false)
  | (item, itemSummary) :: rest, index, position, a =>
    let childEnd := Dimension.addSummary position itemSummary
    if passes (target childEnd) bias then
      (agg.pushItem a item itemSummary).bind fun a => seekItems agg target bias rest (index + 1) childEnd a
    else some (index, position, a, true)

/-- One turn of the loop of `seek_internal`. -/
def seekTurn (agg : SeekAggregate T S A) (target : D → Ordering) (bias : Bias)
    (st : TreeCursor T S D × A × Bool) : Option ((TreeCursor T S D × A × Bool) ⊕ (TreeCursor T S D × A)) :=
  let (c, a, ascending) := st
  match c.stack with
  | [] => some (.inr (c, a))
  | entry :: rest =>
    match entry.tree with
    | .internal _ _ childSummaries childTrees =>
      let entry := if ascending then { entry with index := entry.index + 1, position := c.position } else entry
      (seekChildren agg target bias ((childTrees.drop entry.index).zip (childSummaries.drop entry.index))
        entry.index entry.position c.position a).bind fun (index, entryPosition, position, a, found) =>
          let entry := { entry with index, position := entryPosition }
          match found with
          | some childTree =>
            (pushEntry { c with stack := entry :: rest, position } ⟨childTree, 0, position⟩).map fun c =>
              .inl (c, a, false)
          | none => some (.inl ({ c with stack := rest, position }, a, true))
    | .leaf _ items itemSummaries =>
      (seekItems agg target bias ((items.drop entry.index).zip (itemSummaries.drop entry.index))
        entry.index c.position (agg.beginLeaf a)).bind fun (index, position, a, found) =>
          (agg.endLeaf a).map fun a =>
            if found then .inr ({ c with stack := { entry with index } :: rest, position }, a)
            else .inl ({ c with stack := rest, position }, a, true)

/-- A cursor that has not been moved starts at the root. -/
def enter (c : TreeCursor T S D) : Option (TreeCursor T S D) :=
  if c.didSeek then some c else pushEntry { c with didSeek := true } ⟨c.tree, 0, Dimension.zero S⟩

/-- After the loop: whether the target was met exactly. -/
def finishSeek (target : D → Ordering) (bias : Bias) (r : TreeCursor T S D × A) : Option (TreeCursor T S D × A × Bool) :=
  let c := { r.1 with atEnd := r.1.stack.isEmpty }
  (if bias = .left then c.itemSummary else some none).map fun summary =>
    (c, r.2, target (behind c.position summary) = .eq)

/-- `seek_internal`: the cursor, what was gathered, and whether the target was met. -/
def seekInternal (agg : SeekAggregate T S A) (c : TreeCursor T S D) (target : D → Ordering) (bias : Bias) (a : A) :
    Option (TreeCursor T S D × A × Bool) :=
  if target c.position = .lt then none
  else
    c.enter.bind fun c =>
      (loop (seekTurn agg target bias) c.fuel (c, a, false)).bind (finishSeek target bias)

/-! ### What is gathered -/

/-- Nothing. -/
def noAggregate : SeekAggregate T S Unit where
  beginLeaf := id
  endLeaf := some
  pushItem a _ _ := some a
  pushTree a _ _ := some a

/-- `SliceSeekAggregate`. -/
structure Slice (T S : Type) where
  tree : SumTree T S
  leafItems : List T
  leafItemSummaries : List S
  leafSummary : S

def sliceAggregate : SeekAggregate T S (Slice T S) where
  beginLeaf := id
  endLeaf a :=
    (a.tree.append (.leaf a.leafSummary a.leafItems a.leafItemSummaries)).map fun tree =>
      ⟨tree, [], [], Summary.zero⟩
  pushItem a item summary := do
    let leafItems ← fits (a.leafItems ++ [item])
    let leafItemSummaries ← fits (a.leafItemSummaries ++ [summary])
    pure ⟨a.tree, leafItems, leafItemSummaries, Summary.addSummary a.leafSummary summary⟩
  pushTree a tree _ := (a.tree.append tree).map fun tree => { a with tree }

/-- `SummarySeekAggregate`. -/
def summaryAggregate {E : Type} [Dimension E S] : SeekAggregate T S E where
  beginLeaf := id
  endLeaf := some
  pushItem a _ summary := some (Dimension.addSummary a summary)
  pushTree a _ summary := some (Dimension.addSummary a summary)

/-- `seek`. -/
def seek (c : TreeCursor T S D) (target : D → Ordering) (bias : Bias) : Option (TreeCursor T S D × Bool) :=
  (c.reset.seekInternal noAggregate target bias ()).map fun r => (r.1, r.2.2)

/-- `seek_forward`. -/
def seekForward (c : TreeCursor T S D) (target : D → Ordering) (bias : Bias) : Option (TreeCursor T S D × Bool) :=
  (c.seekInternal noAggregate target bias ()).map fun r => (r.1, r.2.2)

/-- `slice`. -/
def slice (c : TreeCursor T S D) (target : D → Ordering) (bias : Bias) : Option (TreeCursor T S D × SumTree T S) :=
  (c.seekInternal sliceAggregate target bias ⟨SumTree.new, [], [], Summary.zero⟩).map fun r => (r.1, r.2.1.tree)

/-- `suffix`: a slice up to `End`, which is beyond everything. -/
def suffix (c : TreeCursor T S D) : Option (TreeCursor T S D × SumTree T S) := c.slice (fun _ => .gt) .right

/-- `summary`. -/
def summary {E : Type} [Dimension E S] (c : TreeCursor T S D) (target : D → Ordering) (bias : Bias) :
    Option (TreeCursor T S D × E) :=
  (c.seekInternal summaryAggregate target bias (Dimension.zero S : E)).map fun r => (r.1, r.2.1)

end TreeCursor

end SpkEditor
