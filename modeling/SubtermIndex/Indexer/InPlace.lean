/-
# `SubtermIndex.Indexer.InPlace` — the calls as programs that write to memory

What a program has written before it fails stays written.  Here the calls on an index are programs
of this kind: a node's edges are added before it turns out that its hash collides, sub-trees are
merged one after another until one of them cannot be, and an index is filled entry by entry.
Nothing is put back.

The index that a call is made on is safe for another reason: trees are drafted in an index of their
own, and merging looks at every entry before it writes the first one.

A program is a function of the memory that always gives a memory back, beside a result or a
failure.  The memory of a call is the index and one draft, and a program on either of them is turned
into one on both (`on`).  A draft that a failed call has left is cleared by the next call that makes
one.
-/
import SubtermIndex.Indexer.Split

namespace SubtermIndex

open Std

/-- A program on a memory `σ`.  When it fails, the memory is as it was at that moment. -/
abbrev Routine (σ α : Type) := EStateM Failure σ α

namespace Routine

variable {σ τ α : Type}

def ofExcept : Except Failure α → Routine σ α
  | .ok a => return a
  | .error failure => throw failure

/-- The program on a part of the memory. -/
def on (get : τ → σ) (set : σ → τ → τ) (r : Routine σ α) : Routine τ α := fun t =>
  match r.run (get t) with
  | .ok a s => .ok a (set s t)
  | .error failure s => .error failure (set s t)

/-- The result alone.  Of the memory, what a failed program leaves is lost. -/
def outcome (r : Routine σ α) (s : σ) : Except Failure (α × σ) :=
  match r.run s with
  | .ok a s => .ok (a, s)
  | .error failure _ => .error failure

end Routine

/-! ## Merging -/

namespace Index

def checkNode (entry : NodeHash × Node) : Routine Index Unit := do
  if (← get).conflictsWith entry then throw (.mergeConflict entry.1)

def fillNode (entry : NodeHash × Node) : Routine Index Unit :=
  modify fun m => { m with nodes := m.nodes.insertIfNew entry.1 entry.2 }

def fillGroup (group : Shape × ExtTreeSet NodeHash) : Routine Index Unit :=
  modify fun m => { m with shapes := m.shapes.alter group.1 (Groups.extend group.2) }

def fillEdge (edge : NodeHash × NodeHash) : Routine Index Unit :=
  modify fun m => { m with edges := m.edges.insert edge.1 edge.2 }

/-- Checks all nodes of `incoming`, then writes what it holds. -/
def mergeInPlace (incoming : Index) : Routine Index Gain := do
  forM incoming.nodes.toList checkNode
  let before ← get
  forM incoming.nodes.toList fillNode
  forM incoming.shapes.toList fillGroup
  forM incoming.edges.toList fillEdge
  return .between before (← get)

/-- Puts a node under a hash, or stops if it collides. -/
def storeInPlace (hash : NodeHash) (node : Node) : Routine Index Unit := do
  match (← get).store? hash node with
  | none => throw (.storeConflict hash)
  | some (_, m) => set m

/-- Writes a node with its edges and its shape.  The edges come first, and stay if the hash
collides. -/
def writeNode (hash : NodeHash) (shape : Shape) (node : Node) : Routine Index Unit := do
  modify fun m => m.addEdges hash node.children
  storeInPlace hash node
  modify fun m => m.addShape shape hash

end Index

/-! ## Drafting a tree -/

namespace Indexer

variable {N : Type} (ix : Indexer N)

def closeInPlace (payload : Payload) (arity : Nat) (hashes : List NodeHash) (pos : Position) :
    Routine Index NodeHash := do
  let shape ← Routine.ofExcept (Failure.ofEncoding pos (ix.hasher.shapeOf payload))
  let node ← Routine.ofExcept ((Node.ofHashes payload arity hashes).mapError .rejected)
  let record ← Routine.ofExcept (Failure.ofEncoding pos node.encodedRecord)
  let hash := ix.hasher.nodeHash record
  Index.writeNode hash shape node
  return hash

/-- Visits children from `next` on; `hashes` holds the hashes of the earlier ones, last first. -/
def visitChildrenInPlace {σ : Type} (visit : N → Position → Routine σ NodeHash) (pos : Position) :
    List N → (next : Nat) → List NodeHash → Routine σ (List NodeHash)
  | [], _, hashes => return hashes.reverse
  | child :: rest, next, hashes => do
      let hash ← visit child (pos.child next)
      visitChildrenInPlace visit pos rest (next + 1) (hash :: hashes)

def visitInPlace : (levels : Nat) → N → Position → Routine Index NodeHash
  | 0, _, pos => throw (.tooDeep pos ix.maxDepth)
  | levels + 1, node, pos => do
      let children ← Routine.ofExcept (ix.childrenAt node pos)
      let hashes ← visitChildrenInPlace (visitInPlace levels) pos children 0 []
      let payload ← Routine.ofExcept (ix.payloadAt node pos)
      ix.closeInPlace payload children.length hashes pos

/-- The walk of the sub-tree that stands at `origin`, on the memory of an empty index. -/
def walkInPlace (root : N) (origin : Position) : Routine Index NodeHash := do
  set (∅ : Index)
  ix.visitInPlace (ix.maxDepth + 1 - origin.depth) root origin

/-! ## Joining the walks of sub-trees -/

namespace Join

def onStaging {α : Type} : Routine Index α → Routine Join α :=
  Routine.on Join.staging fun m j => { j with staging := m }

end Join

/-- Takes the next result of the frontier off the list, and merges it. -/
def takeResultInPlace (pos : Position) : Routine Join NodeHash := do
  let j ← get
  match j.results with
  | [] => throw (.rejected (.malformed pos (.other "sub-tree result missing")))
  | result :: rest =>
      set { j with results := rest }
      let (hash, sub) ← Routine.ofExcept result
      let _ ← Join.onStaging (Index.mergeInPlace sub)
      return hash

/-- Closes the node at `pos`, the frontier lying `levels` below it. -/
def joinInPlace : (levels : Nat) → N → Position → Routine Join NodeHash
  | 0, _, pos => takeResultInPlace pos
  | levels + 1, node, pos =>
      if ix.maxDepth < pos.depth then throw (.tooDeep pos ix.maxDepth)
      else do
        let children ← Routine.ofExcept (ix.childrenAt node pos)
        let hashes ← visitChildrenInPlace (joinInPlace levels) pos children 0 []
        let payload ← Routine.ofExcept (ix.payloadAt node pos)
        Join.onStaging (ix.closeInPlace payload children.length hashes pos)

/-- What the worker finds that walks an entry of the frontier, on a memory of its own. -/
def walkEntryInPlace (entry : N × Position) : Except Failure (NodeHash × Index) :=
  (ix.walkInPlace entry.1 entry.2).outcome ∅

end Indexer

/-! ## The calls -/

/-- The memory of the calls on an index: the index, and the draft of the tree that is being
indexed or was indexed last. -/
structure Memory where
  index : Index
  draft : Indexer.Join

namespace Memory

def ofIndex (m : Index) : Memory := ⟨m, ⟨[], ∅⟩⟩

def onIndex {α : Type} : Routine Index α → Routine Memory α :=
  Routine.on Memory.index fun m mem => { mem with index := m }

def onDraft {α : Type} : Routine Indexer.Join α → Routine Memory α :=
  Routine.on Memory.draft fun j mem => { mem with draft := j }

end Memory

/-- What a call answers when it succeeds. -/
inductive Success where
  /-- The hash of the root, the number of nodes of the tree, and what is new. -/
  | inserted (root : NodeHash) (staged : Nat) (gain : Index.Gain)
  | merged (gain : Index.Gain)
  deriving DecidableEq

namespace Indexer

variable {N : Type} (ix : Indexer N)

/-- Merges the draft of a tree with the given hash. -/
def mergeDraft (hash : NodeHash) : Routine Memory Success := do
  let staging := (← get).draft.staging
  let gain ← Memory.onIndex (Index.mergeInPlace staging)
  return .inserted hash staging.size gain

def insertInPlace (root : N) : Routine Memory Success := do
  let hash ← Memory.onDraft (Join.onStaging (ix.walkInPlace root .root))
  mergeDraft hash

/-- Puts a tree into the index, its sub-trees at `splitDepth` being walked separately. -/
def insertSplitInPlace (root : N) : Routine Memory Success := do
  let hash ← Memory.onDraft do
    set (⟨(ix.frontier root).map ix.walkEntryInPlace, ∅⟩ : Join)
    ix.joinInPlace ix.splitDepth root .root
  mergeDraft hash

end Indexer

end SubtermIndex
