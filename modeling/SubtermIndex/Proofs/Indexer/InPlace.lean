/-
# `SubtermIndex.Proofs.Indexer.InPlace` — programs that write to memory compute the same

Every program of `SubtermIndex.Indexer.InPlace` gives the result of the function that it spells
out (`Routine.Does`), in whatever memory it begins.  Of the memory that a failed program leaves,
one thing is said: a merge that fails has written nothing (`run_mergeInPlace`).  All other
programs that fail work on a draft.

To do what a function does is kept when one program follows another (`Routine.Does.bind`), so
there is one lemma for each program, which follows its text.  That a program leaves anything in
the memory when it fails is of no concern to the function, which then gives an error only.  For
the calls this is not enough, because the next one finds the memory as it is; so of these it is
said how they end (`Index.Ends`).
-/
import SubtermIndex.Indexer.InPlace
import SubtermIndex.Proofs.Groups
import SubtermIndex.Proofs.Indexer.Split

namespace SubtermIndex

open Std

namespace Routine

variable {σ τ α β : Type}

def Does (r : Routine σ α) (f : σ → Except Failure (α × σ)) : Prop := ∀ s, r.outcome s = f s

theorem does_pure (a : α) : Does (pure a : Routine σ α) fun s => .ok (a, s) := fun _ => rfl

theorem does_throw (failure : Failure) :
    Does (throw failure : Routine σ α) fun _ => .error failure := fun _ => rfl

theorem Does.bind {r : Routine σ α} {f : σ → Except Failure (α × σ)} {k : α → Routine σ β}
    {g : α → σ → Except Failure (β × σ)} (first : r.Does f) (next : ∀ a, (k a).Does (g a)) :
    (r >>= k).Does fun s => (f s).bind fun done => g done.1 done.2 := by
  intro s
  show (r >>= k).outcome s = (f s).bind _
  rw [← first s, outcome, outcome, EStateM.run_bind]
  cases r.run s with
  | error failure s' => rfl
  | ok a s' => exact next a s'

theorem Does.ofExcept_bind {x : Except Failure α} {k : α → Routine σ β}
    {g : α → σ → Except Failure (β × σ)} (next : ∀ a, (k a).Does (g a)) :
    (ofExcept x >>= k).Does fun s => x.bind fun a => g a s := by
  cases x with
  | error failure => exact fun _ => rfl
  | ok a => exact next a

theorem run_on_ok {r : Routine σ α} {get : τ → σ} {set : σ → τ → τ} {t : τ} {a : α} {s : σ}
    (run : r.run (get t) = .ok a s) : (r.on get set).run t = .ok a (set s t) := by
  rw [EStateM.run, on, run]

theorem run_on_error {r : Routine σ α} {get : τ → σ} {set : σ → τ → τ} {t : τ}
    {failure : Failure} {s : σ} (run : r.run (get t) = .error failure s) :
    (r.on get set).run t = .error failure (set s t) := by
  rw [EStateM.run, on, run]

theorem Does.on {r : Routine σ α} {f : σ → Except Failure (α × σ)} (done : r.Does f)
    (get : τ → σ) (set : σ → τ → τ) :
    (r.on get set).Does fun t => (f (get t)).map fun done => (done.1, set done.2 t) := by
  intro t
  show (r.on get set).outcome t = (f (get t)).map _
  rw [← done (get t), outcome, outcome, EStateM.run, Routine.on]
  cases r.run (get t) <;> rfl

/-- Programs that write to a part of the memory and cannot fail, one after another. -/
theorem run_forM {part : Type} (step : α → Routine σ PUnit) (put : part → σ)
    (write : part → α → part) (writes : ∀ p a, (step a).run (put p) = .ok ⟨⟩ (put (write p a)))
    (row : List α) (p : part) :
    (forM row step).run (put p) = .ok ⟨⟩ (put (row.foldl write p)) := by
  induction row generalizing p with
  | nil => rfl
  | cons a rest ih =>
      rw [List.forM_cons, EStateM.run_bind, writes]
      exact ih (write p a)

end Routine

/-! ## Merging -/

namespace Index

theorem run_checkNode (entry : NodeHash × Node) (m : Index) :
    (checkNode entry).run m =
      if m.conflictsWith entry then .error (.mergeConflict entry.1) m else .ok ⟨⟩ m := by
  show EStateM.run (if m.conflictsWith entry then _ else pure ()) m = _
  split <;> rfl

/-- A row of checks writes nothing, and stops at the first conflict. -/
theorem run_forM_checkNode (row : List (NodeHash × Node)) (m : Index) :
    (forM row checkNode).run m =
      match row.find? m.conflictsWith with
      | some entry => .error (.mergeConflict entry.1) m
      | none => .ok ⟨⟩ m := by
  induction row with
  | nil => rfl
  | cons entry rest ih =>
      rw [List.find?_cons, List.forM_cons, EStateM.run_bind, run_checkNode]
      cases m.conflictsWith entry with
      | true => rfl
      | false => exact ih

/-- Merging writes the union, or nothing at all. -/
theorem run_mergeInPlace (m incoming : Index) :
    (mergeInPlace incoming).run m =
      match m.merge incoming with
      | .ok merged => .ok (.between m merged) merged
      | .error h => .error (.mergeConflict h) m := by
  have nodes : (forM incoming.nodes.toList fillNode).run m =
      .ok ⟨⟩ { m with nodes := incoming.nodes ∪ m.nodes } := by
    rw [← foldl_insertIfNew_eq_union]
    exact Routine.run_forM fillNode (fun nodes => { m with nodes }) _ (fun _ _ => rfl) _ m.nodes
  have shapes (m : Index) : (forM incoming.shapes.toList fillGroup).run m =
      .ok ⟨⟩ { m with shapes := Groups.merge m.shapes incoming.shapes } := by
    rw [Groups.merge_eq_foldl]
    exact Routine.run_forM fillGroup (fun shapes => { m with shapes }) _ (fun _ _ => rfl) _ m.shapes
  have edges (m : Index) : (forM incoming.edges.toList fillEdge).run m =
      .ok ⟨⟩ { m with edges := m.edges ∪ incoming.edges } :=
    Routine.run_forM fillEdge (fun edges => { m with edges }) _ (fun _ _ => rfl) _ m.edges
  rw [mergeInPlace, EStateM.run_bind, run_forM_checkNode, merge, firstConflict?]
  cases incoming.nodes.toList.find? m.conflictsWith with
  | some entry => rfl
  | none =>
      simp only [EStateM.run_bind, EStateM.run_get, nodes, shapes, edges]
      rfl

theorem does_mergeInPlace (incoming : Index) :
    (mergeInPlace incoming).Does fun m =>
      (Failure.ofMerge (m.merge incoming)).map fun merged => (.between m merged, merged) := by
  intro m
  show _ = (Failure.ofMerge (m.merge incoming)).map _
  rw [Routine.outcome, run_mergeInPlace]
  cases m.merge incoming <;> rfl

/-- Where a node cannot be stored, what has been written before stays. -/
theorem run_storeInPlace (hash : NodeHash) (node : Node) (m : Index) :
    (storeInPlace hash node).run m =
      match m.store? hash node with
      | none => .error (.storeConflict hash) m
      | some (_, m') => .ok ⟨⟩ m' := by
  show EStateM.run (match m.store? hash node with
    | none => throw _
    | some (_, m') => set m') m = _
  cases m.store? hash node <;> rfl

theorem does_writeNode (hash : NodeHash) (shape : Shape) (node : Node) :
    (writeNode hash shape node).Does fun m =>
      match (m.addEdges hash node.children).store? hash node with
      | none => .error (.storeConflict hash)
      | some (_, m') => .ok (⟨⟩, m'.addShape shape hash) := by
  intro m
  rw [Routine.outcome, writeNode]
  simp only [EStateM.run_bind, EStateM.run_modify, run_storeInPlace]
  cases (m.addEdges hash node.children).store? hash node <;> rfl

end Index

/-! ## Drafting a tree -/

namespace Indexer

open Routine

variable {N : Type} (ix : Indexer N)

theorem does_closeInPlace (payload : Payload) (arity : Nat) (hashes : List NodeHash)
    (pos : Position) :
    (ix.closeInPlace payload arity hashes pos).Does fun m =>
      (ix.close payload arity hashes m pos).bind fun done => .ok (done.hash, done.staging) := by
  intro m
  show _ = (ix.close payload arity hashes m pos).bind _
  rw [closeInPlace, close.eq_def]
  cases Failure.ofEncoding pos (ix.hasher.shapeOf payload) with
  | error failure => rfl
  | ok shape =>
      cases (Node.ofHashes payload arity hashes).mapError Failure.rejected with
      | error failure => rfl
      | ok node =>
          show (Routine.ofExcept (Failure.ofEncoding pos node.encodedRecord) >>= _).outcome m =
            Except.bind (Except.bind (Failure.ofEncoding pos node.encodedRecord) _) _
          cases Failure.ofEncoding pos node.encodedRecord with
          | error failure => rfl
          | ok record =>
              refine ((Index.does_writeNode _ shape node).bind fun _ => does_pure _) m |>.trans ?_
              simp only [Except.bind]
              cases (m.addEdges _ node.children).store? _ node <;> rfl

theorem does_visitChildrenInPlace {σ : Type} {visit : N → Position → Routine σ NodeHash}
    {visit' : N → Position → σ → Except Failure (NodeHash × σ)}
    (each : ∀ child pos, (visit child pos).Does (visit' child pos)) (pos : Position)
    (children : List N) (next : Nat) (hashes : List NodeHash) :
    (visitChildrenInPlace visit pos children next hashes).Does
      (visitChildren visit' pos children next hashes) := by
  induction children generalizing next hashes with
  | nil => exact does_pure _
  | cons child rest ih =>
      intro s
      rw [visitChildren_cons]
      exact (each child (pos.child next)).bind (fun hash => ih (next + 1) (hash :: hashes)) s

theorem does_visitInPlace (levels : Nat) (node : N) (pos : Position) :
    (ix.visitInPlace levels node pos).Does (ix.visit levels node pos) := by
  induction levels generalizing node pos with
  | zero => exact does_throw _
  | succ levels ih =>
      refine Does.ofExcept_bind ?_
      intro children
      refine (does_visitChildrenInPlace ih pos children 0 []).bind (g := fun hashes m =>
        (ix.payloadAt node pos).bind fun payload =>
          (ix.close payload children.length hashes m pos).bind fun done =>
            .ok (done.hash, done.staging)) ?_
      intro hashes
      refine Does.ofExcept_bind ?_
      intro payload
      exact ix.does_closeInPlace payload children.length hashes pos

theorem does_walkInPlace (root : N) (origin : Position) :
    (ix.walkInPlace root origin).Does fun _ => ix.walk root origin := by
  intro m
  rw [walk_eq_walkDirect]
  exact ix.does_visitInPlace (ix.maxDepth + 1 - origin.depth) root origin ∅

theorem walkEntryInPlace_eq : ix.walkEntryInPlace = ix.walkEntry := by
  funext entry
  exact ix.does_walkInPlace entry.1 entry.2 ∅

/-! ## Joining the walks of sub-trees -/

theorem does_takeResultInPlace (pos : Position) :
    (takeResultInPlace pos).Does (takeResult pos) := by
  intro j
  obtain ⟨results, staging⟩ := j
  rcases results with _ | ⟨_ | ⟨hash, sub⟩, rest⟩
  · rfl
  · rfl
  · have merged := (Index.does_mergeInPlace sub).on Join.staging fun m j => { j with staging := m }
    refine ((merged.bind fun _ => does_pure hash) ⟨rest, staging⟩).trans ?_
    simp only [takeResult]
    cases staging.merge sub <;> rfl

theorem does_joinInPlace (levels : Nat) (node : N) (pos : Position) :
    (ix.joinInPlace levels node pos).Does (ix.join levels node pos) := by
  induction levels generalizing node pos with
  | zero => exact does_takeResultInPlace pos
  | succ levels ih =>
      have last (children : List N) (hashes : List NodeHash) :
          (ofExcept (ix.payloadAt node pos) >>= fun payload =>
            Join.onStaging (ix.closeInPlace payload children.length hashes pos)).Does fun j =>
            (ix.payloadAt node pos).bind fun payload =>
              (ix.close payload children.length hashes j.staging pos).bind fun done =>
                .ok (done.hash, { j with staging := done.staging }) := by
        refine Does.ofExcept_bind ?_
        intro payload j
        have closed := (ix.does_closeInPlace payload children.length hashes pos).on Join.staging
          fun m j => { j with staging := m }
        refine (closed j).trans ?_
        show Except.map _ (Except.bind (ix.close payload children.length hashes j.staging pos) _) =
          Except.bind (ix.close payload children.length hashes j.staging pos) _
        cases ix.close payload children.length hashes j.staging pos <;> rfl
      intro j
      rw [joinInPlace, join]
      by_cases deep : ix.maxDepth < pos.depth
      · rw [if_pos deep, if_pos deep]
        rfl
      · rw [if_neg deep, if_neg deep]
        exact Does.ofExcept_bind (fun children =>
          (does_visitChildrenInPlace ih pos children 0 []).bind (last children)) j

end Indexer

/-! ## The calls -/

/-- How a call on an index may end, against what a function gives: if it succeeds, the index that
the function gives has been written, and if it fails, the index is as it was. -/
inductive Index.Ends {α : Type} (m : Index) :
    EStateM.Result Failure Memory α → Except Failure (α × Index) → Prop
  | ok {a : α} {mem : Memory} : Ends m (.ok a mem) (.ok (a, mem.index))
  | error {failure : Failure} {mem : Memory} : mem.index = m →
      Ends m (.error failure mem) (.error failure)

/-- Whether a call performs a function of the index, whatever the draft is. -/
def Memory.Performs {α : Type} (r : Routine Memory α) (f : Index → Except Failure (α × Index)) :
    Prop :=
  ∀ mem : Memory, mem.index.Ends (r.run mem) (f mem.index)

namespace Memory

theorem run_onIndex_mergeInPlace (incoming : Index) (mem : Memory) :
    (onIndex (Index.mergeInPlace incoming)).run mem =
      match mem.index.merge incoming with
      | .ok merged => .ok (.between mem.index merged) { mem with index := merged }
      | .error h => .error (.mergeConflict h) mem := by
  have run := Index.run_mergeInPlace mem.index incoming
  cases union : mem.index.merge incoming with
  | error h =>
      rw [union] at run
      exact Routine.run_on_error run
  | ok merged =>
      rw [union] at run
      exact Routine.run_on_ok run

theorem ends_mergeDraft (hash : NodeHash) (mem : Memory) :
    mem.index.Ends ((Indexer.mergeDraft hash).run mem)
      ((Indexer.mergeWalked (hash, mem.draft.staging) mem.index).map fun d =>
        (.inserted d.root d.staged d.gain, d.index)) := by
  rw [Indexer.mergeDraft, EStateM.run_bind, EStateM.run_get, Indexer.mergeWalked]
  simp only [EStateM.run_bind, run_onIndex_mergeInPlace]
  cases mem.index.merge mem.draft.staging with
  | error h => exact .error rfl
  | ok merged => exact .ok

/-- A call that drafts a tree does not touch the index before it merges the draft. -/
theorem performs_insertion {r : Routine Indexer.Join NodeHash}
    {walked : Except Failure (NodeHash × Index)}
    (drafted : ∀ j, (r.outcome j).map (fun done => (done.1, done.2.staging)) = walked) :
    Performs (onDraft r >>= Indexer.mergeDraft) fun m =>
      (walked.bind fun walked => Indexer.mergeWalked walked m).map fun d =>
        (.inserted d.root d.staged d.gain, d.index) := by
  intro mem
  obtain rfl := drafted mem.draft
  rw [Routine.outcome, EStateM.run_bind]
  cases run : r.run mem.draft with
  | error failure j =>
      rw [onDraft, Routine.run_on_error run]
      exact .error rfl
  | ok hash j =>
      rw [onDraft, Routine.run_on_ok run]
      exact ends_mergeDraft hash { mem with draft := j }

end Memory

namespace Indexer

variable {N : Type} (ix : Indexer N)

theorem performs_insertInPlace (root : N) :
    Memory.Performs (ix.insertInPlace root) fun m =>
      (ix.insert root m).map fun d => (.inserted d.root d.staged d.gain, d.index) := by
  refine Memory.performs_insertion ?_
  intro j
  have walked := (ix.does_walkInPlace root .root).on Join.staging fun m j => { j with staging := m }
  rw [Join.onStaging, walked j]
  cases ix.walk root .root <;> rfl

theorem performs_insertSplitInPlace (root : N) :
    Memory.Performs (ix.insertSplitInPlace root) fun m =>
      (ix.insertSplit root m).map fun d => (.inserted d.root d.staged d.gain, d.index) := by
  refine Memory.performs_insertion ?_
  intro j
  show ((ix.joinInPlace ix.splitDepth root .root).outcome
    ⟨(ix.frontier root).map ix.walkEntryInPlace, ∅⟩).map _ = _
  rw [walkEntryInPlace_eq, ix.does_joinInPlace ix.splitDepth root .root]
  rfl

end Indexer

end SubtermIndex
