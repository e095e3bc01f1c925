/-
# `SubtermIndex.Proofs.Indexer.Split` — walking sub-trees separately changes nothing

A split walk indexes the sub-trees at one depth each on its own and joins the results.  It is
compared with the plain walk part by part: whenever the one visits a node in an index, the other
joins the node with the same index and with the results of the frontier below the node.  How the
join ends is told by the trace of the part (`Joins`): it gives the same hash and the same index,
or rejects the tree with the same error, or meets a collision of entries that the trace closes.

The frontier and the visit stop at the same places: where the frontier is incomplete, the visit
fails (`visit_ne_ok_of_incomplete`), and no result is lacking.

A collision is the one thing that is not met at the same place, because sub-trees are walked
without knowing of each other.  So where the plain walk meets one, it is only said that the split
walk fails too; what it may report then is the subject of
`SubtermIndex.Proofs.Indexer.SplitCollision`.
-/
import SubtermIndex.Indexer.Split
import SubtermIndex.Sample.WeakHasher
import SubtermIndex.Proofs.Indexer.Walk
import SubtermIndex.Proofs.Indexer.Trace

namespace SubtermIndex.Indexer

variable {N : Type} (ix : Indexer N)

/-! ## The frontier, in order -/

/-- The frontier below children from `next` on, and whether it is complete. -/
def fringeEach (fringe : N → Position → Bool × List (N × Position)) (pos : Position) :
    List N → (next : Nat) → Bool × List (N × Position)
  | [], _ => (true, [])
  | child :: rest, next =>
      match fringe child (pos.child next) with
      | (true, found) =>
          let more := fringeEach fringe pos rest (next + 1)
          (more.1, found ++ more.2)
      | (false, found) => (false, found)

def fringe : (levels : Nat) → N → Position → Bool × List (N × Position)
  | 0, node, pos => (true, [(node, pos)])
  | levels + 1, node, pos =>
      if ix.maxDepth < pos.depth then (false, [])
      else
        match ix.reader.children node with
        | .error _ => (false, [])
        | .ok children => fringeEach (fringe levels) pos children 0

theorem collectEach_eq {visit : N → Position → List (N × Position) → Bool × List (N × Position)}
    {fringe : N → Position → Bool × List (N × Position)}
    (same : ∀ child pos found, visit child pos found =
      ((fringe child pos).1, (fringe child pos).2.reverse ++ found)) (pos : Position)
    (children : List N) (next : Nat) (found : List (N × Position)) :
    collectEach visit pos children next found =
      ((fringeEach fringe pos children next).1,
        (fringeEach fringe pos children next).2.reverse ++ found) := by
  induction children generalizing next found with
  | nil => rfl
  | cons child rest ih =>
      rw [collectEach, fringeEach, same]
      rcases fringe child (pos.child next) with ⟨_ | _, first⟩
      · rfl
      · simp [ih]

theorem collect_eq (levels : Nat) (node : N) (pos : Position) (found : List (N × Position)) :
    ix.collect levels node pos found =
      ((ix.fringe levels node pos).1, (ix.fringe levels node pos).2.reverse ++ found) := by
  induction levels generalizing node pos found with
  | zero => rfl
  | succ levels ih =>
      rw [collect, fringe]
      split
      · rfl
      · cases ix.reader.children node with
        | error e => rfl
        | ok children => exact collectEach_eq ih pos children 0 found

theorem frontier_eq (root : N) : ix.frontier root = (ix.fringe ix.splitDepth root .root).2 := by
  rw [frontier, collect_eq]
  simp

/-! ## Visiting in the levels that the limit leaves -/

def levelsAt (pos : Position) : Nat := ix.maxDepth + 1 - pos.depth

theorem levelsAt_of_lt {pos : Position} (deep : ix.maxDepth < pos.depth) : ix.levelsAt pos = 0 := by
  rw [levelsAt]
  omega

theorem levelsAt_of_not_lt {pos : Position} (shallow : ¬ ix.maxDepth < pos.depth) (i : Nat) :
    ix.levelsAt pos = ix.levelsAt (pos.child i) + 1 := by
  unfold levelsAt
  rw [Position.depth_child]
  omega

/-- The walk of a sub-tree is the visit of it in an empty index. -/
theorem walk_eq_commit (root : N) (origin : Position) :
    ix.walk root origin = (ix.trace (ix.levelsAt origin) root origin).commit ix.hasher ∅ := by
  rw [walk_eq_walkDirect, walkDirect, visit_eq_commit]
  rfl

theorem visitChildren_ne_ok {visit : N → Position → Index → Except Failure (NodeHash × Index)}
    {fringe : N → Position → Bool × List (N × Position)} {pos : Position} {children : List N}
    {next : Nat}
    (fails : ∀ i child, child ∈ children → (fringe child (pos.child i)).1 = false →
      ∀ m done, visit child (pos.child i) m ≠ .ok done)
    (incomplete : (fringeEach fringe pos children next).1 = false) (hashes : List NodeHash)
    (m : Index) (done : List NodeHash × Index) :
    visitChildren visit pos children next hashes m ≠ .ok done := by
  induction children generalizing next hashes m with
  | nil => simp [fringeEach] at incomplete
  | cons child rest ih =>
      rw [visitChildren]
      cases first : visit child (pos.child next) m with
      | error failure => simp
      | ok visited =>
          rw [fringeEach] at incomplete
          cases complete : (fringe child (pos.child next)).1 with
          | false => exact absurd first (fails next child List.mem_cons_self complete m visited)
          | true =>
              have later (i : Nat) (c : N) (hc : c ∈ rest) := fails i c (List.mem_cons_of_mem _ hc)
              refine ih later ?_ _ _
              rcases hf : fringe child (pos.child next) with ⟨_ | _, found⟩
              · simp [hf] at complete
              · simpa [hf] using incomplete

theorem visit_ne_ok_of_incomplete {levels : Nat} {node : N} {pos : Position}
    (incomplete : (ix.fringe levels node pos).1 = false) (m : Index) (done : NodeHash × Index) :
    ix.visit (ix.levelsAt pos) node pos m ≠ .ok done := by
  induction levels generalizing node pos m done with
  | zero => simp [fringe] at incomplete
  | succ levels ih =>
      rw [fringe] at incomplete
      split at incomplete
      case isTrue deep =>
        -- the frontier and the visit both stop at this node
        rw [levelsAt_of_lt ix deep]
        simp [visit]
      case isFalse shallow =>
        rw [levelsAt_of_not_lt ix shallow 0, visit, childrenAt]
        cases found : ix.reader.children node with
        | error e => simp [Failure.ofReading, bind, Except.bind]
        | ok children =>
            simp only [found] at incomplete
            have each (i : Nat) (child : N) (_ : child ∈ children)
                (incomplete : (ix.fringe levels child (pos.child i)).1 = false) (m : Index)
                (done : NodeHash × Index) :
                ix.visit (ix.levelsAt (pos.child 0)) child (pos.child i) m ≠ .ok done :=
              ih incomplete m done
            have fails := visitChildren_ne_ok each incomplete [] m
            simp only [Failure.ofReading, bind, Except.bind]
            cases visited :
                visitChildren (ix.visit (ix.levelsAt (pos.child 0))) pos children 0 [] m with
            | error failure => simp
            | ok d => exact absurd visited (fails d)

/-! ## What joining answers -/

variable {ix} {H : Hasher} {F : List Entry} {m : Index}
  {rest rest' : List (Except Failure (NodeHash × Index))}

/-- How joining a part of a tree ends, given the trace of the part.  The entries `F` have been
put before, and the results `rest` are left.  It ends as the trace does, unless it meets a
collision; and a collision is one of two entries that have been put or are closed, though
not always the first one that a plain visit meets. -/
inductive Joins {α : Type} (H : Hasher) (F : List Entry)
    (rest : List (Except Failure (NodeHash × Index))) (t : Trace α) :
    Except Failure (α × Join) → Prop
  | ok {a : α} {m : Index} : t.outcome = .ok a → (∅ : Index).putAll H (F ++ t.closed) = .ok m →
      Joins H F rest t (.ok (a, ⟨rest, m⟩))
  | rejected {e : TreeError} : t.outcome = .error e → Joins H F rest t (.error (.rejected e))
  | stored {h : NodeHash} : Index.Clash H (F ++ t.closed) h →
      Joins H F rest t (.error (.storeConflict h))
  | merged {h : NodeHash} : Index.Clash H (F ++ t.closed) h →
      Joins H F rest t (.error (.mergeConflict h))

theorem Joins.append {α : Type} {closed : List Entry} {t : Trace α}
    {joined : Except Failure (α × Join)} (h : Joins H (F ++ closed) rest t joined) :
    Joins H F rest ⟨closed ++ t.closed, t.outcome⟩ joined := by
  have row : F ++ closed ++ t.closed = F ++ (closed ++ t.closed) := List.append_assoc ..
  cases h with
  | ok outcome all => exact .ok outcome (row ▸ all)
  | rejected outcome => exact .rejected outcome
  | stored clash => exact .stored (row ▸ clash)
  | merged clash => exact .merged (row ▸ clash)

theorem Joins.bind {α β : Type} {t : Trace α} {joined : Except Failure (α × Join)}
    {f : α → Trace β} {g : α × Join → Except Failure (β × Join)} (h : Joins H F rest t joined)
    (next : ∀ a m, t.outcome = .ok a → (∅ : Index).putAll H (F ++ t.closed) = .ok m →
      Joins H (F ++ t.closed) rest' (f a) (g (a, ⟨rest, m⟩))) :
    Joins H F rest' (t.bind f) (joined.bind g) := by
  have more : F ++ t.closed ⊆ F ++ (t.bind f).closed := by
    intro e he
    exact List.mem_append.mpr ((List.mem_append.mp he).imp_right (t.closed_subset_bind f ·))
  cases h with
  | ok outcome all =>
      rw [Trace.bind_of_ok outcome]
      exact (next _ _ outcome all).append
  | rejected outcome =>
      rw [Trace.bind_of_error outcome]
      exact .rejected rfl
  | stored clash => exact .stored (clash.mono more)
  | merged clash => exact .merged (clash.mono more)

theorem Joins.reading {α β : Type} {pos : Position} {read : Except TreeError α} {f : α → Trace β}
    {g : α → Except Failure (β × Join)}
    (next : ∀ a, read = .ok a → Joins H F rest (f a) (g a)) :
    Joins H F rest ((Trace.reading pos read).bind f) ((Failure.ofReading pos read).bind g) := by
  cases read with
  | error e => exact .rejected rfl
  | ok a => exact next a rfl

theorem putAll_of_built (built : (∅ : Index).putAll H F = .ok m) (E : List Entry) :
    (∅ : Index).putAll H (F ++ E) = m.putAll H E := by
  rw [Index.putAll_append, built]
  rfl

/-- Whatever is put into the index itself, joining ends as a plain visit does. -/
theorem Joins.commit {α : Type} {t : Trace α} (built : (∅ : Index).putAll H F = .ok m) :
    Joins H F rest t ((t.commit H m).map fun done => (done.1, ⟨rest, done.2⟩)) := by
  rw [Trace.commit]
  cases all : m.putAll H t.closed with
  | error h => exact .stored (Index.clash_of_putAll ((putAll_of_built built _).trans all))
  | ok m' =>
      cases outcome : t.outcome with
      | error e => exact .rejected outcome
      | ok a => exact .ok outcome ((putAll_of_built built _).trans all)

/-- The sub-tree has been walked in an index of its own, which is merged. -/
theorem joins_takeResult {node : N} {pos : Position}
    (built : (∅ : Index).putAll ix.hasher F = .ok m) :
    Joins ix.hasher F rest (ix.trace (ix.levelsAt pos) node pos)
      (takeResult pos ⟨ix.walkEntry (node, pos) :: rest, m⟩) := by
  rw [takeResult, walkEntry, walk_eq_commit, Trace.commit]
  generalize ix.trace (ix.levelsAt pos) node pos = t
  cases alone : (∅ : Index).putAll ix.hasher t.closed with
  | error h => exact .stored ((Index.clash_of_putAll alone).mono (List.subset_append_right _ _))
  | ok sub =>
      cases outcome : t.outcome with
      | error e => exact .rejected outcome
      | ok hash =>
          cases union : m.merge sub with
          | error h =>
              simp only [union, Failure.ofMerge, Except.map]
              exact .merged (Index.clash_of_merge built alone union)
          | ok m' =>
              simp only [union, Failure.ofMerge, Except.map]
              have all := (Index.merge_eq_ok_iff (Index.wellFormed_of_putAll built) alone).mp union
              exact .ok outcome ((putAll_of_built built _).trans all)

theorem visitChildren_cons {σ : Type} (visit : N → Position → σ → Except Failure (NodeHash × σ))
    (pos : Position) (child : N) (rest : List N) (next : Nat) (hashes : List NodeHash) (state : σ) :
    visitChildren visit pos (child :: rest) next hashes state =
      (visit child (pos.child next) state).bind fun done =>
        visitChildren visit pos rest (next + 1) (done.1 :: hashes) done.2 := by
  rw [visitChildren]
  cases visit child (pos.child next) state <;> rfl

theorem joins_visitChildren {trace : N → Position → Trace NodeHash}
    {join : N → Position → Join → Except Failure (NodeHash × Join)}
    {fringe : N → Position → Bool × List (N × Position)} {pos : Position} (children : List N)
    (each : ∀ child i rest F m, (∅ : Index).putAll H F = .ok m →
      Joins H F rest (trace child (pos.child i))
        (join child (pos.child i) ⟨(fringe child (pos.child i)).2.map ix.walkEntry ++ rest, m⟩))
    (fails : ∀ child i, (fringe child (pos.child i)).1 = false →
      ∀ m done, (trace child (pos.child i)).commit H m ≠ .ok done)
    (next : Nat) (hashes : List NodeHash) (rest : List (Except Failure (NodeHash × Index)))
    (built : (∅ : Index).putAll H F = .ok m) :
    Joins H F rest
      ((traceEach trace pos children next).bind fun more => .done (.ok (hashes.reverse ++ more)))
      (visitChildren join pos children next hashes
        ⟨(fringeEach fringe pos children next).2.map ix.walkEntry ++ rest, m⟩) := by
  induction children generalizing next hashes F m with
  | nil =>
      rw [traceEach, Trace.done_bind]
      refine .ok (by rw [List.append_nil]; rfl) ?_
      rw [putAll_of_built built]
      rfl
  | cons child others ih =>
      rw [visitChildren_cons, fringeEach, traceEach, Trace.bind_assoc]
      rcases hf : fringe child (pos.child next) with ⟨_ | _, found⟩
      case false =>
        have first := each child next rest F m built
        rw [hf] at first
        refine first.bind ?_
        intro hash m' outcome all
        -- the join has succeeded here, and so would a visit, although the frontier stops
        rw [putAll_of_built built] at all
        have visited : (trace child (pos.child next)).commit H m = .ok (hash, m') := by
          rw [Trace.commit, all, outcome]
        exact absurd visited (fails child next (by rw [hf]) m _)
      case true =>
        have first := each child next
          ((fringeEach fringe pos others (next + 1)).2.map ix.walkEntry ++ rest) F m built
        rw [hf] at first
        simp only [List.map_append, List.append_assoc]
        refine first.bind ?_
        intro hash m' _ all
        have later := ih (next + 1) (hash :: hashes) all
        rw [List.reverse_cons] at later
        simp only [List.append_assoc, List.singleton_append] at later
        simp only [Trace.bind_assoc, Trace.done_bind]
        exact later

theorem joins_close (payload : Payload) {hashes : List NodeHash} {count : Nat}
    (complete : hashes.length = count) (built : (∅ : Index).putAll ix.hasher F = .ok m)
    (pos : Position) :
    Joins ix.hasher F rest
      ((Trace.labelling pos payload).bind fun l => .closing ix.hasher ⟨l, hashes⟩)
      ((ix.close payload count hashes m pos).bind fun done =>
        .ok (done.hash, ⟨rest, done.staging⟩)) := by
  have closing : Joins ix.hasher F rest _ _ := Joins.commit (t :=
    (Trace.labelling pos payload).bind fun l => .closing ix.hasher ⟨l, hashes⟩) built
  rw [← ix.close_eq_commit payload complete m pos] at closing
  cases closed : ix.close payload count hashes m pos with
  | error failure =>
      rw [closed] at closing
      exact closing
  | ok done =>
      rw [closed] at closing
      exact closing

theorem joins_join (levels : Nat) (node : N) (pos : Position)
    (rest : List (Except Failure (NodeHash × Index)))
    (built : (∅ : Index).putAll ix.hasher F = .ok m) :
    Joins ix.hasher F rest (ix.trace (ix.levelsAt pos) node pos)
      (ix.join levels node pos ⟨(ix.fringe levels node pos).2.map ix.walkEntry ++ rest, m⟩) := by
  induction levels generalizing node pos rest F m with
  | zero => exact joins_takeResult built
  | succ levels ih =>
      rw [join, fringe]
      by_cases deep : ix.maxDepth < pos.depth
      · rw [if_pos deep, levelsAt_of_lt ix deep]
        exact .rejected rfl
      rw [if_neg deep, if_neg deep, levelsAt_of_not_lt ix deep 0, trace]
      refine Joins.reading ?_
      intro children found
      simp only [found]
      have each (child : N) (i : Nat) (rest : List (Except Failure (NodeHash × Index)))
          (F : List Entry) (m : Index) (built : (∅ : Index).putAll ix.hasher F = .ok m) :
          Joins ix.hasher F rest (ix.trace (ix.levelsAt (pos.child 0)) child (pos.child i))
            (ix.join levels child (pos.child i)
              ⟨(ix.fringe levels child (pos.child i)).2.map ix.walkEntry ++ rest, m⟩) :=
        ih child (pos.child i) rest built
      have fails (child : N) (i : Nat)
          (incomplete : (ix.fringe levels child (pos.child i)).1 = false) (m : Index)
          (done : NodeHash × Index) :
          (ix.trace (ix.levelsAt (pos.child 0)) child (pos.child i)).commit ix.hasher m ≠
            .ok done := by
        rw [← visit_eq_commit]
        exact ix.visit_ne_ok_of_incomplete incomplete m done
      -- the levels above the frontier are closed as a visit closes them
      have below := joins_visitChildren children each fails 0 [] rest built
      rw [List.reverse_nil] at below
      simp only [List.nil_append, Trace.bind_done] at below
      refine below.bind ?_
      intro hashes m' visited all
      refine Joins.reading ?_
      intro payload _
      have complete : hashes.length = children.length := length_of_traceEach (Trace.ext rfl visited)
      exact joins_close payload complete all pos

/-! ## The walk and the call -/

variable (ix)

theorem joins_walk (root : N) :
    Joins ix.hasher [] [] (ix.trace (ix.levelsAt .root) root .root)
      (ix.join ix.splitDepth root .root ⟨(ix.frontier root).map ix.walkEntry, ∅⟩) := by
  have joins : Joins ix.hasher [] [] _ (ix.join ix.splitDepth root .root _) :=
    joins_join ix.splitDepth root .root [] rfl
  rw [List.append_nil, ← frontier_eq] at joins
  exact joins

/-- Where the plain walk meets no collision, both walks end in the same way. -/
theorem walkSplit_eq_walk {root : N}
    (noConflict : ∀ h, ix.walk root .root ≠ .error (.storeConflict h)) :
    ix.walkSplit root = ix.walk root .root := by
  have joins := ix.joins_walk root
  rw [walkSplit, joinAll]
  rw [walk_eq_commit, Trace.commit] at noConflict ⊢
  generalize ix.trace (ix.levelsAt .root) root .root = t at joins noConflict ⊢
  generalize ix.join ix.splitDepth root .root _ = joined at joins ⊢
  cases all : (∅ : Index).putAll ix.hasher t.closed with
  | error h => simp [all] at noConflict
  | ok m =>
      have consistent := Index.putAll_empty_isOk_iff.mp ⟨m, all⟩
      cases joins with
      | ok outcome all' =>
          obtain rfl := Except.ok.inj (all.symm.trans all')
          rw [outcome]
          rfl
      | rejected outcome =>
          rw [outcome]
          rfl
      | stored clash => exact absurd clash (consistent.not_clash _)
      | merged clash => exact absurd clash (consistent.not_clash _)

/-- Where the plain walk meets a collision, the split walk meets one as well, or what the plain
walk would have rejected later on. -/
theorem walkSplit_of_storeConflict {root : N} {h : NodeHash}
    (conflict : ix.walk root .root = .error (.storeConflict h)) :
    ∃ failure, ix.walkSplit root = .error failure ∧
      ((∃ e, failure = .rejected e ∧ (ix.trace (ix.levelsAt .root) root .root).outcome = .error e) ∨
        ∃ k, failure.toError = .collision k ∧
          Index.Clash ix.hasher (ix.trace (ix.levelsAt .root) root .root).closed k) := by
  have joins := ix.joins_walk root
  rw [walkSplit, joinAll]
  rw [walk_eq_commit, Trace.commit] at conflict
  generalize ix.trace (ix.levelsAt .root) root .root = t at joins conflict ⊢
  generalize ix.join ix.splitDepth root .root _ = joined at joins ⊢
  cases joins with
  | ok outcome all =>
      rw [List.nil_append] at all
      simp [all, outcome] at conflict
  | rejected outcome => exact ⟨_, rfl, .inl ⟨_, rfl, outcome⟩⟩
  | stored clash => exact ⟨_, rfl, .inr ⟨_, rfl, clash⟩⟩
  | merged clash => exact ⟨_, rfl, .inr ⟨_, rfl, clash⟩⟩

theorem walkSplit_eq_ok_iff {root : N} {done : NodeHash × Index} :
    ix.walkSplit root = .ok done ↔ ix.walk root .root = .ok done := by
  by_cases conflict : ∃ h, ix.walk root .root = .error (.storeConflict h)
  · obtain ⟨h, conflict⟩ := conflict
    obtain ⟨failure, split, -⟩ := ix.walkSplit_of_storeConflict conflict
    simp [conflict, split]
  · rw [ix.walkSplit_eq_walk (not_exists.mp conflict)]

theorem walkSplit_eq_rejected {root : N} {e : TreeError}
    (h : ix.walk root .root = .error (.rejected e)) :
    ix.walkSplit root = .error (.rejected e) := by
  rw [ix.walkSplit_eq_walk (by simp [h]), h]

theorem insert_eq_ok_iff {root : N} {m : Index} {d : Inserted} :
    ix.insert root m = .ok d ↔
      ∃ walked, ix.walk root .root = .ok walked ∧ mergeWalked walked m = .ok d := by
  rw [insert]
  cases ix.walk root .root <;> simp [Except.bind]

theorem insertSplit_eq_ok_iff {root : N} {m : Index} {d : Inserted} :
    ix.insertSplit root m = .ok d ↔ ix.insert root m = .ok d := by
  rw [insert_eq_ok_iff]
  simp only [← walkSplit_eq_ok_iff]
  rw [insertSplit]
  cases ix.walkSplit root <;> simp [Except.bind]

theorem mergeWalked_ne_rejected (walked : NodeHash × Index) (m : Index) (e : TreeError) :
    mergeWalked walked m ≠ .error (.rejected e) := by
  rw [mergeWalked]
  cases m.merge walked.2 <;> simp [Failure.ofMerge, Except.map]

/-- A call rejects a tree exactly when its walk does: merging only meets collisions. -/
theorem insert_eq_rejected_iff {root : N} {m : Index} {e : TreeError} :
    ix.insert root m = .error (.rejected e) ↔ ix.walk root .root = .error (.rejected e) := by
  rw [insert]
  cases ix.walk root .root with
  | error failure => simp [Except.bind]
  | ok walked => simp [Except.bind, mergeWalked_ne_rejected]

/-- A call whose error is no collision has rejected the tree. -/
theorem eq_rejected_of_toError {α : Type} {outcome : Except Failure α} {e : TreeError}
    (noCollision : ∀ h, e ≠ .collision h) (h : outcome.mapError Failure.toError = .error e) :
    outcome = .error (.rejected e) := by
  cases outcome with
  | ok a => simp [Except.mapError] at h
  | error failure =>
      obtain rfl := Except.error.inj h
      cases failure with
      | rejected e => rfl
      | storeConflict k => exact absurd rfl (noCollision k)
      | mergeConflict k => exact absurd rfl (noCollision k)

/-- Walking the sub-trees at some depth separately changes nothing: a call succeeds exactly when
the plain one does, with the same root, the same index and the same counts, and an error that
is no collision is the same error. -/
theorem insertSplit_agrees (root : N) (m : Index) :
    (∀ d, ix.insertSplit root m = .ok d ↔ ix.insert root m = .ok d) ∧
      ∀ e, (∀ h, e ≠ .collision h) →
        (ix.insert root m).mapError Failure.toError = .error e →
        (ix.insertSplit root m).mapError Failure.toError = .error e := by
  constructor
  · intro d
    exact ix.insertSplit_eq_ok_iff
  · intro e noCollision h
    have rejected := ix.insert_eq_rejected_iff.mp (eq_rejected_of_toError noCollision h)
    rw [insertSplit, ix.walkSplit_eq_rejected rejected]
    rfl

def splitSample : Indexer Cbor.Value :=
  { reader := .ofField "children", hasher := .zero, maxDepth := 3, splitDepth := 1 }

/-- A root over a leaf and a number, which is no node. -/
def brokenSample : Cbor.Value :=
  .record [(.text "children", .list [.record [(.text "children", .list [])], .bool true])]

def brokenError : TreeError := .malformed (.ofIndices [1]) (.notRecord .bool)

theorem insertSplit_agrees_broken :
    (∀ h, brokenError ≠ .collision h) ∧
      (splitSample.insert brokenSample ∅).mapError Failure.toError = .error brokenError ∧
      (splitSample.insertSplit brokenSample ∅).mapError Failure.toError = .error brokenError := by
  have noCollision : ∀ h, brokenError ≠ .collision h := by
    intro h
    simp [brokenError]
  have rejected : splitSample.walk brokenSample .root = .error (.rejected brokenError) := by
    rw [walk_eq_walkDirect]
    rfl
  have fails :
      (splitSample.insert brokenSample ∅).mapError Failure.toError = .error brokenError := by
    rw [insert, rejected]
    rfl
  exact ⟨noCollision, fails, (splitSample.insertSplit_agrees brokenSample ∅).2 _ noCollision fails⟩

end SubtermIndex.Indexer
