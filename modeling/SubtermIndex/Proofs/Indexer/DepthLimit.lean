/-
# `SubtermIndex.Proofs.Indexer.DepthLimit` — the depth limit is exact

A tree that is indexed under one limit is indexed in the same way under every greater one.  Under
a smaller limit the call fails exactly if some node lies deeper, and then it names the first such
node in pre-order, one level below the limit (`LimitExact`).

On the way to that node a walk closes only nodes of the tree (`EndsAt`).  If a walk with a greater
limit has stored them all, there is no collision before.  The walk that is split at some depth
ends as the plain one does, wherever the split lies; hence the same holds for it.

The first node that lies too deep is also the first error of any kind.  A tree that is indexed
under some limit can be read everywhere, so that nothing else can stop a walk before it.
-/
import SubtermIndex.Proofs.Indexer.Insert
import SubtermIndex.Proofs.Outline
import SubtermIndex.Sample.Spelling

namespace SubtermIndex.Indexer

variable {N : Type} (ix : Indexer N)

def withLimits (maxDepth splitDepth : Nat) : Indexer N :=
  { ix with maxDepth, splitDepth }

/-! ## Traces of a tree that may be too deep -/

/-- How a trace ends that enters the given occurrences, in this order, and closes the given entries:
with the result, if all occurrences lie above the given depth, and otherwise at the first one that
lies at this depth. -/
inductive EndsAt {α : Type} (depth : Nat) (places : List (Occurrence N)) (E : List Entry) (a : α)
    (trace : Trace α) : Prop
  | whole : (∀ o ∈ places, o.pos.depth < depth) → trace = ⟨E, .ok a⟩ →
      EndsAt depth places E a trace
  | cut {o : Occurrence N} : places.find? (fun o => o.pos.depth = depth) = some o →
      trace.outcome = .error (.malformed o.pos (.tooDeep ix.maxDepth)) → trace.closed ⊆ E →
      EndsAt depth places E a trace

variable {ix}

/-- What comes behind a cut is not reached. -/
theorem EndsAt.bind {α β : Type} {depth : Nat} {places behind : List (Occurrence N)}
    {E F : List Entry} {a : α} {b : β} {t : Trace α} {f : α → Trace β}
    (first : ix.EndsAt depth places E a t) (next : ix.EndsAt depth behind F b (f a)) :
    ix.EndsAt depth (places ++ behind) (E ++ F) b (t.bind f) := by
  cases first with
  | cut found outcome closed =>
      rw [Trace.bind_of_error outcome]
      refine .cut ?_ rfl (List.subset_append_of_subset_left F closed)
      rw [List.find?_append, found]
      rfl
  | whole shallow ends =>
      subst ends
      cases next with
      | whole shallow' ends =>
          exact .whole (List.forall_mem_append.mpr ⟨shallow, shallow'⟩)
            (Trace.bind_eq_ok.mpr ⟨a, E, F, rfl, ends, rfl⟩)
      | cut found outcome closed =>
          have none : places.find? (fun o => o.pos.depth = depth) = none := by
            rw [List.find?_eq_none]
            intro o mem
            simpa using (shallow o mem).ne
          refine .cut ?_ outcome (List.append_subset.mpr ⟨List.subset_append_left E F,
            List.subset_append_of_subset_right E closed⟩)
          rw [List.find?_append, none, found]
          rfl

theorem endsAt_traceEach {levels depth : Nat} {pos : Position} {below : List N}
    {Ts : List Tree} {ts : List (Outline N)}
    (each : ∀ a ∈ below, ∀ T t i, ix.reader.Reads a T → ix.reader.Shows a t →
      ix.EndsAt depth (t.preorder (pos.child i)) (T.entries ix.hasher) (T.hash ix.hasher)
        (ix.trace levels a (pos.child i)))
    (reads : List.Forall₂ ix.reader.Reads below Ts)
    (shown : List.Forall₂ ix.reader.Shows below ts) (next : Nat) :
    ix.EndsAt depth (Outline.preorderFrom ts pos next) (Ts.flatMap (Tree.entries ix.hasher))
      (Ts.map (Tree.hash ix.hasher)) (traceEach (ix.trace levels) pos below next) := by
  induction reads generalizing ts next with
  | nil =>
      cases shown
      exact .whole (List.forall_mem_nil _) rfl
  | @cons a T below Ts read reads ih =>
      obtain _ | @⟨_, t, _, ts, shows, shown⟩ := shown
      rw [List.forall_mem_cons] at each
      have others := ih each.2 shown (next + 1)
      have last := others.bind (f := fun hashes => .done (.ok (T.hash ix.hasher :: hashes)))
        (.whole (List.forall_mem_nil _) rfl)
      rw [List.append_nil, List.append_nil] at last
      exact (each.1 T t next read shows).bind last

/-- The trace of a tree reaches the hash of the tree, or the first node below the levels allowed. -/
theorem endsAt_trace {levels depth : Nat} {a : N} {T : Tree} {t : Outline N} {pos : Position}
    (reach : pos.depth + levels = depth) (reads : ix.reader.Reads a T)
    (shown : ix.reader.Shows a t) :
    ix.EndsAt depth (t.preorder pos) (T.entries ix.hasher) (T.hash ix.hasher)
      (ix.trace levels a pos) := by
  induction levels generalizing a T t pos with
  | zero =>
      obtain ⟨a, children⟩ := t
      refine .cut (o := ⟨a, pos, children.length⟩) ?_ rfl (List.nil_subset _)
      rw [Outline.preorder, List.find?_cons_of_pos (by simpa using reach)]
  | succ levels ih =>
      cases reads with
      | @node _ l below Ts payload found all =>
          obtain ⟨ts, rfl, shownBelow⟩ := shown.exists_children found
          -- the node is entered, its children are traced, and the node is closed
          have opened : ix.EndsAt depth [⟨a, pos, ts.length⟩] [] below
              (.reading pos (ix.reader.children a)) := by
            refine .whole ?_ (Trace.reading_eq_ok.mpr ⟨found, rfl⟩)
            rw [List.forall_mem_singleton]
            show pos.depth < depth
            omega
          have each (a : N) (_ : a ∈ below) (T : Tree) (t : Outline N) (i : Nat) :
              ix.reader.Reads a T → ix.reader.Shows a t →
                ix.EndsAt depth (t.preorder (pos.child i)) (T.entries ix.hasher)
                  (T.hash ix.hasher) (ix.trace levels a (pos.child i)) :=
            ih (by rw [Position.depth_child]; omega)
          have closed : ix.EndsAt depth [] [⟨l, Ts.map (Tree.hash ix.hasher)⟩]
              ((Tree.node l Ts).hash ix.hasher)
              ((Trace.reading pos (ix.reader.payload a)).bind fun payload =>
                (Trace.labelling pos payload).bind fun l =>
                  .closing ix.hasher ⟨l, Ts.map (Tree.hash ix.hasher)⟩) := by
            refine .whole (List.forall_mem_nil _) ?_
            rw [Tree.hash, Tree.hashes_eq_map]
            exact Trace.bind_eq_ok.mpr ⟨l.payload, [], _, Trace.reading_eq_ok.mpr ⟨payload, rfl⟩,
              labelling_closing ix.hasher pos l _, rfl⟩
          have ends := opened.bind (f := fun children =>
            (traceEach (ix.trace levels) pos children 0).bind fun hashes =>
              (Trace.reading pos (ix.reader.payload a)).bind fun payload =>
                (Trace.labelling pos payload).bind fun l => .closing ix.hasher ⟨l, hashes⟩)
            ((endsAt_traceEach each all shownBelow 0).bind closed)
          rw [List.append_nil] at ends
          rw [Outline.preorder, Tree.entries_node, trace]
          exact ends

/-! ## Calls under a limit -/

/-- Whether a call depends on its depth limit in one way only.  What succeeds under some limit is
the same under every greater one; under a smaller one the call succeeds exactly if no node lies
deeper, and otherwise it names the first node in pre-order that lies one level deeper. -/
structure LimitExact {α : Type} (r : NodeReader N) (root : N)
    (call : Nat → Except Failure α) : Prop where
  grows : ∀ {d d' done}, d ≤ d' → call d = .ok done → call d' = .ok done
  sharp : ∀ {d' done'}, call d' = .ok done' → ∃ t, r.Shows root t ∧ ∀ d ≤ d',
    ((∃ done, call d = .ok done) ↔ ∀ o ∈ t.preorder .root, o.pos.depth ≤ d) ∧
      ((¬ ∀ o ∈ t.preorder .root, o.pos.depth ≤ d) →
        ∃ o, (t.preorder .root).find? (fun o => o.pos.depth = d + 1) = some o ∧
          call d = .error (.tooDeep o.pos d))

namespace LimitExact

variable {α β : Type} {r : NodeReader N} {root : N} {call : Nat → Except Failure α}

theorem of_agrees {other : Nat → Except Failure α} (limit : LimitExact r root call)
    (accepts : ∀ d done, other d = .ok done ↔ call d = .ok done)
    (rejects : ∀ d e, call d = .error (.rejected e) → other d = .error (.rejected e)) :
    LimitExact r root other where
  grows := by
    intro d d' done le
    rw [accepts, accepts]
    exact limit.grows le
  sharp := by
    intro d' done' ends
    obtain ⟨t, shown, all⟩ := limit.sharp ((accepts d' done').mp ends)
    refine ⟨t, shown, ?_⟩
    intro d le
    simp only [accepts]
    obtain ⟨within, tooDeep⟩ := all d le
    refine ⟨within, ?_⟩
    intro deep
    obtain ⟨o, found, fails⟩ := tooDeep deep
    exact ⟨o, found, rejects d _ fails⟩

theorem bind (limit : LimitExact r root call) (f : α → Except Failure β) :
    LimitExact r root fun d => (call d).bind f where
  grows := by
    intro d d' done le ends
    obtain ⟨a, first, next⟩ := bind_eq_ok_iff.mp ends
    exact bind_eq_ok_iff.mpr ⟨a, limit.grows le first, next⟩
  sharp := by
    intro d' done' ends
    obtain ⟨a, first, next⟩ := bind_eq_ok_iff.mp ends
    obtain ⟨t, shown, all⟩ := limit.sharp first
    refine ⟨t, shown, ?_⟩
    intro d le
    obtain ⟨within, tooDeep⟩ := all d le
    constructor
    · rw [← within]
      constructor
      · rintro ⟨done, ends⟩
        obtain ⟨a, first, -⟩ := bind_eq_ok_iff.mp ends
        exact ⟨a, first⟩
      · rintro ⟨a', first'⟩
        cases (limit.grows le first').symm.trans first
        exact ⟨done', bind_eq_ok_iff.mpr ⟨a, first', next⟩⟩
    · intro deep
      obtain ⟨o, found, fails⟩ := tooDeep deep
      refine ⟨o, found, ?_⟩
      rw [fails]
      rfl

end LimitExact

variable (ix)

theorem walk_of_reads {root : N} {T : Tree} {t : Outline N} {sub : Index}
    (reads : ix.reader.Reads root T) (shown : ix.reader.Shows root t)
    (alone : (∅ : Index).putAll ix.hasher (T.entries ix.hasher) = .ok sub) :
    ((∀ o ∈ t.preorder .root, o.pos.depth ≤ ix.maxDepth) ∧
        ix.walk root .root = .ok (T.hash ix.hasher, sub)) ∨
      ∃ o, (t.preorder .root).find? (fun o => o.pos.depth = ix.maxDepth + 1) = some o ∧
        ix.walk root .root = .error (.tooDeep o.pos ix.maxDepth) := by
  have ends : ix.EndsAt (ix.maxDepth + 1) (t.preorder .root) (T.entries ix.hasher)
      (T.hash ix.hasher) (ix.trace (ix.levelsAt .root) root .root) :=
    endsAt_trace (Nat.zero_add _) reads shown
  rw [walk_eq_commit]
  cases ends with
  | whole shallow trace =>
      exact .inl ⟨fun o mem => Nat.le_of_lt_succ (shallow o mem),
        Trace.commit_eq_ok.mpr ⟨_, trace, alone⟩⟩
  | @cut o found outcome closed =>
      have consistent := Index.putAll_empty_isOk_iff.mp ⟨sub, alone⟩
      have stored := Index.putAll_empty_isOk_iff.mpr (consistent.mono closed)
      exact .inr ⟨o, found, Trace.commit_eq_rejected.mpr ⟨outcome, stored⟩⟩

theorem limitExact_walk (split : Nat → Nat) (root : N) :
    LimitExact ix.reader root fun d => (ix.withLimits d (split d)).walk root .root where
  grows := by
    intro d d' ⟨h, sub⟩ le ends
    obtain ⟨T, ⟨reads, within⟩, hash, alone⟩ := walk_eq_ok_iff.mp ends
    exact walk_eq_ok_iff.mpr ⟨T, ⟨reads, within.mono (Nat.succ_le_succ le)⟩, hash, alone⟩
  sharp := by
    intro d' ⟨h, sub⟩ ends
    obtain ⟨T, ⟨reads, -⟩, -, alone⟩ := walk_eq_ok_iff.mp ends
    obtain ⟨t, shown⟩ := reads.exists_shows
    refine ⟨t, shown, ?_⟩
    intro d _
    rcases (ix.withLimits d (split d)).walk_of_reads reads shown alone with
      ⟨within, walked⟩ | ⟨o, found, fails⟩
    · exact ⟨⟨fun _ => within, fun _ => ⟨_, walked⟩⟩, fun deep => absurd within deep⟩
    · refine ⟨⟨?_, ?_⟩, fun _ => ⟨o, found, fails⟩⟩
      · rintro ⟨done, ends⟩
        cases fails.symm.trans ends
      · intro within
        have reached := List.find?_some found
        rw [decide_eq_true_eq] at reached
        exact absurd (within o (List.mem_of_find?_eq_some found))
          (Nat.not_le.mpr (reached ▸ Nat.lt_succ_self d))

/-- The depth limit is exact and has no other effect, in the walk and in a call on an index, whether
the tree is split or not, and wherever the split lies under each limit. -/
theorem limitExact_calls (split : Nat → Nat) (root : N) (m : Index) :
    LimitExact ix.reader root (fun d => (ix.withLimits d (split d)).walk root .root) ∧
      LimitExact ix.reader root (fun d => (ix.withLimits d (split d)).walkSplit root) ∧
      LimitExact ix.reader root (fun d => (ix.withLimits d (split d)).insert root m) ∧
      LimitExact ix.reader root (fun d => (ix.withLimits d (split d)).insertSplit root m) := by
  have walk := ix.limitExact_walk split root
  have walkSplit : LimitExact ix.reader root fun d =>
      (ix.withLimits d (split d)).walkSplit root :=
    walk.of_agrees (fun d _ => (ix.withLimits d (split d)).walkSplit_eq_ok_iff)
      fun d _ => (ix.withLimits d (split d)).walkSplit_eq_rejected
  exact ⟨walk, walkSplit, walk.bind (mergeWalked · m), walkSplit.bind (mergeWalked · m)⟩

/-- The leaves of the sample lie one level below the root.  The limit decides, although the split
would lie deeper. -/
theorem limitExact_calls_spelling :
    (∃ done, (Sample.Spelling.indexer.withLimits 1 2).walkSplit 0 = .ok done) ∧
      (Sample.Spelling.indexer.withLimits 0 2).walkSplit 0 =
        .error (.tooDeep (.ofIndices [0]) 0) := by
  obtain ⟨-, limit, -⟩ := Sample.Spelling.indexer.limitExact_calls (fun _ => 2) 0 ∅
  have ends : ((Sample.Spelling.indexer.withLimits 1 2).walkDirect 0 .root).toBool = true := by
    decide +kernel
  obtain ⟨done, walked⟩ := exists_eq_ok ends
  rw [← walk_eq_walkDirect, ← walkSplit_eq_ok_iff] at walked
  obtain ⟨t, shown, all⟩ := limit.sharp walked
  have sample : Sample.Spelling.reader.Shows 0 (.node 0 [.node 1 [], .node 2 []]) :=
    .node rfl (.cons (.node rfl .nil) (.cons (.node rfl .nil) .nil))
  obtain rfl := shown.unique sample
  obtain ⟨o, found, fails⟩ := (all 0 (Nat.zero_le 1)).2 (by decide)
  cases found
  exact ⟨⟨done, walked⟩, fails⟩

end SubtermIndex.Indexer
