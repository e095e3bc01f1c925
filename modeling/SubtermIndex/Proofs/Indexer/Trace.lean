/-
# `SubtermIndex.Proofs.Indexer.Trace` — a visit, apart from the index it adds to

What a visit reads and closes does not depend on the index: that decides only whether the closed
entries can be put into it.  A `Trace` is a visit without an index, that is the entries closed on
the way to an outcome, and `visit_eq_commit` says that a visit puts the entries and then has this
outcome.

A trace reaches the hash of a tree exactly when a tree is read within the depth limit, and it
closes exactly the sub-trees (`trace_eq_ok_iff`).  Whatever else becomes of it, only sub-trees are
closed (`exists_subTree_of_mem_closed`).

Of an error and a collision the one comes first that is met first.  A trace keeps both: the error
is its outcome, and the collision shows when its entries are put.  This is why a trace goes on
where a visit would have stopped at a collision.
-/
import SubtermIndex.Indexer.Direct
import SubtermIndex.Proofs.Index.Put
import SubtermIndex.Proofs.NodeReader

namespace SubtermIndex

/-- An outcome, and the entries that are closed on the way to it. -/
@[ext]
structure Trace (α : Type) where
  closed : List Entry
  outcome : Except TreeError α

namespace Trace

variable {α β : Type}

def done (outcome : Except TreeError α) : Trace α := ⟨[], outcome⟩

def bind (t : Trace α) (f : α → Trace β) : Trace β :=
  match t.outcome with
  | .error e => ⟨t.closed, .error e⟩
  | .ok a => ⟨t.closed ++ (f a).closed, (f a).outcome⟩

/-- A reading of the node at `pos`. -/
def reading (pos : Position) (read : Except TreeError α) : Trace α :=
  done (read.mapError (·.moveTo pos))

/-- The encoding of the payload at `pos`. -/
def labelling (pos : Position) (payload : Payload) : Trace Label :=
  done ((Label.of payload).mapError fun cause => .malformed pos (.notEncodable cause))

def closing (H : Hasher) (e : Entry) : Trace NodeHash := ⟨[e], .ok (e.hash H)⟩

/-- Puts what is closed into an index, and then has the outcome. -/
def commit (H : Hasher) (t : Trace α) (m : Index) : Except Failure (α × Index) :=
  match m.putAll H t.closed with
  | .error h => .error (.storeConflict h)
  | .ok m =>
      match t.outcome with
      | .error e => .error (.rejected e)
      | .ok a => .ok (a, m)

theorem bind_of_ok {t : Trace α} {a : α} (h : t.outcome = .ok a) (f : α → Trace β) :
    t.bind f = ⟨t.closed ++ (f a).closed, (f a).outcome⟩ := by
  rw [bind, h]

theorem bind_of_error {t : Trace α} {e : TreeError} (h : t.outcome = .error e) (f : α → Trace β) :
    t.bind f = ⟨t.closed, .error e⟩ := by
  rw [bind, h]

theorem closed_subset_bind (t : Trace α) (f : α → Trace β) : t.closed ⊆ (t.bind f).closed := by
  cases outcome : t.outcome with
  | error e =>
      rw [bind_of_error outcome]
      exact List.Subset.refl _
  | ok a =>
      rw [bind_of_ok outcome]
      exact List.subset_append_left _ _

theorem done_bind (a : α) (f : α → Trace β) : (done (.ok a)).bind f = f a := rfl

theorem bind_done (t : Trace α) : (t.bind fun a => .done (.ok a)) = t := by
  obtain ⟨closed, outcome⟩ := t
  cases outcome with
  | error e => rfl
  | ok a => simp [bind, done]

theorem bind_assoc {γ : Type} (t : Trace α) (f : α → Trace β) (g : β → Trace γ) :
    (t.bind f).bind g = t.bind fun a => (f a).bind g := by
  cases outcome : t.outcome with
  | error e => rw [bind_of_error outcome, bind_of_error outcome, bind_of_error rfl]
  | ok a =>
      rw [bind_of_ok outcome, bind_of_ok outcome]
      cases behind : (f a).outcome with
      | error e => rw [bind_of_error behind, bind_of_error rfl]
      | ok b => rw [bind_of_ok behind, bind_of_ok rfl, List.append_assoc]

theorem commit_bind (H : Hasher) (t : Trace α) (f : α → Trace β) (m : Index) :
    (t.bind f).commit H m = (t.commit H m).bind fun done => (f done.1).commit H done.2 := by
  obtain ⟨closed, outcome⟩ := t
  cases outcome with
  | error e =>
      show (match m.putAll H closed with | .error h => _ | .ok m => _) = _
      rw [commit]
      cases m.putAll H closed <;> rfl
  | ok a =>
      show (match m.putAll H (closed ++ (f a).closed) with | .error h => _ | .ok m => _) = _
      rw [Index.putAll_append]
      rw [commit]
      cases m.putAll H closed <;> rfl

theorem commit_reading (H : Hasher) (pos : Position) (read : Except TreeError α) (m : Index) :
    (reading pos read).commit H m = (Failure.ofReading pos read).map (·, m) := by
  cases read <;> rfl

theorem commit_eq_ok {H : Hasher} {t : Trace α} {m m' : Index} {a : α} :
    t.commit H m = .ok (a, m') ↔ ∃ E, t = ⟨E, .ok a⟩ ∧ m.putAll H E = .ok m' := by
  obtain ⟨closed, outcome⟩ := t
  rw [commit]
  cases all : m.putAll H closed <;> cases outcome <;> simp [all]

theorem commit_eq_rejected {H : Hasher} {t : Trace α} {m : Index} {e : TreeError} :
    t.commit H m = .error (.rejected e) ↔
      t.outcome = .error e ∧ ∃ m', m.putAll H t.closed = .ok m' := by
  obtain ⟨closed, outcome⟩ := t
  rw [commit]
  cases m.putAll H closed <;> cases outcome <;> simp_all

theorem bind_eq_ok {t : Trace α} {f : α → Trace β} {E : List Entry} {b : β} :
    t.bind f = ⟨E, .ok b⟩ ↔
      ∃ a E₁ E₂, t = ⟨E₁, .ok a⟩ ∧ f a = ⟨E₂, .ok b⟩ ∧ E = E₁ ++ E₂ := by
  obtain ⟨closed, outcome⟩ := t
  cases outcome with
  | error e => simp [bind]
  | ok a =>
      constructor
      · intro h
        cases h' : f a with
        | mk closed' outcome' =>
            simp only [bind, h', mk.injEq] at h
            obtain ⟨rfl, rfl⟩ := h
            exact ⟨a, closed, closed', rfl, h', rfl⟩
      · rintro ⟨a', E₁, E₂, same, h', rfl⟩
        cases same
        simp [bind, h']

theorem mem_closed_bind {t : Trace α} {f : α → Trace β} {e : Entry}
    (h : e ∈ (t.bind f).closed) : e ∈ t.closed ∨ ∃ a E, t = ⟨E, .ok a⟩ ∧ e ∈ (f a).closed := by
  obtain ⟨closed, outcome⟩ := t
  cases outcome with
  | error _ => exact .inl h
  | ok a =>
      rcases List.mem_append.mp h with h | h
      · exact .inl h
      · exact .inr ⟨a, closed, rfl, h⟩

theorem mem_closed_bind_done {outcome : Except TreeError α} {f : α → Trace β} {e : Entry}
    (h : e ∈ ((done outcome).bind f).closed) :
    ∃ a, done outcome = ⟨[], .ok a⟩ ∧ e ∈ (f a).closed := by
  cases outcome with
  | error _ => exact absurd h List.not_mem_nil
  | ok a => exact ⟨a, rfl, h⟩

theorem reading_eq_ok {pos : Position} {read : Except TreeError α} {E : List Entry} {a : α} :
    reading pos read = ⟨E, .ok a⟩ ↔ read = .ok a ∧ E = [] := by
  cases read <;> simp [reading, done, Except.mapError, eq_comm, and_comm]

theorem labelling_eq_ok {pos : Position} {payload : Payload} {E : List Entry} {l : Label} :
    labelling pos payload = ⟨E, .ok l⟩ ↔ l.payload = payload ∧ E = [] := by
  rw [← Label.of_eq_ok]
  rw [labelling]
  cases Label.of payload <;> simp [done, Except.mapError, eq_comm, and_comm]

end Trace

namespace Indexer

variable {N : Type} (ix : Indexer N)

/-! ## Visits as traces

A visit of children is a row of traces, one after another (`traceEach`), and a visit of a node
closes one entry behind them. -/

def traceEach (trace : N → Position → Trace NodeHash) (pos : Position) :
    List N → (next : Nat) → Trace (List NodeHash)
  | [], _ => .done (.ok [])
  | child :: rest, next =>
      (trace child (pos.child next)).bind fun hash =>
        (traceEach trace pos rest (next + 1)).bind fun hashes => .done (.ok (hash :: hashes))

/-- What a visit of `node` reads and closes. -/
def trace : (levels : Nat) → N → Position → Trace NodeHash
  | 0, _, pos => .done (.error (.malformed pos (.tooDeep ix.maxDepth)))
  | levels + 1, node, pos =>
      (Trace.reading pos (ix.reader.children node)).bind fun children =>
        (traceEach (trace levels) pos children 0).bind fun hashes =>
          (Trace.reading pos (ix.reader.payload node)).bind fun payload =>
            (Trace.labelling pos payload).bind fun label => .closing ix.hasher ⟨label, hashes⟩

theorem length_of_traceEach {trace : N → Position → Trace NodeHash} {pos : Position}
    {children : List N} {next : Nat} {E : List Entry} {hashes : List NodeHash}
    (h : traceEach trace pos children next = ⟨E, .ok hashes⟩) :
    hashes.length = children.length := by
  induction children generalizing next E hashes with
  | nil =>
      cases h
      rfl
  | cons child rest ih =>
      obtain ⟨hash, _, _, -, behind, -⟩ := Trace.bind_eq_ok.mp h
      obtain ⟨hashes', _, _, others, last, -⟩ := Trace.bind_eq_ok.mp behind
      cases last
      rw [List.length_cons, ih others, List.length_cons]

theorem visitChildren_eq_commit {H : Hasher}
    {visit : N → Position → Index → Except Failure (NodeHash × Index)}
    {trace : N → Position → Trace NodeHash}
    (same : ∀ child pos m, visit child pos m = (trace child pos).commit H m) (pos : Position)
    (children : List N) (next : Nat) (hashes : List NodeHash) (m : Index) :
    visitChildren visit pos children next hashes m =
      ((traceEach trace pos children next).commit H m).map fun done =>
        (hashes.reverse ++ done.1, done.2) := by
  induction children generalizing next hashes m with
  | nil =>
      show _ = Except.ok (hashes.reverse ++ [], m)
      rw [List.append_nil]
      rfl
  | cons child rest ih =>
      rw [visitChildren, same, traceEach, Trace.commit_bind]
      cases (trace child (pos.child next)).commit H m with
      | error failure => rfl
      | ok done =>
          obtain ⟨hash, m⟩ := done
          show visitChildren visit pos rest (next + 1) (hash :: hashes) m = _
          rw [ih]
          simp only [Except.bind, Trace.commit_bind]
          cases (traceEach trace pos rest (next + 1)).commit H m with
          | error failure => rfl
          | ok done =>
              show Except.ok ((hash :: hashes).reverse ++ done.1, done.2) = _
              rw [List.reverse_cons, List.append_assoc]
              rfl

/-- Closing a node whose payload has an encoding puts one entry. -/
theorem close_entry (e : Entry) (m : Index) (pos : Position) :
    (ix.close e.label.payload e.children.length e.children m pos).map
        (fun done => (done.hash, done.staging)) =
      (Trace.closing ix.hasher e).commit ix.hasher m := by
  have shape : ix.hasher.shapeOf e.label.payload = .ok (e.shape ix.hasher) := e.shapeOf ix.hasher
  have node : Node.ofHashes e.label.payload e.children.length e.children = .ok e.node := by
    simp [Node.ofHashes, Entry.node]
  have hash : ix.hasher.nodeHash e.record = e.hash ix.hasher := rfl
  have children : e.node.children = e.children := rfl
  rw [close]
  rw [shape, node]
  simp only [Failure.ofEncoding, Except.mapError, bind, Except.bind, e.encodedRecord, hash,
    children]
  rw [Trace.commit, Trace.closing]
  simp only [Index.putAll, Index.put]
  cases (m.addEdges (e.hash ix.hasher) e.children).store? (e.hash ix.hasher) e.node with
  | none => rfl
  | some stored => rfl

theorem close_eq_commit (payload : Payload) {arity : Nat} {hashes : List NodeHash}
    (complete : hashes.length = arity) (m : Index) (pos : Position) :
    (ix.close payload arity hashes m pos).map (fun done => (done.hash, done.staging)) =
      ((Trace.labelling pos payload).bind fun label =>
        .closing ix.hasher ⟨label, hashes⟩).commit ix.hasher m := by
  subst complete
  cases label : Label.of payload with
  | error cause =>
      have shape : ix.hasher.shapeOf payload = .error cause := by
        rw [Hasher.shapeOf, Label.of_eq_error.mp label]
        rfl
      rw [close]
      rw [shape, Trace.labelling, label]
      rfl
  | ok l =>
      obtain rfl := Label.of_eq_ok.mp label
      rw [Trace.labelling, label]
      exact ix.close_entry ⟨l, hashes⟩ m pos

/-- A visit puts what is closed and then has the outcome. -/
theorem visit_eq_commit (levels : Nat) (node : N) (pos : Position) (m : Index) :
    ix.visit levels node pos m = (ix.trace levels node pos).commit ix.hasher m := by
  induction levels generalizing node pos m with
  | zero => rfl
  | succ levels ih =>
      rw [visit, trace, Trace.commit_bind, Trace.commit_reading]
      show Except.bind (Failure.ofReading pos (ix.reader.children node)) _ = _
      cases Failure.ofReading pos (ix.reader.children node) with
      | error failure => rfl
      | ok children =>
          show Except.bind (visitChildren _ pos children 0 [] m) _ = Trace.commit _ _ m
          rw [visitChildren_eq_commit ih, Trace.commit_bind]
          cases committed : (traceEach (ix.trace levels) pos children 0).commit ix.hasher m with
          | error failure => rfl
          | ok visited =>
              obtain ⟨hashes, m⟩ := visited
              obtain ⟨E, each, -⟩ := Trace.commit_eq_ok.mp committed
              have complete := length_of_traceEach each
              show Except.bind (Failure.ofReading pos (ix.reader.payload node)) _ =
                Trace.commit _ _ m
              rw [Trace.commit_bind, Trace.commit_reading]
              cases Failure.ofReading pos (ix.reader.payload node) with
              | error failure => rfl
              | ok payload => exact ix.close_eq_commit payload complete m pos

/-! ## Traces and trees -/

theorem traceEach_eq_ok_iff {trace : N → Position → Trace NodeHash} {R : N → Tree → Prop}
    {pos : Position} {children : List N} {H : Hasher}
    (each : ∀ child ∈ children, ∀ pos E h, trace child pos = ⟨E, .ok h⟩ ↔
      ∃ T, R child T ∧ E = T.entries H ∧ h = T.hash H)
    (next : Nat) (E : List Entry) (hashes : List NodeHash) :
    traceEach trace pos children next = ⟨E, .ok hashes⟩ ↔
      ∃ Ts, List.Forall₂ R children Ts ∧ E = Ts.flatMap (Tree.entries H) ∧
        hashes = Ts.map (Tree.hash H) := by
  induction children generalizing next E hashes with
  | nil =>
      simp only [List.forall₂_nil_left_iff, exists_eq_left, List.flatMap_nil, List.map_nil]
      show Trace.mk [] (Except.ok []) = _ ↔ _
      simp [eq_comm]
  | cons child rest ih =>
      rw [List.forall_mem_cons] at each
      have ih := ih each.2
      -- the entries of the first child stand before those of the others
      rw [traceEach, Trace.bind_eq_ok]
      constructor
      · rintro ⟨h, E₁, E₂, first, behind, rfl⟩
        obtain ⟨hs, E₃, E₄, others, last, rfl⟩ := Trace.bind_eq_ok.mp behind
        cases last
        obtain ⟨T, read, rfl, rfl⟩ := (each.1 _ _ _).mp first
        obtain ⟨Ts, reads, rfl, rfl⟩ := (ih _ _ _).mp others
        exact ⟨T :: Ts, .cons read reads, by simp, rfl⟩
      · rintro ⟨Ts, reads, rfl, rfl⟩
        cases reads with
        | @cons _ T _ Ts read reads =>
            refine ⟨T.hash H, T.entries H, Ts.flatMap (Tree.entries H),
              (each.1 _ _ _).mpr ⟨T, read, rfl, rfl⟩, ?_, rfl⟩
            refine Trace.bind_eq_ok.mpr ⟨Ts.map (Tree.hash H), Ts.flatMap (Tree.entries H), [],
              (ih _ _ _).mpr ⟨Ts, reads, rfl, rfl⟩, rfl, by simp⟩

theorem labelling_closing (H : Hasher) (pos : Position) (l : Label) (hashes : List NodeHash) :
    (Trace.labelling pos l.payload).bind (fun l => .closing H ⟨l, hashes⟩) =
      ⟨[⟨l, hashes⟩], .ok (Entry.hash H ⟨l, hashes⟩)⟩ :=
  Trace.bind_eq_ok.mpr ⟨l, [], _, Trace.labelling_eq_ok.mpr ⟨rfl, rfl⟩, rfl, rfl⟩

theorem trace_succ_eq_ok_iff {levels : Nat} {node : N} {pos : Position} {E : List Entry}
    {h : NodeHash} :
    ix.trace (levels + 1) node pos = ⟨E, .ok h⟩ ↔
      ∃ children E' hashes l, ix.reader.children node = .ok children ∧
        traceEach (ix.trace levels) pos children 0 = ⟨E', .ok hashes⟩ ∧
        ix.reader.payload node = .ok l.payload ∧
        E = E' ++ [⟨l, hashes⟩] ∧ h = Entry.hash ix.hasher ⟨l, hashes⟩ := by
  rw [trace, Trace.bind_eq_ok]
  constructor
  · rintro ⟨children, E₁, E₂, opened, visited, rfl⟩
    obtain ⟨hashes, E', E₃, each, read, rfl⟩ := Trace.bind_eq_ok.mp visited
    obtain ⟨payload, E₄, E₅, got', labelled, rfl⟩ := Trace.bind_eq_ok.mp read
    obtain ⟨l, E₆, E₇, label, closed, rfl⟩ := Trace.bind_eq_ok.mp labelled
    obtain ⟨found, rfl⟩ := Trace.reading_eq_ok.mp opened
    obtain ⟨got, rfl⟩ := Trace.reading_eq_ok.mp got'
    obtain ⟨rfl, rfl⟩ := Trace.labelling_eq_ok.mp label
    cases closed
    exact ⟨children, E', hashes, l, found, each, got, rfl, rfl⟩
  · rintro ⟨children, E', hashes, l, found, each, got, rfl, rfl⟩
    have closed := labelling_closing ix.hasher pos l hashes
    refine ⟨children, [], _, Trace.reading_eq_ok.mpr ⟨found, rfl⟩, ?_, rfl⟩
    refine Trace.bind_eq_ok.mpr ⟨hashes, E', _, each, ?_, rfl⟩
    exact Trace.bind_eq_ok.mpr ⟨l.payload, [], _, Trace.reading_eq_ok.mpr ⟨got, rfl⟩, closed, rfl⟩

/-- A trace reaches a hash exactly when a tree is read within the levels allowed.  Then it is
the hash of the tree, and the sub-trees are what is closed. -/
theorem trace_eq_ok_iff {levels : Nat} {node : N} {pos : Position} {E : List Entry}
    {h : NodeHash} :
    ix.trace levels node pos = ⟨E, .ok h⟩ ↔
      ∃ T, (ix.reader.Reads node T ∧ T.Within levels) ∧ E = T.entries ix.hasher ∧
        h = T.hash ix.hasher := by
  induction levels generalizing node pos E h with
  | zero => simp [trace, Trace.done, Tree.Within]
  | succ levels ih =>
      have one (child : N) (pos : Position) (E : List Entry) (h : NodeHash) :
          ix.trace levels child pos = ⟨E, .ok h⟩ ↔
            ∃ T, (ix.reader.Reads child T ∧ T.Within levels) ∧ E = T.entries ix.hasher ∧
              h = T.hash ix.hasher := ih
      have each (children : List N) := @traceEach_eq_ok_iff N (ix.trace levels) _ pos children
        ix.hasher (fun child _ => one child) 0
      rw [trace_succ_eq_ok_iff]
      constructor
      · rintro ⟨children, E', hashes, l, found, visited, payload, rfl, rfl⟩
        obtain ⟨Ts, reads, rfl, rfl⟩ := (each children _ _).mp visited
        refine ⟨.node l Ts, ⟨.node payload found (reads.imp fun _ _ h => h.1), ?_⟩, ?_, ?_⟩
        · intro T hT
          obtain ⟨_, _, _, within⟩ := exists_of_forall₂_left reads.flip hT
          exact within
        · rw [Tree.entries_node]
        · rw [Tree.hash, Tree.hashes_eq_map]
      · rintro ⟨T, ⟨read, within⟩, rfl, rfl⟩
        cases read with
        | @node _ l children Ts payload found all =>
            refine ⟨children, _, _, l, found, (each children _ _).mpr ⟨Ts, ?_, rfl, rfl⟩, payload,
              Tree.entries_node .., by rw [Tree.hash, Tree.hashes_eq_map]⟩
            exact forall₂_imp_of_mem all fun _ _ T hT read => ⟨read, within T hT⟩

theorem mem_closed_traceEach {trace : N → Position → Trace NodeHash} {pos : Position}
    {children : List N} {next : Nat} {e : Entry}
    (h : e ∈ (traceEach trace pos children next).closed) :
    ∃ child ∈ children, ∃ pos, e ∈ (trace child pos).closed := by
  induction children generalizing next with
  | nil => simp [traceEach, Trace.done] at h
  | cons child rest ih =>
      rcases Trace.mem_closed_bind h with first | ⟨hash, _, -, behind⟩
      · exact ⟨child, List.mem_cons_self, _, first⟩
      · rcases Trace.mem_closed_bind behind with others | ⟨hashes, _, -, last⟩
        · obtain ⟨child, mem, pos, closed⟩ := ih others
          exact ⟨child, List.mem_cons_of_mem _ mem, pos, closed⟩
        · simp [Trace.done] at last

/-- Whatever becomes of a trace, it closes nothing but sub-trees. -/
theorem exists_subTree_of_mem_closed {levels : Nat} {node : N} {pos : Position} {e : Entry}
    (h : e ∈ (ix.trace levels node pos).closed) :
    ∃ A, ix.reader.SubTree node A ∧ A.entry ix.hasher = e := by
  induction levels generalizing node pos with
  | zero => simp [trace, Trace.done] at h
  | succ levels ih =>
      rw [trace] at h
      obtain ⟨children, opened, visited⟩ := Trace.mem_closed_bind_done h
      obtain ⟨found, -⟩ := Trace.reading_eq_ok.mp opened
      rcases Trace.mem_closed_bind visited with below | ⟨hashes, E', each, read⟩
      · obtain ⟨child, mem, pos', below⟩ := mem_closed_traceEach below
        obtain ⟨A, sub, rfl⟩ := ih below
        exact ⟨A, .of_child found mem sub, rfl⟩
      obtain ⟨payload, got', labelled⟩ := Trace.mem_closed_bind_done read
      obtain ⟨got, -⟩ := Trace.reading_eq_ok.mp got'
      obtain ⟨l, label, closed⟩ := Trace.mem_closed_bind_done labelled
      obtain ⟨rfl, -⟩ := Trace.labelling_eq_ok.mp label
      -- the node itself is closed, so that a whole tree has been read
      obtain rfl : e = ⟨l, hashes⟩ := List.mem_singleton.mp closed
      have whole := ix.trace_succ_eq_ok_iff.mpr
        ⟨children, E', hashes, l, found, each, got, rfl, rfl⟩
      obtain ⟨T, ⟨reads, -⟩, entries, -⟩ := ix.trace_eq_ok_iff.mp whole
      have mem : Entry.mk l hashes ∈ T.entries ix.hasher := by
        rw [← entries]
        exact List.mem_append_right _ (List.mem_singleton_self _)
      obtain ⟨A, hA, same⟩ := Tree.mem_entries.mp mem
      exact ⟨A, reads.subTree_of_mem hA, same⟩

end Indexer

end SubtermIndex
