/-
# `SubtermIndex.Proofs.Indexer.Projections` — a call sees nothing but the two projections

Two kinds of nodes may have nothing in common.  If a relation between them is such that related
nodes show payloads that are encoded alike and children that are related again, or fail with the
same error, then whatever is done with related nodes ends alike: the walk, the frontier of a split
walk and its join, and the calls on an index, in every mode.  Nothing is asked of nodes that no
call reads, and trees may be infinite.

The two drafts that come of it spell payloads as their readers do; so all that is kept from step
to step is that they have the same contents.

There is one lemma for each part of a call, and each says that the two computations end alike:
with results that are related, or with the same failure.  The relation of the results is equality
of hashes, and for drafts and indexes that of contents.
-/
import SubtermIndex.Proofs.Index.Alike
import SubtermIndex.Proofs.Index.Fingerprint

namespace SubtermIndex

open Cbor Std

variable {A B : Type}

/-- Whether two readers show the same of related nodes: payloads that are encoded alike, and
children that are as many and related in order, or the same errors. -/
structure NodeReader.Agrees (r : NodeReader A) (r' : NodeReader B) (R : A → B → Prop) : Prop where
  payload : ∀ a b, R a b →
    EndAlike (fun p q : Payload => encode p.toValue = encode q.toValue) (r.payload a) (r'.payload b)
  children : ∀ a b, R a b → EndAlike (List.Forall₂ R) (r.children a) (r'.children b)

namespace Failure

variable {α β : Type} {R : α → β → Prop}

theorem endAlike_ofReading {x : Except TreeError α} {y : Except TreeError β} (pos : Position)
    (h : EndAlike R x y) : EndAlike R (ofReading pos x) (ofReading pos y) := by
  cases h with
  | ok related => exact .ok related
  | error e => exact .error _

theorem endAlike_ofMerge {x : Except NodeHash α} {y : Except NodeHash β} (h : EndAlike R x y) :
    EndAlike R (ofMerge x) (ofMerge y) := by
  cases h with
  | ok related => exact .ok related
  | error e => exact .error _

end Failure

namespace Indexer

def withReader (ix : Indexer A) (r : NodeReader B) : Indexer B :=
  { reader := r, hasher := ix.hasher, maxDepth := ix.maxDepth, splitDepth := ix.splitDepth }

variable {r' : NodeReader B} {R : A → B → Prop} (ix : Indexer A)

/-! ## One node -/

theorem endAlike_stored {a b : Option (Bool × Index)} (h : NodeHash) (s : Shape) :
    Option.Rel (EqWith Index.SameContents) a b →
    EndAlike (fun d d' : Closed => d.hash = d'.hash ∧ d.staging.SameContents d'.staging)
      (match a with
        | none => .error (Failure.storeConflict h)
        | some (isNew, staging) => .ok ⟨h, s, isNew, staging.addShape s h⟩)
      (match b with
        | none => .error (Failure.storeConflict h)
        | some (isNew, staging) => .ok ⟨h, s, isNew, staging.addShape s h⟩) := by
  intro stored
  cases stored with
  | none => exact .error _
  | some related => exact .ok ⟨rfl, related.2.addShape s h⟩

/-- Payloads that are encoded alike are closed alike. -/
theorem endAlike_close {p q : Payload} (alike : encode p.toValue = encode q.toValue) (arity : Nat)
    (hashes : List NodeHash) {m m' : Index} (same : m.SameContents m') (pos : Position) :
    EndAlike (fun d d' : Closed => d.hash = d'.hash ∧ d.staging.SameContents d'.staging)
      (ix.close p arity hashes m pos) ((ix.withReader r').close q arity hashes m' pos) := by
  have shape : (ix.withReader r').hasher.shapeOf q = ix.hasher.shapeOf p := by
    rw [withReader, Hasher.shapeOf, Hasher.shapeOf, alike]
  rw [close, close, shape]
  cases code : encode p.toValue with
  | error cause =>
      rw [Hasher.shapeOf, code]
      exact .error _
  | ok code' =>
      have record : (Node.mk p hashes).encodedRecord = .ok (recordBytes code' hashes) :=
        Node.encodedRecord_eq_ok.mpr ⟨code', code, rfl⟩
      have record' : (Node.mk q hashes).encodedRecord = .ok (recordBytes code' hashes) :=
        Node.encodedRecord_eq_ok.mpr ⟨code', alike ▸ code, rfl⟩
      rw [Hasher.shapeOf, code, Node.ofHashes, Node.ofHashes]
      -- whether the hashes are complete does not depend on the payload
      split
      · exact .error _
      · split
        · exact .error _
        · simp only [Failure.ofEncoding, Except.map, Except.mapError, bind, Except.bind, record,
            record']
          exact endAlike_stored _ _ ((same.addEdges _ hashes).store? _ record record')

/-! ## Visits -/

theorem endAlike_visitChildren {σ τ : Type} {S : σ → τ → Prop}
    {visit : A → Position → σ → Except Failure (NodeHash × σ)}
    {visit' : B → Position → τ → Except Failure (NodeHash × τ)}
    (each : ∀ a b, R a b → ∀ pos s t, S s t →
      EndAlike (EqWith S) (visit a pos s) (visit' b pos t)) (pos : Position)
    {as : List A} {bs : List B} (related : List.Forall₂ R as bs) (next : Nat)
    (hashes : List NodeHash) {s : σ} {t : τ} (states : S s t) :
    EndAlike (EqWith S) (visitChildren visit pos as next hashes s)
      (visitChildren visit' pos bs next hashes t) := by
  induction related generalizing next hashes s t with
  | nil => exact .ok ⟨rfl, states⟩
  | @cons a b as bs first _ ih =>
      rw [visitChildren_cons, visitChildren_cons]
      refine (each a b first (pos.child next) s t states).bind ?_
      rintro ⟨hash, s⟩ ⟨_, t⟩ ⟨rfl, states⟩
      exact ih (next + 1) (hash :: hashes) states

theorem endAlike_childrenAt (agrees : ix.reader.Agrees r' R) {a : A} {b : B} (related : R a b)
    (pos : Position) :
    EndAlike (List.Forall₂ R) (ix.childrenAt a pos) ((ix.withReader r').childrenAt b pos) :=
  Failure.endAlike_ofReading pos (agrees.children a b related)

theorem endAlike_closeAt (agrees : ix.reader.Agrees r' R) {a : A} {b : B} (related : R a b)
    (arity : Nat) (hashes : List NodeHash) {m m' : Index} (same : m.SameContents m')
    (pos : Position) :
    EndAlike (EqWith Index.SameContents)
      ((ix.payloadAt a pos).bind fun payload =>
        (ix.close payload arity hashes m pos).map fun done => (done.hash, done.staging))
      (((ix.withReader r').payloadAt b pos).bind fun payload =>
        ((ix.withReader r').close payload arity hashes m' pos).map fun done =>
          (done.hash, done.staging)) := by
  refine (Failure.endAlike_ofReading pos (agrees.payload a b related)).bind ?_
  intro p q alike
  exact (ix.endAlike_close alike arity hashes same pos).map fun _ _ done => done

theorem endAlike_visit (agrees : ix.reader.Agrees r' R) (levels : Nat) (a : A) (b : B)
    (related : R a b) (pos : Position) (m m' : Index) (same : m.SameContents m') :
    EndAlike (EqWith Index.SameContents) (ix.visit levels a pos m)
      ((ix.withReader r').visit levels b pos m') := by
  induction levels generalizing a b pos m m' with
  | zero => exact .error _
  | succ levels ih =>
      refine (ix.endAlike_childrenAt agrees related pos).bind ?_
      intro as bs children
      rw [← children.length_eq]
      refine (endAlike_visitChildren ih pos children 0 [] same).bind ?_
      rintro ⟨hashes, m⟩ ⟨_, m'⟩ ⟨rfl, same⟩
      exact ix.endAlike_closeAt agrees related as.length hashes same pos

theorem endAlike_walk (agrees : ix.reader.Agrees r' R) {a : A} {b : B} (related : R a b)
    (origin : Position) :
    EndAlike (EqWith Index.SameContents) (ix.walk a origin) ((ix.withReader r').walk b origin) := by
  rw [walk_eq_walkDirect, walk_eq_walkDirect]
  exact ix.endAlike_visit agrees _ a b related origin ∅ ∅ (.refl ∅)

/-! ## Split walks -/

/-- Whether related nodes stand at one place. -/
def SamePlace (R : A → B → Prop) (x : A × Position) (y : B × Position) : Prop :=
  R x.1 y.1 ∧ x.2 = y.2

theorem collectEach_alike
    {visit : A → Position → List (A × Position) → Bool × List (A × Position)}
    {visit' : B → Position → List (B × Position) → Bool × List (B × Position)}
    (each : ∀ a b, R a b → ∀ pos found found', List.Forall₂ (SamePlace R) found found' →
      EqWith (List.Forall₂ (SamePlace R)) (visit a pos found) (visit' b pos found'))
    (pos : Position) {as : List A} {bs : List B} (related : List.Forall₂ R as bs) (next : Nat)
    {found : List (A × Position)} {found' : List (B × Position)}
    (places : List.Forall₂ (SamePlace R) found found') :
    EqWith (List.Forall₂ (SamePlace R)) (collectEach visit pos as next found)
      (collectEach visit' pos bs next found') := by
  induction related generalizing next found found' with
  | nil => exact ⟨rfl, places⟩
  | @cons a b as bs first _ ih =>
      rw [collectEach, collectEach]
      have one := each a b first (pos.child next) found found' places
      generalize visit a (pos.child next) found = x at one
      generalize visit' b (pos.child next) found' = y at one
      obtain ⟨complete, found⟩ := x
      obtain ⟨_, found'⟩ := y
      obtain ⟨rfl, places⟩ := one
      cases complete with
      | true => exact ih (next + 1) places
      | false => exact ⟨rfl, places⟩

theorem collect_alike (agrees : ix.reader.Agrees r' R) (levels : Nat) (a : A) (b : B)
    (related : R a b) (pos : Position) (found : List (A × Position)) (found' : List (B × Position))
    (places : List.Forall₂ (SamePlace R) found found') :
    EqWith (List.Forall₂ (SamePlace R)) (ix.collect levels a pos found)
      ((ix.withReader r').collect levels b pos found') := by
  induction levels generalizing a b pos found found' with
  | zero => exact ⟨rfl, .cons ⟨related, rfl⟩ places⟩
  | succ levels ih =>
      rw [collect, collect]
      by_cases deep : ix.maxDepth < pos.depth
      · rw [if_pos deep, if_pos (show (ix.withReader r').maxDepth < pos.depth from deep)]
        exact ⟨rfl, places⟩
      · rw [if_neg deep, if_neg (show ¬ (ix.withReader r').maxDepth < pos.depth from deep)]
        have children := agrees.children a b related
        have other : (ix.withReader r').reader.children b = r'.children b := rfl
        rw [other]
        generalize ix.reader.children a = as at children ⊢
        generalize r'.children b = bs at children ⊢
        cases children with
        | error e => exact ⟨rfl, places⟩
        | ok children => exact collectEach_alike ih pos children 0 places

theorem frontier_alike (agrees : ix.reader.Agrees r' R) {a : A} {b : B} (related : R a b) :
    List.Forall₂ (SamePlace R) (ix.frontier a) ((ix.withReader r').frontier b) := by
  have found := (ix.collect_alike agrees ix.splitDepth a b related .root [] [] .nil).2
  exact List.rel_reverse found

/-- A draft that a walk leaves has a record of every node. -/
theorem written_of_walk {root : A} {origin : Position} {done : NodeHash × Index}
    (walked : ix.walk root origin = .ok done) : done.2.Written := by
  rw [walk_eq_commit] at walked
  obtain ⟨E, -, all⟩ := Trace.commit_eq_ok.mp walked
  exact Index.written_empty.putAll all

/-- Whether two drafts have the same root and the same contents, and may be merged. -/
def SameDraft (x y : NodeHash × Index) : Prop := EqWith Index.SameContents x y ∧ x.2.Written

theorem endAlike_walkEntry (agrees : ix.reader.Agrees r' R) {x : A × Position} {y : B × Position}
    (place : SamePlace R x y) :
    EndAlike SameDraft (ix.walkEntry x) ((ix.withReader r').walkEntry y) := by
  obtain ⟨a, pos⟩ := x
  obtain ⟨b, _⟩ := y
  obtain ⟨related, rfl⟩ := place
  exact (ix.endAlike_walk agrees related pos).and_left fun _ walked => ix.written_of_walk walked

/-- Whether two joins have the same results to come, and the same contents so far. -/
structure JoinAlike (j j' : Join) : Prop where
  results : List.Forall₂ (EndAlike SameDraft) j.results j'.results
  staging : j.staging.SameContents j'.staging

theorem endAlike_takeResult (pos : Position) (j j' : Join) (alike : JoinAlike j j') :
    EndAlike (EqWith JoinAlike) (takeResult pos j) (takeResult pos j') := by
  obtain ⟨results, staging⟩ := j
  obtain ⟨results', staging'⟩ := j'
  obtain ⟨same, contents⟩ := alike
  cases same with
  | nil => exact .error _
  | cons first rest =>
      cases first with
      | error failure => exact .error _
      | ok draft =>
          obtain ⟨⟨root, sub⟩, written⟩ := draft
          refine (Failure.endAlike_ofMerge (contents.merge sub written)).map ?_
          intro merged merged' same
          exact ⟨root, rest, same⟩

theorem endAlike_join (agrees : ix.reader.Agrees r' R) (levels : Nat) (a : A) (b : B)
    (related : R a b) (pos : Position) (j j' : Join) (alike : JoinAlike j j') :
    EndAlike (EqWith JoinAlike) (ix.join levels a pos j)
      ((ix.withReader r').join levels b pos j') := by
  induction levels generalizing a b pos j j' with
  | zero => exact endAlike_takeResult pos j j' alike
  | succ levels ih =>
      rw [join, join]
      by_cases deep : ix.maxDepth < pos.depth
      · rw [if_pos deep, if_pos (show (ix.withReader r').maxDepth < pos.depth from deep)]
        exact .error _
      · rw [if_neg deep, if_neg (show ¬ (ix.withReader r').maxDepth < pos.depth from deep)]
        refine (ix.endAlike_childrenAt agrees related pos).bind ?_
        intro as bs children
        rw [← children.length_eq]
        refine (endAlike_visitChildren ih pos children 0 [] alike).bind ?_
        rintro ⟨hashes, j⟩ ⟨_, j'⟩ ⟨rfl, alike⟩
        refine (Failure.endAlike_ofReading pos (agrees.payload a b related)).bind ?_
        intro p q payloads
        refine (ix.endAlike_close payloads as.length hashes alike.staging pos).bind ?_
        rintro done done' ⟨hash, staging⟩
        exact .ok ⟨hash, alike.results, staging⟩

theorem endAlike_walkSplit (agrees : ix.reader.Agrees r' R) {a : A} {b : B} (related : R a b) :
    EndAlike (EqWith Index.SameContents) (ix.walkSplit a) ((ix.withReader r').walkSplit b) := by
  have results : List.Forall₂ (EndAlike SameDraft) ((ix.frontier a).map ix.walkEntry)
      (((ix.withReader r').frontier b).map (ix.withReader r').walkEntry) := by
    rw [List.forall₂_map_left_iff, List.forall₂_map_right_iff]
    exact (ix.frontier_alike agrees related).imp fun _ _ place => ix.endAlike_walkEntry agrees place
  refine (ix.endAlike_join agrees ix.splitDepth a b related .root _ _ ⟨results, .refl ∅⟩).map ?_
  rintro ⟨hash, j⟩ ⟨_, j'⟩ ⟨rfl, alike⟩
  exact ⟨rfl, alike.staging⟩

/-! ## Calls -/

/-- Whether two calls have answered the same, and left the same contents. -/
structure SameInserted (d d' : Inserted) : Prop where
  root : d.root = d'.root
  staged : d.staged = d'.staged
  gain : d.gain = d'.gain
  index : d.index.SameContents d'.index

variable {m m' : Index}

theorem endAlike_mergeWalked {x y : NodeHash × Index} (drafts : SameDraft x y)
    (same : m.SameContents m') : EndAlike SameInserted (mergeWalked x m) (mergeWalked y m') := by
  obtain ⟨⟨root, contents⟩, written⟩ := drafts
  refine (Failure.endAlike_ofMerge (same.merge contents written)).map ?_
  intro merged merged' same'
  exact ⟨root, contents.size_nodes, same.between same', same'⟩

theorem endAlike_insert (agrees : ix.reader.Agrees r' R) {a : A} {b : B} (related : R a b)
    (same : m.SameContents m') :
    EndAlike SameInserted (ix.insert a m) ((ix.withReader r').insert b m') := by
  have walks := (ix.endAlike_walk agrees related .root).and_left fun _ => ix.written_of_walk
  exact walks.bind fun _ _ drafts => endAlike_mergeWalked drafts same

theorem endAlike_insertSplit (agrees : ix.reader.Agrees r' R) {a : A} {b : B} (related : R a b)
    (same : m.SameContents m') :
    EndAlike SameInserted (ix.insertSplit a m) ((ix.withReader r').insertSplit b m') := by
  have walks := (ix.endAlike_walkSplit agrees related).and_left fun _ walked =>
    ix.written_of_walk (ix.walkSplit_eq_ok_iff.mp walked)
  exact walks.bind fun _ _ drafts => endAlike_mergeWalked drafts same

/-- The ways to put a tree into an index: in one piece, split, or behind a lock, which may be
poisoned. -/
inductive Mode where
  | whole
  | split
  | shared (poisoned : Bool)

def call (ix : Indexer A) (root : A) : Mode → Change
  | .whole => .insert ix root
  | .split => .insertSplit ix root
  | .shared poisoned => .insertShared ix root poisoned

theorem endAlike_perform (agrees : ix.reader.Agrees r' R) {a : A} {b : B} (related : R a b)
    (mode : Mode) (same : m.SameContents m') :
    EndAlike (EqWith Index.SameContents) ((ix.call a mode).perform m)
      (((ix.withReader r').call b mode).perform m') := by
  have answer {x : Except Failure Inserted} {y : Except Failure Inserted}
      (inserted : EndAlike SameInserted x y) :
      EndAlike (EqWith Index.SameContents)
        (x.map fun d => (Success.inserted d.root d.staged d.gain, d.index))
        (y.map fun d => (Success.inserted d.root d.staged d.gain, d.index)) := by
    refine inserted.map ?_
    intro d d' alike
    exact ⟨by rw [alike.root, alike.staged, alike.gain], alike.index⟩
  cases mode with
  | whole => exact answer (ix.endAlike_insert agrees related same)
  | split => exact answer (ix.endAlike_insertSplit agrees related same)
  | shared poisoned =>
      rw [call, call, Change.perform_insertShared, Change.perform_insertShared]
      exact answer (ix.endAlike_insert agrees related same)

end Indexer

/-- A call that fails leaves the index, and one that succeeds replaces it. -/
theorem Change.attempted_alike {change change' : Change} {m m' : Index}
    (same : m.SameContents m')
    (performed : EndAlike (EqWith Index.SameContents) (change.perform m) (change'.perform m')) :
    (change.attempted m).answer = (change'.attempted m').answer ∧
      (change.attempted m).after.SameContents (change'.attempted m').after := by
  rw [attempted, attempted]
  generalize change.perform m = x at performed
  generalize change'.perform m' = y at performed
  cases performed with
  | error failure => exact ⟨rfl, same⟩
  | ok alike => exact ⟨congrArg Except.ok alike.1, alike.2⟩

/-- A call depends on nodes only through the two projections.  Whatever the digest, the limits
and the mode are: if two readers agree on related nodes, then calls with related roots on
indexes with the same contents give the same answer, the failure and its place included, and
leave indexes with the same contents and the same fingerprint. -/
theorem Indexer.attempt_alike {r' : NodeReader B} {R : A → B → Prop} (ix : Indexer A)
    (agrees : ix.reader.Agrees r' R) {a : A} {b : B} (related : R a b) (mode : Mode)
    {mem mem' : Memory} (same : mem.index.SameContents mem'.index) :
    (mem.attempt (ix.call a mode)).1.answer =
        (mem'.attempt ((ix.withReader r').call b mode)).1.answer ∧
      (mem.attempt (ix.call a mode)).2.index.SameContents
        (mem'.attempt ((ix.withReader r').call b mode)).2.index ∧
      (mem.attempt (ix.call a mode)).2.index.fingerprint =
        (mem'.attempt ((ix.withReader r').call b mode)).2.index.fingerprint := by
  have performed := ix.endAlike_perform agrees related mode same
  obtain ⟨answer, contents⟩ := Change.attempted_alike same performed
  obtain ⟨left, index⟩ := mem.attempt_eq (ix.call a mode)
  obtain ⟨right, index'⟩ := mem'.attempt_eq ((ix.withReader r').call b mode)
  rw [index, index', left, right]
  exact ⟨answer, contents, contents.fingerprint_eq⟩

/-! ## The spelled number on other nodes -/

namespace Sample.Spelling

/-- The root and its one leaf, which stands below it twice and is spelled as an integer. -/
def shared : NodeReader Bool where
  payload isLeaf := .ok (if isLeaf then payload 2 else payload 0)
  children isLeaf := .ok (if isLeaf then [] else [true, true])

/-- Both leaves are related to the one. -/
def Stands (i : Fin 4) (isLeaf : Bool) : Prop := i ≠ 3 ∧ (isLeaf = true ↔ i ≠ 0)

theorem agrees_shared : reader.Agrees shared Stands where
  payload i isLeaf related := by
    refine .ok ?_
    revert i isLeaf
    unfold Stands
    decide +kernel
  children i isLeaf related := by
    refine .ok ?_
    obtain ⟨-, leaf⟩ := related
    cases isLeaf with
    | false =>
        obtain rfl : i = 0 := by simpa using leaf
        have below : ∀ i : Fin 4, i ≠ 3 → i ≠ 0 → Stands i true := by
          intro i other inner
          exact ⟨other, iff_of_true rfl inner⟩
        exact .cons (below 1 (by decide) (by decide)) (.cons (below 2 (by decide) (by decide)) .nil)
    | true =>
        rw [if_neg (leaf.mp rfl), if_pos rfl]
        exact .nil

theorem sameContents_alone : (indexer.alone 1).SameContents (indexer.alone 2) := by
  refine ((indexer.filled_alone 1).stream_eq_iff (indexer.filled_alone 2) ?_ ?_).mp ?_
  all_goals decide +kernel

def flat : Indexer (Fin 4) := { indexer with maxDepth := 0 }

end Sample.Spelling

open Sample in
/-- The two indexes have spelled the leaf in two ways.  Split walks of both kinds of trees give one
answer, and where the limit allows only the root, both calls stop at its first child. -/
theorem Indexer.attempt_alike_spelling :
    (∃ answer, ((Memory.ofIndex (Spelling.indexer.alone 1)).attempt
          (Spelling.indexer.call 0 .split)).1.answer = .ok answer ∧
        ((Memory.ofIndex (Spelling.indexer.alone 2)).attempt
          ((Spelling.indexer.withReader Spelling.shared).call false .split)).1.answer =
            .ok answer) ∧
      ((Memory.ofIndex (Spelling.indexer.alone 2)).attempt
        ((Spelling.flat.withReader Spelling.shared).call false (.shared true))).1.answer =
          .error (.tooDeep (Position.root.child 0) 0) := by
  have related : Spelling.Stands 0 false := ⟨by decide, by decide⟩
  have same : (Memory.ofIndex (Spelling.indexer.alone 1)).index.SameContents
      (Memory.ofIndex (Spelling.indexer.alone 2)).index := Spelling.sameContents_alone
  have succeeds : ((Memory.ofIndex (Spelling.indexer.alone 1)).attempt
      (Spelling.indexer.call 0 .split)).1.answer.toBool = true := by decide +kernel
  have stops : ((Memory.ofIndex (Spelling.indexer.alone 1)).attempt
      (Spelling.flat.call 0 (.shared true))).1.answer =
        .error (.tooDeep (Position.root.child 0) 0) := by decide +kernel
  obtain ⟨answer, success⟩ := exists_eq_ok succeeds
  obtain ⟨equal, -⟩ :=
    Spelling.indexer.attempt_alike Spelling.agrees_shared related .split same
  obtain ⟨equal', -⟩ :=
    Spelling.flat.attempt_alike Spelling.agrees_shared related (.shared true) same
  exact ⟨⟨answer, success, equal ▸ success⟩, equal' ▸ stops⟩

end SubtermIndex
