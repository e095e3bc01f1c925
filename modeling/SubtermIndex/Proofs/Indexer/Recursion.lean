/-
# `SubtermIndex.Proofs.Indexer.Recursion` — the loop of a walk is a recursion on sub-trees

What a walk is to compute can be said without any stack (`recursionStep`): check the depth, read
the children, process each of them from left to right, read the payload, encode shape and record,
add the edges, intern the node, add the shape; and stop at the first error.  A function with this
equation at every node is a recursion (`IsRecursion`).  There is exactly one, and it is what the
loop over one path and one stack computes (`walk_refines_recursion`).

For the loop the induction is on its rounds.  What the frames on the stack stand for is what the
recursion gives when all of them go on to their ends, each at the parent of the path of the one
before; no round changes this.

That there is a recursion at all has to be shown, since a reader may give nodes without end.
Below the limit a node fails without its children being looked at, and so the recursion on the
levels that are left has the equation at every node.

The procedure encodes a node and takes its digests by itself.  That closing a node does the same is
a lemma (`close_eq_addNode`).
-/
import SubtermIndex.Indexer.Loop
import SubtermIndex.Proofs.Indexer.Split

namespace SubtermIndex.Indexer

variable {N : Type} (ix : Indexer N)

/-! ## The recursion -/

def eachChild (recur : N → Position → Index → Except Failure (NodeHash × Index))
    (pos : Position) : List N → (next : Nat) → Index → Except Failure (List NodeHash × Index)
  | [], _, staging => .ok ([], staging)
  | child :: rest, next, staging => do
      let (hash, staging) ← recur child (pos.child next) staging
      let (hashes, staging) ← eachChild recur pos rest (next + 1) staging
      return (hash :: hashes, staging)

/-- Puts a node with the given record under a hash, where no other record stands. -/
def intern (hash : NodeHash) (node : Node) (record : Bytes) (staging : Index) :
    Except Failure Index :=
  match staging.node? hash with
  | none => .ok { staging with nodes := staging.nodes.insert hash node }
  | some there =>
      if there.encodedRecord = .ok record then .ok staging else .error (.storeConflict hash)

/-- Encodes a node whose children's hashes are known, and adds it. -/
def addNode (payload : Payload) (hashes : List NodeHash) (staging : Index) (pos : Position) :
    Except Failure (NodeHash × Index) := do
  let code ← Failure.ofEncoding pos (Cbor.encode payload.toValue)
  let record ← Failure.ofEncoding pos (Node.mk payload hashes).encodedRecord
  let hash : NodeHash := ⟨ix.hasher .node record⟩
  let staging ← intern hash ⟨payload, hashes⟩ record (staging.addEdges hash hashes)
  return (hash, staging.addShape ⟨ix.hasher .shape code⟩ hash)

def recursionStep (recur : N → Position → Index → Except Failure (NodeHash × Index)) (node : N)
    (pos : Position) (staging : Index) : Except Failure (NodeHash × Index) := do
  ix.checkDepth pos
  let children ← ix.childrenAt node pos
  let (hashes, staging) ← eachChild recur pos children 0 staging
  let payload ← ix.payloadAt node pos
  ix.addNode payload hashes staging pos

/-- Whether a function is the recursive procedure at every node, place and index. -/
def IsRecursion (recur : N → Position → Index → Except Failure (NodeHash × Index)) : Prop :=
  ∀ node pos staging, recur node pos staging = ix.recursionStep recur node pos staging

/-! ## Children from left to right -/

section

variable {f g : N → Position → Index → Except Failure (NodeHash × Index)} {pos : Position}

theorem eachChild_cons (child : N) (rest : List N) (next : Nat) (m : Index) :
    eachChild f pos (child :: rest) next m =
      (f child (pos.child next) m).bind fun done =>
        (eachChild f pos rest (next + 1) done.2).map fun others =>
          (done.1 :: others.1, others.2) := by
  rw [eachChild]
  cases f child (pos.child next) m <;> rfl

theorem eachChild_congr (same : ∀ child i m, f child (pos.child i) m = g child (pos.child i) m)
    (children : List N) (next : Nat) (m : Index) :
    eachChild f pos children next m = eachChild g pos children next m := by
  induction children generalizing next m with
  | nil => rfl
  | cons child rest ih => simp only [eachChild_cons, same, ih]

theorem length_of_eachChild {children : List N} {next : Nat} {m m' : Index}
    {hashes : List NodeHash} (each : eachChild f pos children next m = .ok (hashes, m')) :
    hashes.length = children.length := by
  induction children generalizing next m hashes with
  | nil =>
      cases each
      rfl
  | cons child rest ih =>
      rw [eachChild_cons] at each
      cases first : f child (pos.child next) m with
      | error failure => simp [first, Except.bind] at each
      | ok done =>
          simp only [first, Except.bind] at each
          cases others : eachChild f pos rest (next + 1) done.2 with
          | error failure => simp [others, Except.map] at each
          | ok done' =>
              rw [others] at each
              cases each
              rw [List.length_cons, ih others, List.length_cons]

theorem visitChildren_eq (children : List N) (next : Nat) (hashes : List NodeHash) (m : Index) :
    visitChildren f pos children next hashes m =
      (eachChild f pos children next m).map fun done => (hashes.reverse ++ done.1, done.2) := by
  induction children generalizing next hashes m with
  | nil =>
      show _ = Except.ok (hashes.reverse ++ [], m)
      rw [List.append_nil]
      rfl
  | cons child rest ih =>
      rw [visitChildren_cons, eachChild_cons]
      cases f child (pos.child next) m with
      | error failure => rfl
      | ok done =>
          show visitChildren f pos rest (next + 1) (done.1 :: hashes) done.2 =
            ((eachChild f pos rest (next + 1) done.2).map _).map _
          rw [ih, List.reverse_cons]
          cases eachChild f pos rest (next + 1) done.2 with
          | error failure => rfl
          | ok others => simp [Except.map]

/-- Where processing children fails, it fails at one of them. -/
theorem exists_of_eachChild {children : List N} {next : Nat} {m : Index} {failure : Failure}
    (fails : eachChild f pos children next m = .error failure) :
    ∃ child ∈ children, ∃ i m', f child (pos.child i) m' = .error failure := by
  induction children generalizing next m with
  | nil => cases fails
  | cons child rest ih =>
      rw [eachChild_cons] at fails
      cases first : f child (pos.child next) m with
      | error failure' =>
          rw [first] at fails
          cases fails
          exact ⟨child, List.mem_cons_self, next, m, first⟩
      | ok done =>
          simp only [first, Except.bind] at fails
          cases others : eachChild f pos rest (next + 1) done.2 with
          | error failure' =>
              rw [others] at fails
              cases fails
              obtain ⟨c, hc, at_c⟩ := ih others
              exact ⟨c, List.mem_cons_of_mem _ hc, at_c⟩
          | ok done' => simp [others, Except.map] at fails

end

/-! ## One node -/

/-- A hash collides exactly if another record stands there. -/
theorem store?_eq_intern (hash : NodeHash) {node : Node} {record : Bytes}
    (written : node.encodedRecord = .ok record) (m : Index) :
    (match m.store? hash node with
      | none => .error (.storeConflict hash)
      | some (_, m') => .ok m') = intern hash node record m := by
  rw [Index.store?, intern, Index.node?]
  cases m.nodes[hash]? with
  | none => rfl
  | some there =>
      by_cases same : there.encodedRecord = .ok record
      · simp [same, (Node.sameStructure_iff written).mpr same]
      · have different : ¬ there.sameStructure node = true :=
          mt (Node.sameStructure_iff written).mp same
        simp [same, different]

/-- A node with as many hashes as children is closed by encoding and adding it. -/
theorem close_eq_addNode (payload : Payload) {arity : Nat} {hashes : List NodeHash}
    (complete : hashes.length = arity) (m : Index) (pos : Position) :
    (ix.close payload arity hashes m pos).map (fun done => (done.hash, done.staging)) =
      ix.addNode payload hashes m pos := by
  subst complete
  have node : Node.ofHashes payload hashes.length hashes = .ok ⟨payload, hashes⟩ := by
    simp [Node.ofHashes]
  rw [close, addNode, node, Hasher.shapeOf]
  cases Cbor.encode payload.toValue with
  | error cause => rfl
  | ok code =>
      cases written : (Node.mk payload hashes).encodedRecord with
      | error cause =>
          simp only [Failure.ofEncoding, Except.map, Except.mapError, bind, Except.bind, written]
      | ok record =>
          simp only [Failure.ofEncoding, Except.map, Except.mapError, bind, Except.bind, written,
            Hasher.nodeHash, ← store?_eq_intern _ written]
          cases (m.addEdges ⟨ix.hasher .node record⟩ hashes).store? ⟨ix.hasher .node record⟩
            ⟨payload, hashes⟩ <;> rfl

/-! ## There is one recursion -/

def visitAt (node : N) (pos : Position) (m : Index) : Except Failure (NodeHash × Index) :=
  ix.visit (ix.levelsAt pos) node pos m

theorem recursionStep_of_deep {f : N → Position → Index → Except Failure (NodeHash × Index)}
    {pos : Position} (deep : ix.maxDepth < pos.depth) (node : N) (m : Index) :
    ix.recursionStep f node pos m = .error (.tooDeep pos ix.maxDepth) := by
  rw [recursionStep, checkDepth, if_pos deep]
  rfl

theorem recursionStep_of_shallow {f : N → Position → Index → Except Failure (NodeHash × Index)}
    {pos : Position} (shallow : ¬ ix.maxDepth < pos.depth) (node : N) (m : Index) :
    ix.recursionStep f node pos m =
      (ix.childrenAt node pos).bind fun children =>
        (eachChild f pos children 0 m).bind fun done =>
          (ix.payloadAt node pos).bind fun payload => ix.addNode payload done.1 done.2 pos := by
  rw [recursionStep, checkDepth, if_neg shallow]
  rfl

theorem recursionStep_congr {f g : N → Position → Index → Except Failure (NodeHash × Index)}
    {pos : Position}
    (same : ¬ ix.maxDepth < pos.depth →
      ∀ child i m, f child (pos.child i) m = g child (pos.child i) m)
    (node : N) (m : Index) : ix.recursionStep f node pos m = ix.recursionStep g node pos m := by
  by_cases deep : ix.maxDepth < pos.depth
  · rw [recursionStep_of_deep ix deep, recursionStep_of_deep ix deep]
  · rw [recursionStep_of_shallow ix deep, recursionStep_of_shallow ix deep]
    simp only [eachChild_congr (same deep)]

theorem visit_succ_eq {levels : Nat} {pos : Position} (node : N) (m : Index) :
    ix.visit (levels + 1) node pos m =
      (ix.childrenAt node pos).bind fun children =>
        (eachChild (ix.visit levels) pos children 0 m).bind fun done =>
          (ix.payloadAt node pos).bind fun payload => ix.addNode payload done.1 done.2 pos := by
  rw [visit]
  show Except.bind (ix.childrenAt node pos) _ = _
  refine congrArg _ ?_
  funext children
  rw [visitChildren_eq]
  cases each : eachChild (ix.visit levels) pos children 0 m with
  | error failure => rfl
  | ok done =>
      have complete : done.1.length = children.length := length_of_eachChild each
      show Except.bind (ix.payloadAt node pos) _ = Except.bind (ix.payloadAt node pos) _
      refine congrArg _ ?_
      funext payload
      exact ix.close_eq_addNode payload complete done.2 pos

theorem isRecursion_visitAt : ix.IsRecursion ix.visitAt := by
  intro node pos m
  by_cases deep : ix.maxDepth < pos.depth
  · rw [recursionStep_of_deep ix deep, visitAt, levelsAt_of_lt ix deep, visit]
  · rw [recursionStep_of_shallow ix deep, visitAt, levelsAt_of_not_lt ix deep 0, visit_succ_eq]
    -- all children are at one depth
    have same (child : N) (i : Nat) (m : Index) :
        ix.visit (ix.levelsAt (pos.child 0)) child (pos.child i) m =
          ix.visitAt child (pos.child i) m := rfl
    simp only [eachChild_congr same]

theorem IsRecursion.eq_visitAt {f : N → Position → Index → Except Failure (NodeHash × Index)}
    (hf : ix.IsRecursion f) (node : N) (pos : Position) (m : Index) :
    f node pos m = ix.visitAt node pos m := by
  induction levels : ix.levelsAt pos generalizing node pos m with
  | zero =>
      have deep : ix.maxDepth < pos.depth := by
        by_contra shallow
        rw [levelsAt_of_not_lt ix shallow 0] at levels
        cases levels
      rw [hf, isRecursion_visitAt ix, recursionStep_of_deep ix deep,
        recursionStep_of_deep ix deep]
  | succ n ih =>
      rw [hf, isRecursion_visitAt ix]
      refine ix.recursionStep_congr ?_ node m
      intro shallow child i m'
      refine ih child (pos.child i) m' ?_
      rw [levelsAt_of_not_lt ix shallow i] at levels
      exact Nat.succ.inj levels

theorem walk_eq_visitAt (root : N) (origin : Position) :
    ix.walk root origin = ix.visitAt root origin ∅ :=
  ix.walk_eq_walkDirect root origin

/-! ## The loop -/

/-- Processes the children that a frame has not entered, and closes its node. -/
def finishFrame (f : Frame N) (pos : Position) (m : Index) : Except Failure (NodeHash × Index) :=
  (eachChild ix.visitAt pos (f.children.drop f.next) f.next m).bind fun done =>
    (ix.payloadAt f.node pos).bind fun payload =>
      (ix.close payload f.children.length (f.hashes ++ done.1) done.2 pos).map fun done =>
        (done.hash, done.staging)

def resumeFrames : List (Frame N) → Position → NodeHash × Index → Except Failure (NodeHash × Index)
  | [], _, done => .ok done
  | f :: below, pos, (hash, m) =>
      (ix.finishFrame { f with hashes := f.hashes ++ [hash] } pos m).bind
        (resumeFrames below pos.parent)

/-- What the frames on the stack stand for: the hash of the root, and the index that is filled. -/
def Loop.meaning (s : Loop N) : Except Failure (Option NodeHash × Index) :=
  match s.stack with
  | [] => .ok (s.rootHash, s.staging)
  | top :: below =>
      ((ix.finishFrame top s.path s.staging).bind (resumeFrames ix below s.path.parent)).map
        fun done => (some done.1, done.2)

theorem Loop.meaning_of_cons {s : Loop N} {top : Frame N} {below : List (Frame N)}
    (stack : s.stack = top :: below) :
    s.meaning ix =
      ((ix.finishFrame top s.path s.staging).bind (resumeFrames ix below s.path.parent)).map
        fun done => (some done.1, done.2) := by
  rw [meaning, stack]

theorem visitAt_eq (node : N) (pos : Position) (m : Index) :
    ix.visitAt node pos m =
      (ix.checkDepth pos).bind fun _ =>
        (ix.openFrame node pos).bind fun f => ix.finishFrame f pos m := by
  rw [isRecursion_visitAt ix, checkDepth]
  by_cases deep : ix.maxDepth < pos.depth
  · rw [recursionStep_of_deep ix deep, if_pos deep]
    rfl
  · rw [recursionStep_of_shallow ix deep, if_neg deep, openFrame]
    cases ix.childrenAt node pos with
    | error failure => rfl
    | ok children =>
        show Except.bind (eachChild ix.visitAt pos children 0 m) _ =
          Except.bind (eachChild ix.visitAt pos children 0 m) _
        cases each : eachChild ix.visitAt pos children 0 m with
        | error failure => rfl
        | ok done =>
            have complete : done.1.length = children.length := length_of_eachChild each
            show Except.bind (ix.payloadAt node pos) _ = Except.bind (ix.payloadAt node pos) _
            refine congrArg _ ?_
            funext payload
            exact (ix.close_eq_addNode payload complete done.2 pos).symm

/-- To finish a frame is to visit its next child before what remains of it. -/
theorem finishFrame_cons {f : Frame N} {child : N} (found : f.children[f.next]? = some child)
    (pos : Position) (m : Index) :
    ix.finishFrame f pos m =
      (ix.visitAt child (pos.child f.next) m).bind fun done =>
        ix.finishFrame { f with next := f.next + 1, hashes := f.hashes ++ [done.1] } pos
          done.2 := by
  rw [finishFrame, Frame.drop_eq_cons found, eachChild_cons]
  cases ix.visitAt child (pos.child f.next) m with
  | error failure => rfl
  | ok done =>
      show Except.bind (Except.map _ (eachChild ix.visitAt pos _ (f.next + 1) done.2)) _ =
        Except.bind (eachChild ix.visitAt pos _ (f.next + 1) done.2) _
      rw [bind_map]
      simp only [List.append_assoc, List.singleton_append]

theorem enter_meaning {s : Loop N} {top : Frame N} {below : List (Frame N)} {child : N}
    (stack : s.stack = top :: below) (found : top.children[top.next]? = some child) :
    (ix.enter s top below child).bind (Loop.meaning ix) = s.meaning ix := by
  rw [Loop.meaning_of_cons ix stack, finishFrame_cons ix found, visitAt_eq, enter]
  cases ix.checkDepth (s.path.child top.next) with
  | error failure => rfl
  | ok _ =>
      cases ix.openFrame child (s.path.child top.next) with
      | error failure => rfl
      | ok frame =>
          show ((ix.finishFrame frame _ s.staging).bind _).map _ =
            (((ix.finishFrame frame _ s.staging).bind _).bind _).map _
          cases ix.finishFrame frame (s.path.child top.next) s.staging <;> rfl

theorem leave_meaning {s : Loop N} {top : Frame N} {below : List (Frame N)}
    (stack : s.stack = top :: below) (last : top.children[top.next]? = none) :
    (ix.leave s top below).bind (Loop.meaning ix) = s.meaning ix := by
  have none : top.children.drop top.next = [] :=
    List.drop_eq_nil_of_le (List.getElem?_eq_none_iff.mp last)
  rw [Loop.meaning_of_cons ix stack, finishFrame, none, eachChild, leave]
  show Except.bind (Except.bind (ix.payloadAt top.node s.path) _) _ =
    ((Except.bind (ix.payloadAt top.node s.path) _).bind _).map _
  cases ix.payloadAt top.node s.path with
  | error failure => rfl
  | ok payload =>
      show Except.bind (Except.bind (ix.close payload _ top.hashes _ _) _) _ =
        (((ix.close payload _ (top.hashes ++ []) _ _).map _).bind _).map _
      rw [List.append_nil]
      cases ix.close payload top.children.length top.hashes s.staging s.path with
      | error failure => rfl
      | ok done => cases below <;> rfl

/-- A round keeps the meaning. -/
theorem round_meaning {s : Loop N} {top : Frame N} {below : List (Frame N)}
    (stack : s.stack = top :: below) :
    (ix.round s top below).bind (Loop.meaning ix) = s.meaning ix := by
  rw [round]
  split
  case h_1 child found => exact enter_meaning ix stack found
  case h_2 last => exact leave_meaning ix stack last

theorem loop_of_nil {s : Loop N} (stack : s.stack = []) : ix.loop s = .ok s := by
  rw [loop]
  split
  case h_1 => rfl
  case h_2 other => simp [stack] at other

theorem loop_of_cons {s : Loop N} {top : Frame N} {below : List (Frame N)}
    (stack : s.stack = top :: below) : ix.loop s = (ix.round s top below).bind ix.loop := by
  rw [loop]
  split
  case h_1 none => simp [stack] at none
  case h_2 top' below' same =>
    obtain ⟨rfl, rfl⟩ := List.cons.inj (same.symm.trans stack)
    split
    case h_1 failed => rw [failed]; rfl
    case h_2 done => rw [done]; rfl

/-- The loop ends with what the frames stood for when it began. -/
theorem loop_eq_meaning (s : Loop N) :
    (ix.loop s).map (fun s => (s.rootHash, s.staging)) = s.meaning ix := by
  induction s using loop.induct ix with
  | case1 s stack =>
      rw [loop_of_nil ix stack, Loop.meaning, stack]
      rfl
  | case2 s top below stack failure failed =>
      rw [loop_of_cons ix stack, ← round_meaning ix stack, failed]
      rfl
  | case3 s top below stack next done ih =>
      rw [loop_of_cons ix stack, ← round_meaning ix stack, done]
      exact ih

theorem walkLoop_eq_visitAt (root : N) (origin : Position) :
    ix.walkLoop root origin = ix.visitAt root origin ∅ := by
  rw [visitAt_eq, walkLoop]
  cases ix.checkDepth origin with
  | error failure => rfl
  | ok _ =>
      cases ix.openFrame root origin with
      | error failure => rfl
      | ok frame =>
          have ends := ix.loop_eq_meaning
            { stack := [frame], path := origin, staging := ∅, rootHash := none }
          rw [Loop.meaning_of_cons ix rfl] at ends
          show Except.bind (ix.loop _) _ = ix.finishFrame frame origin ∅
          -- both sides end in one answer, whatever the two programs are
          generalize ix.loop _ = looped at ends ⊢
          generalize ix.finishFrame frame origin ∅ = finished at ends ⊢
          cases looped with
          | error failure =>
              cases finished with
              | error failure' =>
                  cases ends
                  rfl
              | ok done => cases ends
          | ok s =>
              cases finished with
              | error failure => cases ends
              | ok done =>
                  obtain ⟨known, index⟩ := Prod.mk.inj (Except.ok.inj ends)
                  simp only [Except.bind, known, index]
                  rfl

/-! ## Where a walk fails -/

inductive Cause (root : N) : Failure → Prop
  | tooDeep (pos : Position) : Cause root (.tooDeep pos ix.maxDepth)
  | children {node : N} {e : TreeError} (pos : Position) : ix.reader.Below root node →
      ix.reader.children node = .error e → Cause root (.rejected (e.moveTo pos))
  | payload {node : N} {e : TreeError} (pos : Position) : ix.reader.Below root node →
      ix.reader.payload node = .error e → Cause root (.rejected (e.moveTo pos))
  | notEncodable (pos : Position) (cause : Cbor.EncodeError) :
      Cause root (.rejected (.malformed pos (.notEncodable cause)))
  | collision (hash : NodeHash) : Cause root (.storeConflict hash)

theorem cause_of_ofEncoding {α : Type} {root : N} {pos : Position}
    {x : Except Cbor.EncodeError α} {failure : Failure}
    (fails : Failure.ofEncoding pos x = .error failure) : ix.Cause root failure := by
  cases x with
  | error cause =>
      cases fails
      exact .notEncodable pos cause
  | ok a => cases fails

theorem exists_of_ofReading {α : Type} {pos : Position} {x : Except TreeError α}
    {failure : Failure} (fails : Failure.ofReading pos x = .error failure) :
    ∃ e, x = .error e ∧ failure = .rejected (e.moveTo pos) := by
  cases x with
  | error e =>
      cases fails
      exact ⟨e, rfl, rfl⟩
  | ok a => cases fails

theorem eq_ok_of_ofReading {α : Type} {pos : Position} {x : Except TreeError α} {a : α}
    (read : Failure.ofReading pos x = .ok a) : x = .ok a := by
  cases x with
  | error e => cases read
  | ok a' =>
      cases read
      rfl

theorem cause_of_addNode {root : N} {payload : Payload} {hashes : List NodeHash} {m : Index}
    {pos : Position} {failure : Failure}
    (fails : ix.addNode payload hashes m pos = .error failure) : ix.Cause root failure := by
  rcases bind_eq_error_iff.mp fails with shape | ⟨shape, -, fails⟩
  · exact ix.cause_of_ofEncoding shape
  rcases bind_eq_error_iff.mp fails with record | ⟨record, -, fails⟩
  · exact ix.cause_of_ofEncoding record
  rcases bind_eq_error_iff.mp fails with stored | ⟨m', -, fails⟩
  · rw [intern] at stored
    split at stored
    · cases stored
    · split at stored
      · cases stored
      · cases stored
        exact .collision _
  · cases fails

/-- A visit below the root fails for one of these causes. -/
theorem cause_of_visitAt {root node : N} (below : ix.reader.Below root node) {pos : Position}
    {m : Index} {failure : Failure} (fails : ix.visitAt node pos m = .error failure) :
    ix.Cause root failure := by
  induction levels : ix.levelsAt pos generalizing node pos m with
  | zero =>
      rw [visitAt, levels] at fails
      cases fails
      exact .tooDeep pos
  | succ n ih =>
      have shallow : ¬ ix.maxDepth < pos.depth := by
        intro deep
        rw [levelsAt_of_lt ix deep] at levels
        cases levels
      rw [isRecursion_visitAt ix, recursionStep_of_shallow ix shallow] at fails
      rcases bind_eq_error_iff.mp fails with opened | ⟨children, opened, fails⟩
      · obtain ⟨e, found, rfl⟩ := exists_of_ofReading opened
        exact .children pos below found
      rcases bind_eq_error_iff.mp fails with each | ⟨done, -, fails⟩
      · obtain ⟨child, mem, i, m', fails⟩ := exists_of_eachChild each
        refine ih (.child below (eq_ok_of_ofReading opened) mem) fails ?_
        rw [levelsAt_of_not_lt ix shallow i] at levels
        exact Nat.succ.inj levels
      rcases bind_eq_error_iff.mp fails with read | ⟨payload, -, fails⟩
      · obtain ⟨e, found, rfl⟩ := exists_of_ofReading read
        exact .payload pos below found
      · exact ix.cause_of_addNode fails

theorem cause_of_walk {root : N} {origin : Position} {failure : Failure}
    (fails : ix.walk root origin = .error failure) : ix.Cause root failure := by
  rw [walk_eq_visitAt] at fails
  exact ix.cause_of_visitAt .self fails

/-! ## Errors that only a broken walk could make -/

/-- Whether an error says that hashes of children are missing or too many, or that a traversal
has not come back to its root. -/
def Internal : TreeError → Prop
  | .missingHash _ => True
  | .extraHashes _ _ => True
  | .malformed _ reason => reason.message = "traversal finished without a root"
  | _ => False

theorem internal_moveTo {e : TreeError} {pos : Position} :
    Internal (e.moveTo pos) ↔ Internal e := by
  cases e <;> rfl

/-- A text is different from those that begin in another way. -/
theorem append_ne {a b text : String} (other : ¬ a.toList <+: text.toList) : a ++ b ≠ text := by
  rintro rfl
  rw [String.toList_append] at other
  exact other (List.prefix_append _ _)

/-- A reason that is no free text does not read like an internal one. -/
theorem message_ne {reason : Reason} (known : ∀ text, reason ≠ .other text) :
    reason.message ≠ "traversal finished without a root" := by
  cases reason with
  | notRecord found =>
      show "node is not a record (found " ++ found.name ++ ")" ≠ _
      rw [String.append_assoc]
      exact append_ne (by decide +kernel)
  | childrenNotList field found =>
      show "children field `" ++ field ++ "` is not a list (found " ++ found.name ++ ")" ≠ _
      rw [String.append_assoc, String.append_assoc, String.append_assoc]
      exact append_ne (by decide +kernel)
  | notEncodable cause =>
      cases cause with
      | tag => decide +kernel
      | duplicateKey => decide +kernel
      | unsupported kind uncovered => exact append_ne (by decide +kernel)
  | tooDeep limit =>
      show "depth limit " ++ toString limit ++ " exceeded" ≠ _
      rw [String.append_assoc]
      exact append_ne (by decide +kernel)
  | other text =>
      intro same
      exact known text rfl

theorem not_internal_malformed {pos : Position} {reason : Reason}
    (known : ∀ text, reason ≠ .other text) : ¬ Internal (.malformed pos reason) :=
  message_ne known

/-- An internal error is one that the reader gave for some node. -/
theorem Cause.exists_of_internal {root : N} {failure : Failure} (cause : ix.Cause root failure)
    (internal : Internal failure.toError) :
    ∃ node e pos, ix.reader.Below root node ∧
      (ix.reader.children node = .error e ∨ ix.reader.payload node = .error e) ∧
      failure = .rejected (e.moveTo pos) := by
  cases cause with
  | tooDeep pos => exact absurd internal (not_internal_malformed (by simp))
  | children pos below found => exact ⟨_, _, pos, below, .inl found, rfl⟩
  | payload pos below found => exact ⟨_, _, pos, below, .inr found, rfl⟩
  | notEncodable pos cause => exact absurd internal (not_internal_malformed (by simp))
  | collision hash => cases internal

/-- The loop of a walk is the direct recursion on sub-trees, of which there is exactly one.  From
every root and every origin both give the same hash and the same index, or the same failure,
whatever the nodes, the digest and the limit are, and trees may be infinite.  An internal
error is never the walk's own: the reader has returned it for some node of the tree. -/
theorem walk_refines_recursion :
    (∃ recur, ix.IsRecursion recur) ∧
      ∀ recur, ix.IsRecursion recur → ∀ root origin,
        ix.walkLoop root origin = recur root origin ∅ ∧
          ix.walk root origin = recur root origin ∅ ∧
          ∀ failure, ix.walk root origin = .error failure → Internal failure.toError →
            ∃ node e pos, ix.reader.Below root node ∧
              (ix.reader.children node = .error e ∨ ix.reader.payload node = .error e) ∧
              failure = .rejected (e.moveTo pos) := by
  refine ⟨⟨ix.visitAt, ix.isRecursion_visitAt⟩, ?_⟩
  intro recur hrecur root origin
  refine ⟨?_, ?_, ?_⟩
  · rw [walkLoop_eq_visitAt, hrecur.eq_visitAt]
  · rw [walk_eq_visitAt, hrecur.eq_visitAt]
  · intro failure fails internal
    exact (ix.cause_of_walk fails).exists_of_internal ix internal

/-- The standard reader of records gives no internal error. -/
theorem not_internal_ofField {field : String} {node : Cbor.Value} {e : TreeError}
    (fails : (NodeReader.ofField field).children node = .error e ∨
      (NodeReader.ofField field).payload node = .error e) : ¬ Internal e := by
  have noRecord (fails : NodeReader.recordEntries node = .error e) : ¬ Internal e := by
    unfold NodeReader.recordEntries at fails
    split at fails
    · cases fails
    · cases fails
      exact not_internal_malformed (by simp)
  rcases fails with fails | fails
  · rcases bind_eq_error_iff.mp fails with noEntries | ⟨entries, -, fails⟩
    · exact noRecord noEntries
    · split at fails
      · cases fails
      · cases fails
        exact not_internal_malformed (by simp)
      · cases fails
        exact id
  · rcases bind_eq_error_iff.mp fails with noEntries | ⟨entries, -, fails⟩
    · exact noRecord noEntries
    · unfold NodeReader.payloadOf at fails
      split at fails
      · cases fails
      · cases fails
        exact not_internal_malformed (by simp)

/-- The root stands over a leaf and a number, which is no node. -/
theorem walk_refines_recursion_broken :
    (∃ recur, splitSample.IsRecursion recur ∧
      recur brokenSample .root ∅ = .error (.rejected brokenError)) ∧
      splitSample.walkLoop brokenSample .root = .error (.rejected brokenError) ∧
      ¬ Internal brokenError := by
  obtain ⟨⟨recur, isRecursion⟩, all⟩ := splitSample.walk_refines_recursion
  obtain ⟨loop, walk, own⟩ := all recur isRecursion brokenSample .root
  have fails : splitSample.walk brokenSample .root = .error (.rejected brokenError) := by
    rw [walk_eq_walkDirect]
    rfl
  refine ⟨⟨recur, isRecursion, ?_⟩, ?_, ?_⟩
  · rw [← walk, fails]
  · rw [loop, ← walk, fails]
  · intro internal
    obtain ⟨node, e, pos, -, failed, same⟩ := own _ fails internal
    rw [Failure.rejected.inj same, internal_moveTo] at internal
    exact not_internal_ofField failed internal

end SubtermIndex.Indexer
