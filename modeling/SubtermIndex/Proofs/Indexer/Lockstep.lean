/-
# `SubtermIndex.Proofs.Indexer.Lockstep` — the frontier and the join keep in step

The frontier is collected by one recursion, and its results are taken by another one.  The two
share no numbers of nodes: that the next result belongs to the node that the join has reached is
due to both going the same way.  Each may stop early, the one at a node that cannot be read or
lies too deep, the other at a failed result or a payload as well.

What a part of the join is to take is the part of the frontier below it.  Whatever the results
are, the part takes the first ones of these, for the nodes and at the positions that they have in
the frontier; and if it ends well, it has taken all of them, and the part of the frontier was
complete (`InStep`).  Since this is kept when one part follows another (`KeepsStep.bind`), it
holds of the whole (`takings_lockstep`).

If a part of the frontier is not complete, nothing follows it in the frontier either.  The join
cannot end well above such a part, and so it never asks for what would have followed.
-/
import SubtermIndex.Indexer.Takings
import SubtermIndex.Sample.Spelling
import SubtermIndex.Proofs.Indexer.InPlace

namespace SubtermIndex

/-! ## Programs on more memory than they need -/

namespace Routine

variable {σ τ α β : Type}

def keeping (get : τ → σ) : EStateM.Result Failure τ α → EStateM.Result Failure σ α
  | .ok a t => .ok a (get t)
  | .error failure t => .error failure (get t)

/-- Whether a program does to a part of its memory what another one does to all of its own. -/
def Shadows (get : τ → σ) (r : Routine τ α) (r' : Routine σ α) : Prop :=
  ∀ t, keeping get (r.run t) = r'.run (get t)

variable {get : τ → σ}

theorem Shadows.bind {r : Routine τ α} {r' : Routine σ α} {k : α → Routine τ β}
    {k' : α → Routine σ β} (first : r.Shadows get r') (next : ∀ a, (k a).Shadows get (k' a)) :
    (r >>= k).Shadows get (r' >>= k') := by
  intro t
  rw [EStateM.run_bind, EStateM.run_bind, ← first t]
  cases r.run t with
  | error failure t' => rfl
  | ok a t' => exact next a t'

theorem shadows_ofExcept (x : Except Failure α) :
    (ofExcept x : Routine τ α).Shadows get (ofExcept x) := by
  intro t
  cases x <;> rfl

theorem shadows_on {set : σ → τ → τ} (lawful : ∀ s t, get (set s t) = s) (r : Routine σ α) :
    (r.on get set).Shadows get r := by
  intro t
  cases run : r.run (get t) with
  | error failure s => rw [run_on_error run, keeping, lawful]
  | ok a s => rw [run_on_ok run, keeping, lawful]

end Routine

namespace Indexer

variable {N α β : Type} (ix : Indexer N)

/-! ## The account changes nothing -/

theorem shadows_visitChildrenInPlace {σ τ : Type} {get : τ → σ}
    {visit : N → Position → Routine τ NodeHash} {visit' : N → Position → Routine σ NodeHash}
    (each : ∀ child pos, (visit child pos).Shadows get (visit' child pos)) (pos : Position)
    (children : List N) (next : Nat) (hashes : List NodeHash) :
    (visitChildrenInPlace visit pos children next hashes).Shadows get
      (visitChildrenInPlace visit' pos children next hashes) := by
  induction children generalizing next hashes with
  | nil => exact fun _ => rfl
  | cons child rest ih => exact (each child (pos.child next)).bind fun hash => ih (next + 1) _

/-- Apart from the account, the memory is left as it is without one, even by a join that fails. -/
theorem shadows_joinAccounted (levels : Nat) (node : N) (pos : Position) :
    (ix.joinAccounted levels node pos).Shadows AccountedJoin.join
      (ix.joinInPlace levels node pos) := by
  have onJoin {α : Type} (r : Routine Join α) :
      (AccountedJoin.onJoin r : Routine (AccountedJoin N) α).Shadows AccountedJoin.join r :=
    Routine.shadows_on (fun _ _ => rfl) r
  induction levels generalizing node pos with
  | zero =>
      intro s
      exact onJoin (takeResultInPlace pos) _
  | succ levels ih =>
      rw [joinAccounted, joinInPlace]
      split
      case isTrue deep => exact fun _ => rfl
      case isFalse shallow =>
        refine (Routine.shadows_ofExcept _).bind fun children => ?_
        refine (shadows_visitChildrenInPlace ih pos children 0 []).bind fun hashes => ?_
        exact (Routine.shadows_ofExcept _).bind fun payload => onJoin _

theorem joinAll_eq_accounted (root : N) (results : List (Except Failure (NodeHash × Index))) :
    ix.joinAll root results =
      match ix.joinAllAccounted root results with
      | .ok hash s => .ok (hash, s.join.staging)
      | .error failure _ => .error failure := by
  have inPlace := ix.does_joinInPlace ix.splitDepth root .root ⟨results, ∅⟩
  have account := ix.shadows_joinAccounted ix.splitDepth root .root ⟨⟨results, ∅⟩, []⟩
  rw [joinAll, ← inPlace, Routine.outcome, ← account, joinAllAccounted]
  cases (ix.joinAccounted ix.splitDepth root .root).run ⟨⟨results, ∅⟩, []⟩ <;> rfl

/-! ## Parts of the frontier -/

/-- A part of the frontier and, if it is complete, another one behind it. -/
def followedBy (part behind : Bool × List β) : Bool × List β :=
  match part with
  | (true, found) => (behind.1, found ++ behind.2)
  | (false, found) => (false, found)

theorem followedBy_nil (part : Bool × List β) : followedBy part (true, []) = part := by
  rcases part with ⟨_ | _, found⟩
  · rfl
  · rw [followedBy, List.append_nil]

theorem fringeEach_cons (fringe : N → Position → Bool × List (N × Position)) (pos : Position)
    (child : N) (rest : List N) (next : Nat) :
    fringeEach fringe pos (child :: rest) next =
      followedBy (fringe child (pos.child next)) (fringeEach fringe pos rest (next + 1)) := by
  rw [fringeEach]
  rcases fringe child (pos.child next) with ⟨_ | _, found⟩ <;> rfl

/-! ## Taking the results in step with the frontier -/

def Taking.of (work : N × Position → Except Failure (NodeHash × Index)) (entry : N × Position) :
    Taking N :=
  ⟨entry.1, entry.2, some (work entry)⟩

/-- How joining above a part of the frontier ends, where `taken` has been taken before and `rest`
is left for what follows.  If it ends well, the part is complete and the results of all its entries
have been taken; if it fails, those of the first ones. -/
inductive InStep (work : N × Position → Except Failure (NodeHash × Index))
    (taken : List (Taking N)) (rest : List (Except Failure (NodeHash × Index)))
    (part : Bool × List (N × Position)) : EStateM.Result Failure (AccountedJoin N) α → Prop
  | ended {a : α} {s : AccountedJoin N} : part.1 = true → s.join.results = rest →
      s.takings = taken ++ part.2.map (.of work) → InStep work taken rest part (.ok a s)
  | failed {failure : Failure} {s : AccountedJoin N} (first left : List (N × Position)) :
      part.2 = first ++ left → s.join.results = left.map work ++ rest →
      s.takings = taken ++ first.map (.of work) → InStep work taken rest part (.error failure s)

/-- Whether a program takes the results of a part of the frontier in step, whenever they come
next. -/
def KeepsStep (work : N × Position → Except Failure (NodeHash × Index))
    (r : Routine (AccountedJoin N) α) (part : Bool × List (N × Position)) : Prop :=
  ∀ s rest, s.join.results = part.2.map work ++ rest → InStep work s.takings rest part (r.run s)

variable {work : N × Position → Except Failure (NodeHash × Index)}

theorem keepsStep_throw (failure : Failure) (complete : Bool) :
    KeepsStep work (throw failure : Routine (AccountedJoin N) α) (complete, []) := by
  intro s rest next
  exact .failed [] [] rfl next (List.append_nil _).symm

theorem keepsStep_ofExcept (x : Except Failure α) :
    KeepsStep work (Routine.ofExcept x) (true, []) := by
  intro s rest next
  cases x with
  | error failure => exact keepsStep_throw failure true s rest next
  | ok a => exact .ended rfl next (List.append_nil _).symm

theorem keepsStep_onStaging (r : Routine Index α) :
    KeepsStep work (AccountedJoin.onJoin (Join.onStaging r)) (true, []) := by
  intro s rest next
  have taken : s.takings = s.takings ++ [] := (List.append_nil _).symm
  rw [AccountedJoin.onJoin, Join.onStaging]
  cases run : r.run s.join.staging with
  | error failure m =>
      rw [Routine.run_on_error (Routine.run_on_error run)]
      exact .failed [] [] rfl next taken
  | ok a m =>
      rw [Routine.run_on_ok (Routine.run_on_ok run)]
      exact .ended rfl next taken

/-- A result leaves the list whatever becomes of it. -/
theorem run_takeResultInPlace (pos : Position) (result : Except Failure (NodeHash × Index))
    (rest : List (Except Failure (NodeHash × Index))) (m : Index) :
    (∃ hash m', (takeResultInPlace pos).run ⟨result :: rest, m⟩ = .ok hash ⟨rest, m'⟩) ∨
      ∃ failure m',
        (takeResultInPlace pos).run ⟨result :: rest, m⟩ = .error failure ⟨rest, m'⟩ := by
  rcases result with failure | ⟨hash, sub⟩
  · exact .inr ⟨failure, m, rfl⟩
  · have step : (takeResultInPlace pos).run ⟨.ok (hash, sub) :: rest, m⟩ =
        (Join.onStaging (Index.mergeInPlace sub) >>= fun _ => pure hash).run ⟨rest, m⟩ := rfl
    rw [step, EStateM.run_bind, Join.onStaging]
    cases merge : (Index.mergeInPlace sub).run m with
    | error failure m' =>
        rw [Routine.run_on_error merge]
        exact .inr ⟨failure, m', rfl⟩
    | ok gain m' =>
        rw [Routine.run_on_ok merge]
        exact .inl ⟨hash, m', rfl⟩

theorem keepsStep_take (node : N) (pos : Position) :
    KeepsStep work
      (do AccountedJoin.enter node pos; AccountedJoin.onJoin (takeResultInPlace pos))
      (true, [(node, pos)]) := by
  intro s rest next
  obtain ⟨⟨results, m⟩, taken⟩ := s
  obtain rfl : results = work (node, pos) :: rest := next
  let entered : AccountedJoin N :=
    ⟨⟨work (node, pos) :: rest, m⟩, taken ++ [.of work (node, pos)]⟩
  show InStep work taken rest _ ((AccountedJoin.onJoin (takeResultInPlace pos)).run entered)
  rw [AccountedJoin.onJoin]
  rcases run_takeResultInPlace pos (work (node, pos)) rest m with
    ⟨hash, m', run⟩ | ⟨failure, m', run⟩
  · rw [Routine.run_on_ok (t := entered) run]
    exact .ended rfl rfl rfl
  · rw [Routine.run_on_error (t := entered) run]
    exact .failed [(node, pos)] [] rfl rfl rfl

/-- What comes behind entries whose results have been taken. -/
theorem InStep.behind {taken : List (Taking N)} {rest : List (Except Failure (NodeHash × Index))}
    {entries : List (N × Position)} {part : Bool × List (N × Position)}
    {result : EStateM.Result Failure (AccountedJoin N) α}
    (later : InStep work (taken ++ entries.map (.of work)) rest part result) :
    InStep work taken rest (followedBy (true, entries) part) result := by
  cases later with
  | ended complete left taken' =>
      refine .ended complete left ?_
      rw [taken', followedBy, List.map_append, List.append_assoc]
  | failed first left split left' taken' =>
      refine .failed (entries ++ first) left ?_ left' ?_
      · simp only [followedBy, split, List.append_assoc]
      · rw [taken', List.map_append, List.append_assoc]

/-- What fails leaves the results for what comes behind it. -/
theorem InStep.of_failed {taken : List (Taking N)}
    {rest : List (Except Failure (NodeHash × Index))}
    {entries : List (N × Position)} {part : Bool × List (N × Position)} {failure : Failure}
    {s : AccountedJoin N}
    (ends : InStep work taken (part.2.map work ++ rest) (true, entries)
      (.error failure s : EStateM.Result _ _ α)) :
    InStep work taken rest (followedBy (true, entries) part)
      (.error failure s : EStateM.Result _ _ β) := by
  cases ends with
  | failed first left split left' taken' =>
      refine .failed first (left ++ part.2) ?_ ?_ taken'
      · simp only [followedBy, show entries = first ++ left from split, List.append_assoc]
      · rw [left', List.map_append, List.append_assoc]

theorem KeepsStep.bind {r : Routine (AccountedJoin N) α} {k : α → Routine (AccountedJoin N) β}
    {part behind : Bool × List (N × Position)} (first : KeepsStep work r part)
    (next : ∀ a, KeepsStep work (k a) behind) :
    KeepsStep work (r >>= k) (followedBy part behind) := by
  intro s rest results
  obtain ⟨_ | _, entries⟩ := part
  case false =>
    -- the part is incomplete, and what is behind it is not reached
    have ends := first s rest results
    rw [EStateM.run_bind]
    cases run : r.run s with
    | ok a s' =>
        rw [run] at ends
        cases ends with
        | ended complete => cases complete
    | error failure s' =>
        rw [run] at ends
        cases ends with
        | failed begun left split left' taken => exact .failed begun left split left' taken
  case true =>
    -- to the first program, the results of what comes behind are among those that are left
    have ends := first s (behind.2.map work ++ rest) (by
      rw [results, followedBy, List.map_append, List.append_assoc])
    rw [EStateM.run_bind]
    cases run : r.run s with
    | error failure s' =>
        rw [run] at ends
        exact ends.of_failed
    | ok a s' =>
        rw [run] at ends
        cases ends with
        | ended _ left taken =>
            have later := next a s' rest left
            rw [taken] at later
            exact later.behind

theorem keepsStep_visitChildrenInPlace {visit : N → Position → Routine (AccountedJoin N) NodeHash}
    {fringe : N → Position → Bool × List (N × Position)}
    (each : ∀ child pos, KeepsStep work (visit child pos) (fringe child pos)) (pos : Position)
    (children : List N) (next : Nat) (hashes : List NodeHash) :
    KeepsStep work (visitChildrenInPlace visit pos children next hashes)
      (fringeEach fringe pos children next) := by
  induction children generalizing next hashes with
  | nil => exact keepsStep_ofExcept (.ok hashes.reverse)
  | cons child rest ih =>
      rw [fringeEach_cons]
      exact (each child (pos.child next)).bind fun hash => ih (next + 1) (hash :: hashes)

theorem keepsStep_joinAccounted (levels : Nat) (node : N) (pos : Position) :
    KeepsStep work (ix.joinAccounted levels node pos) (ix.fringe levels node pos) := by
  induction levels generalizing node pos with
  | zero => exact keepsStep_take node pos
  | succ levels ih =>
      rw [joinAccounted, fringe]
      by_cases deep : ix.maxDepth < pos.depth
      · rw [if_pos deep, if_pos deep]
        exact keepsStep_throw _ false
      rw [if_neg deep, if_neg deep, childrenAt]
      cases ix.reader.children node with
      | error e => exact keepsStep_throw _ false
      | ok children =>
          have below : KeepsStep work _ (fringeEach (ix.fringe levels) pos children 0) :=
            keepsStep_visitChildrenInPlace ih pos children 0 []
          have closing (hashes : List NodeHash) : KeepsStep work
              (do let payload ← Routine.ofExcept (ix.payloadAt node pos)
                  AccountedJoin.onJoin
                    (Join.onStaging (ix.closeInPlace payload children.length hashes pos)))
              (true, []) :=
            (keepsStep_ofExcept (ix.payloadAt node pos)).bind fun payload => keepsStep_onStaging _
          have whole := below.bind closing
          rw [followedBy_nil] at whole
          exact whole

/-- Whatever results the entries of a frontier are given, closing the levels above takes those of
the first entries, one after another, each for the node and at the position of its entry, and never
asks for one that is not there.  If it succeeds, the frontier has been collected without an
obstacle, and no result is left. -/
theorem takings_lockstep (root : N) (work : N × Position → Except Failure (NodeHash × Index)) :
    let entries := ix.frontier root
    let ended := ix.joinAllAccounted root (entries.map work)
    (ix.joinAll root (entries.map work) =
        match ended with
        | .ok hash s => .ok (hash, s.join.staging)
        | .error failure _ => .error failure) ∧
      ∃ first left, entries = first ++ left ∧
        (AccountedJoin.final ended).takings =
          first.map (fun entry => ⟨entry.1, entry.2, some (work entry)⟩) ∧
        (AccountedJoin.final ended).join.results = left.map work ∧
        ∀ done, ix.joinAll root (entries.map work) = .ok done →
          left = [] ∧ (ix.collect ix.splitDepth root .root []).1 = true := by
  intro entries ended
  have answer : ix.joinAll root (entries.map work) =
      match ended with
      | .ok hash s => .ok (hash, s.join.staging)
      | .error failure _ => .error failure := ix.joinAll_eq_accounted root (entries.map work)
  refine ⟨answer, ?_⟩
  rw [answer]
  have whole : entries = (ix.fringe ix.splitDepth root .root).2 := ix.frontier_eq root
  have inStep : InStep work [] [] (ix.fringe ix.splitDepth root .root) ended := by
    refine ix.keepsStep_joinAccounted ix.splitDepth root .root ⟨⟨entries.map work, ∅⟩, []⟩ [] ?_
    rw [← whole, List.append_nil]
  rw [collect_eq, whole]
  clear_value ended
  cases ended with
  | ok hash s =>
      cases inStep with
      | ended complete results taken =>
          exact ⟨_, [], (List.append_nil _).symm, taken, results, fun _ _ => ⟨rfl, complete⟩⟩
  | error failure s =>
      cases inStep with
      | failed first left split results taken =>
          rw [List.append_nil] at results
          refine ⟨first, left, split, taken, results, ?_⟩
          intro done succeeded
          cases succeeded

open Sample.Spelling in
/-- A node above two leaves, each of which is walked on its own. -/
theorem takings_lockstep_leaves :
    let results := (indexer.frontier 0).map indexer.walkEntry
    (∃ done, indexer.joinAll 0 results = .ok done) ∧
      (AccountedJoin.final (indexer.joinAllAccounted 0 results)).takings =
        [⟨1, .ofIndices [0], some (indexer.walk 1 (.ofIndices [0]))⟩,
          ⟨2, .ofIndices [1], some (indexer.walk 2 (.ofIndices [1]))⟩] := by
  intro results
  obtain ⟨done, succeeds⟩ : ∃ done, indexer.joinAll 0 results = .ok done :=
    exists_eq_ok (by decide +kernel)
  obtain ⟨-, first, left, split, taken, -, all⟩ := indexer.takings_lockstep 0 indexer.walkEntry
  obtain ⟨rfl, -⟩ := all done succeeds
  refine ⟨⟨done, succeeds⟩, ?_⟩
  rw [List.append_nil] at split
  rw [taken, ← split]
  rfl

end Indexer

end SubtermIndex
