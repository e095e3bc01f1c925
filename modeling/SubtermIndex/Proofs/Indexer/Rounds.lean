/-
# `SubtermIndex.Proofs.Indexer.Rounds` — a walk enters in pre-order and leaves in post-order

Every round of the loop takes the next step of a walk over the outline of the tree: it enters a
node and reads its children, or it closes one and leaves it.  The frames on the stack determine
which steps are still ahead (`Ahead`), and a round takes the first of them away.  Hence the number
of rounds, and the order in which nodes are read and closed.

Which hashes a node is given is said by a second invariant (`Standing`): each of them is that of a
node which has been closed at the place of the child.

Both invariants are kept by every round, and induction on the rounds (`history_induction`) carries
them to the end.  The first one has to do with the tree and not with hashes; for the second one no
tree is needed, and it holds of infinite ones as well.
-/
import SubtermIndex.Indexer.Rounds
import SubtermIndex.Proofs.Indexer.Recursion
import SubtermIndex.Proofs.Outline
import SubtermIndex.Sample.Spelling

namespace SubtermIndex.Indexer

open Outline (Step)

def Round.step? {N : Type} : Round N → Option (Step N)
  | entered place => some (.enter place)
  | left closing => some (.leave closing.place)
  | failed _ => none

variable {N : Type} (ix : Indexer N)

/-! ## One round -/

inductive Turns (s : Loop N) (top : Frame N) (below : List (Frame N)) :
    Round N → Loop N → Prop
  | entered {child : N} {children : List N} : top.children[top.next]? = some child →
      ix.reader.children child = .ok children →
      Turns s top below (.entered ⟨child, s.path.child top.next, children.length⟩)
        { s with
          stack := ⟨child, children, 0, []⟩ :: { top with next := top.next + 1 } :: below
          path := s.path.child top.next }
  | left (done : Closed) : top.children[top.next]? = none →
      Turns s top below
        (.left ⟨⟨top.node, s.path, top.children.length⟩, top.hashes, done.hash⟩)
        (s.unwind done below)

theorem eq_of_openFrame {node : N} {pos : Position} {f : Frame N}
    (opened : ix.openFrame node pos = .ok f) :
    ∃ children, ix.reader.children node = .ok children ∧ f = ⟨node, children, 0, []⟩ := by
  rw [openFrame] at opened
  cases read : ix.childrenAt node pos with
  | error failure =>
      rw [read] at opened
      cases opened
  | ok children =>
      rw [read] at opened
      cases opened
      exact ⟨children, eq_ok_of_ofReading read, rfl⟩

theorem turns_of_accountedRound {s next : Loop N} {top : Frame N} {below : List (Frame N)}
    {round : Round N} (done : ix.accountedRound s top below = .ok (round, next)) :
    ix.Turns s top below round next := by
  rw [accountedRound] at done
  split at done
  case h_1 child found =>
    obtain ⟨-, -, done⟩ := bind_eq_ok_iff.mp done
    obtain ⟨frame, opened, done⟩ := bind_eq_ok_iff.mp done
    obtain ⟨children, read, rfl⟩ := ix.eq_of_openFrame opened
    cases done
    exact .entered found read
  case h_2 last =>
    obtain ⟨closed, -, done⟩ := bind_eq_ok_iff.mp done
    cases done
    exact .left closed last

/-! ## All rounds -/

theorem history_of_nil {s : Loop N} (stack : s.stack = []) : ix.history s = [] := by
  rw [history]
  split
  case h_1 => rfl
  case h_2 other => simp [stack] at other

theorem history_of_cons {s : Loop N} {top : Frame N} {below : List (Frame N)}
    (stack : s.stack = top :: below) :
    ix.history s =
      match ix.accountedRound s top below with
      | .error failure => [.failed failure]
      | .ok (round, next) => round :: ix.history next := by
  rw [history]
  split
  case h_1 none => simp [stack] at none
  case h_2 top' below' same =>
    obtain ⟨rfl, rfl⟩ := List.cons.inj (same.symm.trans stack)
    split
    case h_1 failed => rw [failed]
    case h_2 done => rw [done]

/-- What holds of all rounds of a loop, by induction on them. -/
theorem history_induction {P : Loop N → List (Round N) → Except Failure (Loop N) → Prop}
    (ended : ∀ s, s.stack = [] → P s [] (.ok s))
    (failed : ∀ s top below failure, s.stack = top :: below →
      P s [.failed failure] (.error failure))
    (turned : ∀ s top below round next, s.stack = top :: below →
      ix.Turns s top below round next → P next (ix.history next) (ix.loop next) →
      P s (round :: ix.history next) (ix.loop next))
    (s : Loop N) : P s (ix.history s) (ix.loop s) := by
  induction s using history.induct ix with
  | case1 s stack =>
      rw [history_of_nil ix stack, loop_of_nil ix stack]
      exact ended s stack
  | case2 s top below stack failure fails =>
      rw [history_of_cons ix stack, loop_of_cons ix stack, round_eq, fails]
      exact failed s top below failure stack
  | case3 s top below stack round next done ih =>
      rw [history_of_cons ix stack, loop_of_cons ix stack, round_eq, done]
      exact turned s top below round next stack (ix.turns_of_accountedRound done) ih

/-! ## The steps ahead -/

/-- The steps that frames still have ahead of them, if the last one stands at the given position:
those of the children that are not entered, and then it is left. -/
inductive Ahead (r : NodeReader N) : List (Frame N) → Position → List (Step N) → Prop
  | nil {pos : Position} : Ahead r [] pos []
  | cons {f : Frame N} {below : List (Frame N)} {pos : Position} {ts : List (Outline N)}
      {steps : List (Step N)} :
      List.Forall₂ r.Shows (f.children.drop f.next) ts → Ahead r below pos.parent steps →
      Ahead r (f :: below) pos
        (Outline.stepsFrom ts pos f.next ++
          .leave ⟨f.node, pos, f.children.length⟩ :: steps)

variable {ix}

theorem Ahead.turn {s next : Loop N} {top : Frame N} {below : List (Frame N)} {round : Round N}
    {steps : List (Step N)} (ahead : Ahead ix.reader (top :: below) s.path steps)
    (turns : ix.Turns s top below round next) :
    ∃ step rest, steps = step :: rest ∧ round.step? = some step ∧
      Ahead ix.reader next.stack next.path rest := by
  obtain _ | ⟨shown, others⟩ := ahead
  cases turns with
  | @entered child children found read =>
      rw [Frame.drop_eq_cons found] at shown
      obtain _ | @⟨_, t, _, ts, first, rest⟩ := shown
      obtain ⟨outlines, rfl, all⟩ := first.exists_children read
      refine ⟨.enter _, _, ?_, rfl, .cons all (.cons rest others)⟩
      simp only [Outline.stepsFrom, Outline.steps, all.length_eq, List.cons_append,
        List.append_assoc, List.nil_append, Position.parent_child]
  | left done last =>
      rw [List.drop_eq_nil_of_le (List.getElem?_eq_none_iff.mp last)] at shown
      cases shown
      refine ⟨.leave _, _, rfl, rfl, ?_⟩
      cases others with
      | nil => exact .nil
      | cons shown others => exact .cons shown others

variable (ix)

/-- The loop takes the steps ahead one by one, and all of them if it ends. -/
theorem history_of_ahead (s : Loop N) {steps : List (Step N)}
    (ahead : Ahead ix.reader s.stack s.path steps) :
    (ix.history s).length ≤ steps.length ∧ (ix.history s).filterMap Round.step? <+: steps ∧
      ∀ s', ix.loop s = .ok s' →
        (ix.history s).length = steps.length ∧ (ix.history s).filterMap Round.step? = steps := by
  revert steps
  refine ix.history_induction (P := fun s rounds ends => ∀ {steps},
    Ahead ix.reader s.stack s.path steps →
      rounds.length ≤ steps.length ∧ rounds.filterMap Round.step? <+: steps ∧
        ∀ s', ends = .ok s' →
          rounds.length = steps.length ∧ rounds.filterMap Round.step? = steps) ?ended ?failed
    ?turned s
  case ended =>
    intro s stack steps ahead
    rw [stack] at ahead
    cases ahead
    exact ⟨le_rfl, List.prefix_refl _, fun _ _ => ⟨rfl, rfl⟩⟩
  case failed =>
    intro s top below failure stack steps ahead
    rw [stack] at ahead
    cases ahead with
    | cons shown others =>
        exact ⟨List.length_pos_of_mem (List.mem_append_right _ List.mem_cons_self),
          List.nil_prefix, fun _ ends => nomatch ends⟩
  case turned =>
    intro s top below round next stack turns ih steps ahead
    rw [stack] at ahead
    -- the round takes the first step ahead, and the induction goes on with the others
    obtain ⟨step, rest, rfl, took, ahead⟩ := ahead.turn turns
    obtain ⟨bound, order, all⟩ := ih ahead
    rw [List.filterMap_cons_some took]
    refine ⟨Nat.succ_le_succ bound, (List.cons_prefix_cons).mpr ⟨rfl, order⟩, ?_⟩
    intro s' ends
    obtain ⟨count, same⟩ := all s' ends
    exact ⟨congrArg Nat.succ count, congrArg _ same⟩

/-! ## The hashes that nodes are given

A frame waits for the hash of the child that it has entered last.  When this child is closed, the
frame is given its hash, and then waits for nothing until it enters the next one. -/

/-- Whether hashes are those of the first children of the node at `pos`, in their order. -/
def Given (closed : List (Closing N)) (pos : Position) (hashes : List NodeHash) : Prop :=
  ∀ i hash, hashes[i]? = some hash → ∃ c ∈ closed, c.place.pos = pos.child i ∧ c.hash = hash

def Justified (closed : List (Closing N)) : Prop :=
  ∀ c ∈ closed, c.hashes.length = c.place.arity ∧ Given closed c.place.pos c.hashes

/-- A frame at `pos` that has been given the hashes of all children that it has entered, up to
`waiting` of them. -/
structure Filled (closed : List (Closing N)) (pos : Position) (waiting : Nat) (f : Frame N) :
    Prop where
  given : Given closed pos f.hashes
  entered : f.next = f.hashes.length + waiting
  inRange : f.next ≤ f.children.length

/-- The frames below one at the given position: each waits for the hash of the child that it has
entered last, and the first one stands at `origin`. -/
inductive Waiting (origin : Position) (closed : List (Closing N)) :
    List (Frame N) → Position → Prop
  | nil : Waiting origin closed [] origin
  | cons {f : Frame N} {below : List (Frame N)} {pos : Position} :
      Filled closed pos.parent 1 f → pos = pos.parent.child f.hashes.length →
      Waiting origin closed below pos.parent → Waiting origin closed (f :: below) pos

/-- How a state relates to the nodes that have been closed before. -/
inductive Standing (origin : Position) (closed : List (Closing N)) (s : Loop N) : Prop
  | within {top : Frame N} {below : List (Frame N)} : s.stack = top :: below →
      Filled closed s.path 0 top → Waiting origin closed below s.path → Standing origin closed s
  | ended {c : Closing N} : s.stack = [] → c ∈ closed → c.place.pos = origin →
      s.rootHash = some c.hash → Standing origin closed s

section

variable {origin pos : Position} {closed more : List (Closing N)}

theorem given_nil : Given closed pos [] := by
  intro i hash found
  cases found

theorem Given.append {hashes : List NodeHash} (given : Given closed pos hashes) :
    Given (closed ++ more) pos hashes := by
  intro i hash found
  obtain ⟨c, mem, there⟩ := given i hash found
  exact ⟨c, List.mem_append_left more mem, there⟩

theorem Filled.append {waiting : Nat} {f : Frame N} (filled : Filled closed pos waiting f) :
    Filled (closed ++ more) pos waiting f :=
  { filled with given := filled.given.append }

theorem Waiting.append {below : List (Frame N)} (waiting : Waiting origin closed below pos) :
    Waiting origin (closed ++ more) below pos := by
  induction waiting with
  | nil => exact .nil
  | cons filled place _ ih => exact .cons filled.append place ih

theorem Filled.give {f : Frame N} (filled : Filled closed pos 1 f) {c : Closing N}
    (place : c.place.pos = pos.child f.hashes.length) :
    Filled (closed ++ [c]) pos 0 { f with hashes := f.hashes ++ [c.hash] } where
  given := by
    intro i hash found
    rcases Nat.lt_or_ge i f.hashes.length with earlier | last
    · rw [List.getElem?_append_left earlier] at found
      exact filled.given.append i hash found
    · rw [List.getElem?_append_right last, List.getElem?_singleton] at found
      split at found
      case isTrue here =>
        cases found
        have : i = f.hashes.length := by omega
        exact ⟨c, List.mem_append_right _ List.mem_cons_self, by rw [place, this], rfl⟩
      case isFalse => cases found
  entered := by
    rw [filled.entered, List.length_append]
    rfl
  inRange := filled.inRange

variable {ix}

theorem Standing.turn {s next : Loop N} {top : Frame N} {below : List (Frame N)}
    {round : Round N} (stack : s.stack = top :: below) (standing : Standing origin closed s)
    (turns : ix.Turns s top below round next) (justified : Justified closed) :
    Standing origin (closed ++ round.closing?.toList) next ∧
      Justified (closed ++ round.closing?.toList) := by
  cases standing with
  | ended none =>
      rw [stack] at none
      cases none
  | within same filled waiting =>
      cases stack.symm.trans same
      cases turns with
      | @entered child children found read =>
          have inRange : top.next < top.children.length :=
            (List.getElem?_eq_some_iff.mp found).1
          have place : s.path.child top.next = s.path.child top.hashes.length :=
            congrArg s.path.child filled.entered
          have begun : Filled closed (s.path.child top.next) 0 ⟨child, children, 0, []⟩ :=
            ⟨given_nil, rfl, Nat.zero_le _⟩
          have waits : Filled closed s.path 1 { top with next := top.next + 1 } :=
            ⟨filled.given, congrArg Nat.succ filled.entered, inRange⟩
          simp only [Round.closing?, Option.toList_none, List.append_nil]
          exact ⟨.within rfl begun (.cons waits place waiting), justified⟩
      | left done last =>
          -- the frame has been given a hash for each of its children
          have complete : top.hashes.length = top.children.length := by
            have := List.getElem?_eq_none_iff.mp last
            have := filled.entered
            have := filled.inRange
            omega
          refine ⟨?standing, ?justified⟩
          case standing =>
            cases waiting with
            | nil => exact .ended rfl (List.mem_append_right _ List.mem_cons_self) rfl rfl
            | cons waits place others => exact .within rfl (waits.give place) others.append
          case justified =>
            intro c mem
            rcases List.mem_append.mp mem with earlier | here
            · obtain ⟨count, given⟩ := justified c earlier
              exact ⟨count, given.append⟩
            · cases List.mem_singleton.mp here
              exact ⟨complete, filled.given.append⟩

end

/-- All nodes are justified when a loop stops, and if it ends then with the hash of a node
that has been closed at the place of the root. -/
theorem standing_of_loop {origin : Position} (s : Loop N) {closed : List (Closing N)}
    (standing : Standing origin closed s) (justified : Justified closed) :
    Justified (closed ++ (ix.history s).filterMap Round.closing?) ∧
      ∀ s', ix.loop s = .ok s' →
        ∃ c ∈ closed ++ (ix.history s).filterMap Round.closing?,
          c.place.pos = origin ∧ s'.rootHash = some c.hash := by
  revert closed
  refine ix.history_induction (P := fun s rounds ends => ∀ {closed},
    Standing origin closed s → Justified closed →
      Justified (closed ++ rounds.filterMap Round.closing?) ∧
        ∀ s', ends = .ok s' → ∃ c ∈ closed ++ rounds.filterMap Round.closing?,
          c.place.pos = origin ∧ s'.rootHash = some c.hash) ?ended ?failed ?turned s
  case ended =>
    intro s stack closed standing justified
    rw [List.filterMap_nil, List.append_nil]
    refine ⟨justified, ?_⟩
    rintro _ ⟨⟩
    cases standing with
    | within other =>
        rw [stack] at other
        cases other
    | ended _ mem place hash => exact ⟨_, mem, place, hash⟩
  case failed =>
    intro s top below failure stack closed standing justified
    rw [List.filterMap_cons_none rfl, List.filterMap_nil, List.append_nil]
    exact ⟨justified, fun _ ends => nomatch ends⟩
  case turned =>
    intro s top below round next stack turns ih closed standing justified
    obtain ⟨standing, justified⟩ := standing.turn stack turns justified
    -- what the round has closed counts as closed before the rounds that follow
    have first : closed ++ (round :: ix.history next).filterMap Round.closing? =
        closed ++ round.closing?.toList ++ (ix.history next).filterMap Round.closing? := by
      rw [List.append_assoc, List.filterMap_cons]
      cases round.closing? <;> rfl
    rw [first]
    exact ih standing justified

/-! ## The whole walk -/

def Closing.ofHashes (hashAt : Position → NodeHash) (o : Occurrence N) : Closing N where
  place := o
  hashes := (List.range o.arity).map fun i => hashAt (o.pos.child i)
  hash := hashAt o.pos

theorem filterMap_entered? (rounds : List (Round N)) :
    (rounds.filterMap Round.step?).filterMap Step.entered? =
      rounds.filterMap Round.entered? := by
  rw [List.filterMap_filterMap]
  refine congrArg (List.filterMap · rounds) ?_
  funext round
  cases round <;> rfl

theorem filterMap_left? (rounds : List (Round N)) :
    (rounds.filterMap Round.step?).filterMap Step.left? =
      (rounds.filterMap Round.closing?).map Closing.place := by
  rw [List.filterMap_filterMap, List.map_filterMap]
  refine congrArg (List.filterMap · rounds) ?_
  funext round
  cases round <;> rfl

def hashOf (closed : List (Closing N)) (other : NodeHash) (pos : Position) : NodeHash :=
  ((closed.find? fun c => c.place.pos = pos).map Closing.hash).getD other

theorem hashOf_of_mem {closed : List (Closing N)}
    (nodup : (closed.map fun c => c.place.pos).Nodup) (other : NodeHash) {c : Closing N}
    (mem : c ∈ closed) : hashOf closed other c.place.pos = c.hash := by
  obtain ⟨c', found⟩ : ∃ c', closed.find? (fun d => d.place.pos = c.place.pos) = some c' :=
    Option.isSome_iff_exists.mp (List.find?_isSome.mpr ⟨c, mem, decide_eq_true rfl⟩)
  have place := List.find?_some found
  rw [decide_eq_true_eq] at place
  have same : c' = c :=
    List.inj_on_of_nodup_map nodup (List.mem_of_find?_eq_some found) mem place
  rw [hashOf, found, same]
  rfl

theorem Justified.eq_map_ofHashes {closed : List (Closing N)} (justified : Justified closed)
    (nodup : (closed.map fun c => c.place.pos).Nodup) (other : NodeHash) :
    closed = (closed.map Closing.place).map (Closing.ofHashes (hashOf closed other)) := by
  have each : ∀ c ∈ closed, c = Closing.ofHashes (hashOf closed other) c.place := by
    intro c mem
    obtain ⟨count, given⟩ := justified c mem
    have hashes : c.hashes = (List.range c.place.arity).map fun i =>
        hashOf closed other (c.place.pos.child i) := by
      refine List.ext_getElem (by simpa using count) ?_
      intro i inRange _
      obtain ⟨c', mem', place, hash⟩ := given i _ (List.getElem?_eq_getElem inRange)
      rw [List.getElem_map, List.getElem_range, ← hash, ← place, hashOf_of_mem nodup other mem']
    rw [Closing.ofHashes, hashOf_of_mem nodup other mem, ← hashes]
  rw [List.map_map]
  exact (List.map_id closed).symm.trans (List.map_congr_left each)

theorem eq_of_beginLoop {root : N} {origin : Position} {s : Loop N}
    (begun : ix.beginLoop root origin = .ok s) :
    ∃ children, ix.reader.children root = .ok children ∧
      s = ⟨[⟨root, children, 0, []⟩], origin, ∅, none⟩ := by
  obtain ⟨-, -, begun⟩ := bind_eq_ok_iff.mp begun
  obtain ⟨frame, opened, begun⟩ := bind_eq_ok_iff.mp begun
  obtain ⟨children, read, rfl⟩ := ix.eq_of_openFrame opened
  cases begun
  exact ⟨children, read, rfl⟩

theorem exists_of_walkLoop {root : N} {origin : Position} {hash : NodeHash} {m : Index}
    (walked : ix.walkLoop root origin = .ok (hash, m)) :
    ∃ s s', ix.beginLoop root origin = .ok s ∧ ix.loop s = .ok s' ∧ s'.rootHash = some hash := by
  obtain ⟨_, shallow, walked⟩ := bind_eq_ok_iff.mp walked
  obtain ⟨frame, opened, walked⟩ := bind_eq_ok_iff.mp walked
  obtain ⟨s', looped, walked⟩ := bind_eq_ok_iff.mp walked
  refine ⟨_, s', ?_, looped, ?_⟩
  · rw [beginLoop, shallow, opened]
    rfl
  · split at walked
    case h_1 hash' known =>
      cases walked
      exact known
    case h_2 => cases walked

section

variable {root : N} {t : Outline N} {origin : Position} {s : Loop N}

theorem rounds_of_beginLoop (begun : ix.beginLoop root origin = .ok s) :
    ix.rounds root origin = ix.history s := by
  rw [rounds, begun]

/-- The walk has the steps of the outline ahead, all but the first: it enters the root before
the loop begins. -/
theorem exists_ahead_of_beginLoop (shown : ix.reader.Shows root t)
    (begun : ix.beginLoop root origin = .ok s) :
    ∃ o steps, t.steps origin = .enter o :: steps ∧ Ahead ix.reader s.stack s.path steps ∧
      ix.readings root origin = o :: (ix.history s).filterMap Round.entered? ∧
      Standing origin [] s := by
  obtain ⟨children, read, rfl⟩ := ix.eq_of_beginLoop begun
  obtain ⟨outlines, rfl, all⟩ := shown.exists_children read
  refine ⟨⟨root, origin, children.length⟩, _, ?_, .cons all .nil, ?_, ?_⟩
  · rw [Outline.steps, all.length_eq]
  · rw [readings, begun]
    rfl
  · exact .within rfl ⟨given_nil, rfl, Nat.zero_le _⟩ .nil

theorem readings_of_beginLoop (shown : ix.reader.Shows root t)
    (begun : ix.beginLoop root origin = .ok s) :
    (ix.rounds root origin).length ≤ 2 * t.size - 1 ∧
      ix.readings root origin <+: t.preorder origin ∧
      ∀ s', ix.loop s = .ok s' →
        (ix.rounds root origin).length = 2 * t.size - 1 ∧
          ix.readings root origin = t.preorder origin := by
  obtain ⟨o, steps, first, ahead, readings, -⟩ := ix.exists_ahead_of_beginLoop shown begun
  obtain ⟨bound, order, all⟩ := ix.history_of_ahead s ahead
  have count : steps.length = 2 * t.size - 1 := by
    have both := Outline.length_steps.1 t origin
    rw [first, List.length_cons] at both
    omega
  have pre : t.preorder origin = o :: steps.filterMap Step.entered? := by
    rw [← Outline.entered_steps.1, first]
    rfl
  rw [ix.rounds_of_beginLoop begun, readings, pre, ← count, ← filterMap_entered?]
  refine ⟨bound, List.cons_prefix_cons.mpr ⟨rfl, order.filterMap _⟩, ?_⟩
  intro s' ends
  obtain ⟨exact, same⟩ := all s' ends
  exact ⟨exact, by rw [same]⟩

theorem closings_of_beginLoop (shown : ix.reader.Shows root t)
    (begun : ix.beginLoop root origin = .ok s) :
    ∃ hashAt : Position → NodeHash,
      ix.closings root origin <+: (t.postorder origin).map (Closing.ofHashes hashAt) ∧
      ∀ s', ix.loop s = .ok s' →
        ix.closings root origin = (t.postorder origin).map (Closing.ofHashes hashAt) ∧
          s'.rootHash = some (hashAt origin) := by
  obtain ⟨o, steps, first, ahead, -, standing⟩ := ix.exists_ahead_of_beginLoop shown begun
  obtain ⟨-, order, all⟩ := ix.history_of_ahead s ahead
  obtain ⟨justified, ends⟩ := ix.standing_of_loop s standing (List.forall_mem_nil _)
  have closings : ix.closings root origin = (ix.history s).filterMap Round.closing? := by
    rw [Indexer.closings, ix.rounds_of_beginLoop begun]
  rw [List.nil_append, ← closings] at justified ends
  have post : t.postorder origin = steps.filterMap Step.left? := by
    rw [← Outline.left_steps.1, first]
    rfl
  have places : (ix.closings root origin).map Closing.place =
      ((ix.history s).filterMap Round.step?).filterMap Step.left? := by
    rw [closings, filterMap_left?]
  have left : (ix.closings root origin).map Closing.place <+: t.postorder origin := by
    rw [places, post]
    exact order.filterMap _
  -- a hash is found by its place, and no two nodes close at one place
  have different : ((ix.closings root origin).map fun c => c.place.pos).Nodup := by
    have nodup := (left.sublist.map Occurrence.pos).nodup (Outline.nodup_places.1 t origin)
    rwa [List.map_map] at nodup
  have byPlace := justified.eq_map_ofHashes different (ix.hasher.nodeHash [])
  refine ⟨hashOf (ix.closings root origin) (ix.hasher.nodeHash []), ?_, ?_⟩
  · nth_rewrite 1 [byPlace]
    exact left.map _
  · intro s' looped
    obtain ⟨-, same⟩ := all s' looped
    obtain ⟨c, mem, place, own⟩ := ends s' looped
    rw [places, same, ← post] at byPlace
    have known := hashOf_of_mem different (ix.hasher.nodeHash []) mem
    rw [place] at known
    exact ⟨byPlace, by rw [own, known]⟩

end

/-- In a finite tree with `n` occurrences of nodes the loop of a walk has at most `2 * n - 1`
rounds, whatever the reader, the digest and the limit are.  It reads the children of the nodes in
pre-order and closes the nodes in post-order, each with the hashes of its children in their order,
until it stops.  A walk that succeeds has exactly `2 * n - 1` rounds, and reads and closes every
occurrence exactly once. -/
theorem rounds_of_shows {root : N} {t : Outline N} (shown : ix.reader.Shows root t)
    (origin : Position) :
    (t.preorder origin).length = t.size ∧ (t.preorder origin).Perm (t.postorder origin) ∧
      ((t.preorder origin).map Occurrence.pos).Nodup ∧
      (ix.rounds root origin).length ≤ 2 * t.size - 1 ∧
      ix.readings root origin <+: t.preorder origin ∧
      ∃ hashAt : Position → NodeHash,
        ix.closings root origin <+: (t.postorder origin).map (Closing.ofHashes hashAt) ∧
        ∀ hash m, ix.walkLoop root origin = .ok (hash, m) →
          (ix.rounds root origin).length = 2 * t.size - 1 ∧
          ix.readings root origin = t.preorder origin ∧
          ix.closings root origin = (t.postorder origin).map (Closing.ofHashes hashAt) ∧
          hashAt origin = hash := by
  have perm := Outline.perm_preorder.1 t origin
  have nodup := (perm.map Occurrence.pos).nodup_iff.mpr (Outline.nodup_places.1 t origin)
  refine ⟨Outline.length_preorder.1 t origin, perm, nodup, ?_⟩
  cases begun : ix.beginLoop root origin with
  | error failure =>
      simp only [rounds, readings, closings, begun, List.filterMap_nil]
      refine ⟨Nat.zero_le _, List.nil_prefix, fun _ => ix.hasher.nodeHash [], List.nil_prefix, ?_⟩
      intro hash m walked
      obtain ⟨s, s', begun', -⟩ := ix.exists_of_walkLoop walked
      cases begun.symm.trans begun'
  | ok s =>
      obtain ⟨bound, reads, allRead⟩ := ix.readings_of_beginLoop shown begun
      obtain ⟨hashAt, closes, allClosed⟩ := ix.closings_of_beginLoop shown begun
      refine ⟨bound, reads, hashAt, closes, ?_⟩
      intro hash m walked
      obtain ⟨_, s', begun', looped, rootHash⟩ := ix.exists_of_walkLoop walked
      cases begun.symm.trans begun'
      obtain ⟨count, readings⟩ := allRead s' looped
      obtain ⟨closings, own⟩ := allClosed s' looped
      exact ⟨count, readings, closings, Option.some.inj (own.symm.trans rootHash)⟩

/-- The two leaves of the sample are equal, and each of them is read and closed at its place. -/
theorem rounds_of_shows_spelling :
    Sample.Spelling.reader.Shows 0 (.node 0 [.node 1 [], .node 2 []]) ∧
      (∃ hash m, Sample.Spelling.indexer.walkLoop 0 .root = .ok (hash, m)) ∧
      (Sample.Spelling.indexer.rounds 0 .root).length = 5 ∧
      Sample.Spelling.indexer.readings 0 .root =
        [⟨0, .root, 2⟩, ⟨1, .ofIndices [0], 0⟩, ⟨2, .ofIndices [1], 0⟩] ∧
      (Sample.Spelling.indexer.closings 0 .root).map Closing.place =
        [⟨1, .ofIndices [0], 0⟩, ⟨2, .ofIndices [1], 0⟩, ⟨0, .root, 2⟩] := by
  have shown : Sample.Spelling.reader.Shows 0 (.node 0 [.node 1 [], .node 2 []]) :=
    .node rfl (.cons (.node rfl .nil) (.cons (.node rfl .nil) .nil))
  have ends : (Sample.Spelling.indexer.visitAt 0 .root ∅).toBool = true := by decide +kernel
  obtain ⟨⟨hash, m⟩, visited⟩ := exists_eq_ok ends
  rw [← walkLoop_eq_visitAt] at visited
  obtain ⟨-, -, -, -, -, hashAt, -, all⟩ :=
    Sample.Spelling.indexer.rounds_of_shows shown .root
  obtain ⟨count, readings, closings, -⟩ := all hash m visited
  exact ⟨shown, ⟨hash, m, visited⟩, count, readings, by rw [closings]; rfl⟩

end SubtermIndex.Indexer
