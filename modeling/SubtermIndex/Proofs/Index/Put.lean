/-
# `SubtermIndex.Proofs.Index.Put` — an index is what has been put into it

Closing a node puts one entry into an index: its edges, its node and its shape (`put`).  What an
index answers after a row of entries has been put into it is read off the row (`ExtendsAll`), and
whether all of them can be put depends on nothing but their hashes and records
(`putAll_isOk_iff`).

Hence merging an index that was built from a row is the same as putting the row
(`merge_eq_ok_iff`): what one of the two places at which collisions are looked for would miss, the
other one misses too.  Where either finds one, two entries have the hash it names and are written
differently (`Clash`), though the two places may name different hashes.

An index is an index of entries in what follows.  That it was a tree that has been walked, and
how, is forgotten here; a row may come from any number of trees, from parts of them, and with
repeats.
-/
import SubtermIndex.Index.Merge
import SubtermIndex.Proofs.PairSet
import SubtermIndex.Proofs.Tree

namespace SubtermIndex.Index

open Std

/-- Puts an entry into an index: its edges, then its node, then its shape. -/
def put (H : Hasher) (e : Entry) (m : Index) : Except NodeHash Index :=
  match (m.addEdges (e.hash H) e.children).store? (e.hash H) e.node with
  | none => .error (e.hash H)
  | some (_, m) => .ok (m.addShape (e.shape H) (e.hash H))

/-- Puts entries one after another. -/
def putAll (H : Hasher) : List Entry → Index → Except NodeHash Index
  | [], m => .ok m
  | e :: rest, m =>
      match m.put H e with
      | .error h => .error h
      | .ok m => putAll H rest m

theorem putAll_append (H : Hasher) (E F : List Entry) (m : Index) :
    putAll H (E ++ F) m = (putAll H E m).bind (putAll H F) := by
  induction E generalizing m with
  | nil => rfl
  | cons e rest ih =>
      rw [List.cons_append, putAll, putAll]
      cases m.put H e with
      | error h => rfl
      | ok m => exact ih m

/-! ## What one entry changes

An entry agrees with an index unless another record stands under its hash, and then it can be put
(`put_isOk_iff`).  What the index answers afterwards determines it (`WellFormed.ext`), so nothing
else has to be said of the three maps. -/

def Agrees (H : Hasher) (m : Index) (e : Entry) : Prop :=
  ∀ there, m.node? (e.hash H) = some there → there.encodedRecord = .ok e.record

/-- No key of an index is without members, and its edges agree from both sides. -/
structure WellFormed (m : Index) : Prop where
  shapes : Groups.Full m.shapes
  edges : m.edges.Valid

theorem wellFormed_empty : WellFormed ∅ where
  shapes := Groups.full_empty
  edges := PairSet.valid_empty

theorem WellFormed.ext {m m' : Index} (hm : m.WellFormed) (hm' : m'.WellFormed)
    (nodes : ∀ h, m.node? h = m'.node? h)
    (shapes : ∀ s h, Groups.hasMember m.shapes s h = Groups.hasMember m'.shapes s h)
    (edges : ∀ h c, m.edges.contains h c = m'.edges.contains h c) : m = m' := by
  have nodes : m.nodes = m'.nodes := ExtTreeMap.ext_getElem? nodes
  have shapes : m.shapes = m'.shapes := hm.shapes.ext hm'.shapes shapes
  have edges : m.edges = m'.edges := hm.edges.ext hm'.edges edges
  cases m
  cases m'
  simp_all

theorem WellFormed.union {m m' : Index} (hm : m.WellFormed) (hm' : m'.WellFormed) :
    (m.union m').WellFormed :=
  ⟨hm.shapes.merge hm'.shapes, hm.edges.union⟩

theorem addEdges_eq (m : Index) (h : NodeHash) (children : List NodeHash) :
    m.addEdges h children = { m with edges := m.edges.insertAll (children.map (h, ·)) } := by
  rw [addEdges, PairSet.insertAll, List.foldl_map]

theorem isSome_store? {m : Index} {e : Entry} {H : Hasher} :
    (m.store? (e.hash H) e.node).isSome ↔ m.Agrees H e := by
  rw [store?, Agrees, node?]
  cases there : m.nodes[e.hash H]? with
  | none => simp
  | some old =>
      have same := Node.sameStructure_iff (a := old) e.encodedRecord
      by_cases alike : old.sameStructure e.node = true
      · simp [alike, same.mp alike]
      · simp only [alike, Bool.false_eq_true, if_false, Option.isSome_none, false_iff]
        intro agrees
        exact alike (same.mpr (agrees old rfl))

theorem eq_of_store? {m m' : Index} {h : NodeHash} {n : Node} {isNew : Bool}
    (stored : m.store? h n = some (isNew, m')) : m'.shapes = m.shapes ∧ m'.edges = m.edges := by
  rw [store?] at stored
  split at stored
  · split at stored
    · cases stored
      exact ⟨rfl, rfl⟩
    · cases stored
  · cases stored
    exact ⟨rfl, rfl⟩

theorem put_isOk_iff {H : Hasher} {m : Index} {e : Entry} :
    (∃ m', m.put H e = .ok m') ↔ m.Agrees H e := by
  have agrees : (m.addEdges (e.hash H) e.children).Agrees H e ↔ m.Agrees H e := Iff.rfl
  rw [← agrees, ← isSome_store?, put]
  cases (m.addEdges (e.hash H) e.children).store? (e.hash H) e.node with
  | none => simp
  | some stored => simp

theorem eq_hash_of_put {H : Hasher} {m : Index} {e : Entry} {k : NodeHash}
    (h : m.put H e = .error k) : k = e.hash H := by
  rw [put] at h
  split at h
  · exact (Except.error.inj h).symm
  · cases h

/-- What an index answers after an entry has been put into it. -/
structure Extends (H : Hasher) (m : Index) (e : Entry) (m' : Index) : Prop where
  node? : ∀ h, m'.node? h = if e.hash H = h then some ((m.node? h).getD e.node) else m.node? h
  shapes : ∀ s h, Groups.hasMember m'.shapes s h = true ↔
    Groups.hasMember m.shapes s h = true ∨ e.shape H = s ∧ e.hash H = h
  edges : ∀ h c, m'.edges.contains h c = true ↔
    m.edges.contains h c = true ∨ e.hash H = h ∧ c ∈ e.children
  wellFormed : m.WellFormed → m'.WellFormed

theorem extends_of_put {H : Hasher} {m m' : Index} {e : Entry} (h : m.put H e = .ok m') :
    Extends H m e m' := by
  rw [put] at h
  cases stored : (m.addEdges (e.hash H) e.children).store? (e.hash H) e.node with
  | none => simp [stored] at h
  | some result =>
      obtain ⟨isNew, m₁⟩ := result
      simp only [stored, Except.ok.injEq] at h
      subst h
      obtain ⟨shapes, edges⟩ := eq_of_store? stored
      rw [addEdges_eq] at shapes edges
      -- the three maps one by one, and then that no key is left without members
      refine ⟨?_, ?_, ?_, ?_⟩
      · intro k
        rw [node?_addShape, node?_of_store? stored]
        split
        case isTrue same =>
          subst same
          rfl
        case isFalse => rfl
      · intro s k
        rw [addShape, shapes, Groups.hasMember_addMember, Bool.or_eq_true, decide_eq_true_eq,
          or_comm]
      · intro k c
        show m₁.edges.contains k c = true ↔ _
        rw [edges, PairSet.contains_insertAll]
        refine or_congr_right ?_
        rw [List.mem_map]
        constructor
        · rintro ⟨d, hd, same⟩
          cases same
          exact ⟨rfl, hd⟩
        · rintro ⟨rfl, hc⟩
          exact ⟨c, hc, rfl⟩
      · intro hm
        refine ⟨?_, ?_⟩
        · show Groups.Full (Groups.addMember m₁.shapes _ _)
          rw [shapes]
          exact hm.shapes.addMember _ _
        · show m₁.edges.Valid
          rw [edges]
          exact hm.edges.insertAll _

/-! ## What a row of entries changes -/

/-- What an index answers after a row of entries has been put into it.  Of the entries with
one hash the first one stays, unless a node stood there before. -/
structure ExtendsAll (H : Hasher) (m : Index) (E : List Entry) (m' : Index) : Prop where
  node? : ∀ h, m'.node? h =
    (m.node? h).or ((E.find? fun e => e.hash H = h).map Entry.node)
  shapes : ∀ s h, Groups.hasMember m'.shapes s h = true ↔
    Groups.hasMember m.shapes s h = true ∨ ∃ e ∈ E, e.shape H = s ∧ e.hash H = h
  edges : ∀ h c, m'.edges.contains h c = true ↔
    m.edges.contains h c = true ∨ ∃ e ∈ E, e.hash H = h ∧ c ∈ e.children
  wellFormed : m.WellFormed → m'.WellFormed

theorem extendsAll_of_putAll {H : Hasher} {m m' : Index} {E : List Entry}
    (h : putAll H E m = .ok m') : ExtendsAll H m E m' := by
  induction E generalizing m with
  | nil =>
      cases h
      exact ⟨by simp, by simp, by simp, id⟩
  | cons e rest ih =>
      rw [putAll] at h
      cases one : m.put H e with
      | error k => simp [one] at h
      | ok m₁ =>
          simp only [one] at h
          have first := extends_of_put one
          have rest := ih h
          refine ⟨?_, ?_, ?_, ?_⟩
          · intro k
            rw [rest.node?, first.node?, List.find?_cons]
            -- the first entry comes before the others, also if one of them has its hash
            by_cases same : e.hash H = k
            · subst same
              cases m.node? (e.hash H) <;> simp
            · simp [same]
          · intro s k
            rw [rest.shapes, first.shapes]
            simp [or_assoc]
          · intro k c
            rw [rest.edges, first.edges]
            simp [or_assoc]
          · intro hm
            exact rest.wellFormed (first.wellFormed hm)

theorem wellFormed_of_putAll {H : Hasher} {m : Index} {E : List Entry}
    (h : putAll H E ∅ = .ok m) : m.WellFormed :=
  (extendsAll_of_putAll h).wellFormed wellFormed_empty

/-- Whether entries with one hash are written alike. -/
def Consistent (H : Hasher) (E : List Entry) : Prop :=
  ∀ e ∈ E, ∀ f ∈ E, e.hash H = f.hash H → e.record = f.record

theorem Consistent.mono {H : Hasher} {E F : List Entry} (h : Consistent H F) (sub : E ⊆ F) :
    Consistent H E := by
  intro e he f hf
  exact h e (sub he) f (sub hf)

theorem consistent_cons {H : Hasher} {e : Entry} {E : List Entry} :
    Consistent H (e :: E) ↔
      Consistent H E ∧ ∀ f ∈ E, e.hash H = f.hash H → e.record = f.record := by
  simp only [Consistent, List.forall_mem_cons, implies_true, true_and]
  constructor
  · rintro ⟨left, right⟩
    refine ⟨?_, left⟩
    intro f hf
    exact (right f hf).2
  · rintro ⟨all, left⟩
    refine ⟨left, ?_⟩
    intro f hf
    exact ⟨fun same => (left f hf same.symm).symm, all f hf⟩

def Clash (H : Hasher) (E : List Entry) (k : NodeHash) : Prop :=
  ∃ e ∈ E, ∃ f ∈ E, e.hash H = k ∧ f.hash H = k ∧ e.record ≠ f.record

theorem Clash.mono {H : Hasher} {E F : List Entry} {k : NodeHash} (h : Clash H E k)
    (sub : E ⊆ F) : Clash H F k := by
  obtain ⟨e, he, f, hf, different⟩ := h
  exact ⟨e, sub he, f, sub hf, different⟩

theorem Consistent.not_clash {H : Hasher} {E : List Entry} (h : Consistent H E) (k : NodeHash) :
    ¬ Clash H E k := by
  rintro ⟨e, he, f, hf, hashE, hashF, different⟩
  exact different (h e he f hf (hashE.trans hashF.symm))

theorem Extends.agrees_iff {H : Hasher} {m m' : Index} {e f : Entry} (h : Extends H m e m')
    (agrees : m.Agrees H e) :
    m'.Agrees H f ↔ m.Agrees H f ∧ (e.hash H = f.hash H → e.record = f.record) := by
  unfold Agrees at *
  rw [h.node?]
  by_cases same : e.hash H = f.hash H
  · rw [if_pos same]
    simp only [Option.some.injEq, forall_eq', same, true_implies]
    rw [same] at agrees
    cases there : m.node? (f.hash H) with
    | none => simp [Entry.encodedRecord]
    | some old =>
        simp only [Option.getD_some, Option.some.injEq, forall_eq', agrees old there,
          Except.ok.injEq, and_self]
  · simp [same]

/-- Entries can be put into an index exactly when each agrees with the index, and those
with one hash are written alike. -/
theorem putAll_isOk_iff {H : Hasher} {m : Index} {E : List Entry} :
    (∃ m', putAll H E m = .ok m') ↔ (∀ e ∈ E, m.Agrees H e) ∧ Consistent H E := by
  induction E generalizing m with
  | nil => simp [putAll, Consistent]
  | cons e rest ih =>
      rw [putAll]
      cases one : m.put H e with
      | error k =>
          have : ¬ m.Agrees H e := by
            rw [← put_isOk_iff, one]
            simp
          simp [this]
      | ok m₁ =>
          have agrees : m.Agrees H e := put_isOk_iff.mp ⟨m₁, one⟩
          have next (f : Entry) := (extends_of_put one).agrees_iff (f := f) agrees
          simp only [ih, next, consistent_cons, List.forall_mem_cons, agrees, true_and, forall_and]
          tauto

theorem putAll_empty_isOk_iff {H : Hasher} {E : List Entry} :
    (∃ m, putAll H E ∅ = .ok m) ↔ Consistent H E := by
  rw [putAll_isOk_iff, and_iff_right]
  intro e _ there h
  simp at h

/-! ## Building and merging -/

theorem ExtendsAll.node?_empty {H : Hasher} {m : Index} {E : List Entry}
    (h : ExtendsAll H ∅ E m) (k : NodeHash) :
    m.node? k = (E.find? fun e => e.hash H = k).map Entry.node := by
  rw [h.node?, Index.node?_empty, Option.none_or]

theorem ExtendsAll.exists_entry {H : Hasher} {m : Index} {E : List Entry}
    (h : ExtendsAll H ∅ E m) {k : NodeHash} {n : Node} (there : m.node? k = some n) :
    ∃ e ∈ E, e.node = n ∧ e.hash H = k := by
  rw [h.node?_empty, Option.map_eq_some_iff] at there
  obtain ⟨e, found, rfl⟩ := there
  exact ⟨e, List.mem_of_find?_eq_some found, rfl, by simpa using List.find?_some found⟩

/-- An entry that does not agree with an index of entries clashes with one of them. -/
theorem ExtendsAll.clash {H : Hasher} {m : Index} {E : List Entry} {e : Entry}
    (h : ExtendsAll H ∅ E m) (disagrees : ¬ m.Agrees H e) : Clash H (E ++ [e]) (e.hash H) := by
  rw [Agrees] at disagrees
  push Not at disagrees
  obtain ⟨there, stored, different⟩ := disagrees
  obtain ⟨f, hf, rfl, hash⟩ := h.exists_entry stored
  refine ⟨f, List.mem_append_left _ hf, e, List.mem_append_right _ List.mem_cons_self, hash, rfl,
    ?_⟩
  intro same
  rw [f.encodedRecord, same] at different
  exact different rfl

/-- Where a row of entries cannot be put, two of them clash. -/
theorem clash_of_putAll {H : Hasher} {E : List Entry} {k : NodeHash}
    (h : putAll H E ∅ = .error k) : Clash H E k := by
  induction E using List.reverseRecOn with
  | nil => cases h
  | append_singleton E e ih =>
      rw [putAll_append] at h
      cases before : putAll H E ∅ with
      | error k' =>
          rw [before] at h
          cases h
          exact (ih before).mono (List.subset_append_left _ _)
      | ok m =>
          rw [before] at h
          cases last : m.put H e with
          | ok m' => simp [Except.bind, putAll, last] at h
          | error k' =>
              have disagrees : ¬ m.Agrees H e := by
                rw [← put_isOk_iff, last]
                simp
              obtain rfl : k = e.hash H := by
                simp only [Except.bind, putAll, last] at h
                rw [← Except.error.inj h]
                exact eq_hash_of_put last
              exact (extendsAll_of_putAll before).clash disagrees

theorem exists_find?_hash {H : Hasher} {E : List Entry} {e : Entry} (he : e ∈ E) :
    ∃ f ∈ E, f.hash H = e.hash H ∧ (E.find? fun g => g.hash H = e.hash H) = some f := by
  have listed : (E.find? fun g => g.hash H = e.hash H).isSome :=
    List.find?_isSome.mpr ⟨e, he, by simp⟩
  obtain ⟨f, found⟩ := Option.isSome_iff_exists.mp listed
  exact ⟨f, List.mem_of_find?_eq_some found, by simpa using List.find?_some found, found⟩

theorem ExtendsAll.exists_node {H : Hasher} {m : Index} {E : List Entry}
    (h : ExtendsAll H ∅ E m) {e : Entry} (he : e ∈ E) :
    ∃ f ∈ E, f.hash H = e.hash H ∧ m.node? (e.hash H) = some f.node := by
  obtain ⟨f, hf, hash, found⟩ := exists_find?_hash he
  refine ⟨f, hf, hash, ?_⟩
  rw [h.node?_empty, found]
  rfl

theorem getElem?_foldl_insertIfNew (row : List (NodeHash × Node)) (nodes : ExtTreeMap NodeHash Node)
    (h : NodeHash) :
    (row.foldl (fun nodes entry => nodes.insertIfNew entry.1 entry.2) nodes)[h]? =
      (nodes[h]?).or ((row.find? fun entry => entry.1 = h).map (·.2)) := by
  induction row generalizing nodes with
  | nil => simp
  | cons entry rest ih =>
      rw [List.foldl_cons, ih, ExtTreeMap.getElem?_insertIfNew, List.find?_cons]
      by_cases same : entry.1 = h
      · subst same
        by_cases there : entry.1 ∈ nodes <;> simp [there]
      · simp [same]

theorem find?_toList (nodes : ExtTreeMap NodeHash Node) (h : NodeHash) :
    (nodes.toList.find? fun entry => entry.1 = h).map (·.2) = nodes[h]? := by
  cases found : nodes.toList.find? fun entry => entry.1 = h with
  | some entry =>
      have key : entry.1 = h := by simpa using List.find?_some found
      have listed := List.mem_of_find?_eq_some found
      rw [Option.map_some, ← key, ExtTreeMap.mem_toList_iff_getElem?_eq_some.mp listed]
  | none =>
      cases there : nodes[h]? with
      | none => rfl
      | some n =>
          have listed := ExtTreeMap.mem_toList_iff_getElem?_eq_some.mpr there
          simpa using List.find?_eq_none.mp found _ listed

/-- To write nodes where none stand is to unite the maps with precedence for the left one. -/
theorem foldl_insertIfNew_eq_union (incoming nodes : ExtTreeMap NodeHash Node) :
    incoming.toList.foldl (fun nodes entry => nodes.insertIfNew entry.1 entry.2) nodes =
      incoming ∪ nodes := by
  refine ExtTreeMap.ext_getElem? ?_
  intro h
  rw [getElem?_foldl_insertIfNew, ExtTreeMap.getElem?_union, find?_toList]

/-- Indexes can be merged exactly when what stands under one hash has one structure. -/
theorem merge_isOk_iff {m incoming : Index} :
    (∃ merged, m.merge incoming = .ok merged) ↔
      ∀ h there n, m.node? h = some there → incoming.node? h = some n →
        there.sameStructure n = true := by
  have found : (∃ merged, m.merge incoming = .ok merged) ↔ m.firstConflict? incoming = none := by
    rw [merge]
    cases m.firstConflict? incoming <;> simp
  rw [found, firstConflict?, Option.map_eq_none_iff, List.find?_eq_none]
  constructor
  · intro none h there n hthere hn
    have := none (h, n) (ExtTreeMap.mem_toList_iff_getElem?_eq_some.mpr hn)
    simpa [conflictsWith, show m.nodes[h]? = some there from hthere] using this
  · intro all entry listed
    have hn := ExtTreeMap.mem_toList_iff_getElem?_eq_some.mp listed
    rw [conflictsWith]
    cases hthere : m.nodes[entry.1]? with
    | none => simp
    | some there => simp [all entry.1 there entry.2 hthere hn]

def Keeps (m m' : Index) : Prop := ∀ h n, m.node? h = some n → m'.node? h = some n

theorem Keeps.refl (m : Index) : m.Keeps m := fun _ _ there => there

theorem Keeps.trans {m₁ m₂ m₃ : Index} (first : m₁.Keeps m₂) (second : m₂.Keeps m₃) :
    m₁.Keeps m₃ := fun h n there => second h n (first h n there)

theorem keeps_of_merge {m incoming merged : Index} (union : m.merge incoming = .ok merged) :
    m.Keeps merged := by
  obtain rfl := eq_union_of_merge union
  intro h n there
  rw [node?_union, there, Option.some_or]

theorem firstConflict?_of_merge {m incoming : Index} {h : NodeHash}
    (failed : m.merge incoming = .error h) : m.firstConflict? incoming = some h := by
  rw [merge] at failed
  split at failed
  case h_1 found => rw [found, Except.error.inj failed]
  case h_2 => cases failed

theorem Gain.between_self (m : Index) : Gain.between m m = ⟨0, 0, 0⟩ := by
  simp [Gain.between]

/-- Where indexes of two rows cannot be merged, two entries clash. -/
theorem clash_of_merge {H : Hasher} {m incoming : Index} {E F : List Entry} {k : NodeHash}
    (left : putAll H F ∅ = .ok m) (right : putAll H E ∅ = .ok incoming)
    (conflict : m.merge incoming = .error k) : Clash H (F ++ E) k := by
  obtain ⟨⟨_, n⟩, found, rfl⟩ := Option.map_eq_some_iff.mp (firstConflict?_of_merge conflict)
  have stored := ExtTreeMap.mem_toList_iff_getElem?_eq_some.mp (List.mem_of_find?_eq_some found)
  obtain ⟨e, he, rfl, hashE⟩ := (extendsAll_of_putAll right).exists_entry stored
  have differs := List.find?_some found
  rw [conflictsWith] at differs
  split at differs
  case h_2 => cases differs
  case h_1 there stored' =>
    obtain ⟨f, hf, rfl, hashF⟩ := (extendsAll_of_putAll left).exists_entry stored'
    refine ⟨f, List.mem_append_left _ hf, e, List.mem_append_right _ he, hashF, hashE, ?_⟩
    intro same
    have alike := (Node.sameStructure_iff (a := f.node) e.encodedRecord).mpr
      (f.encodedRecord.trans (congrArg _ same))
    simp [alike] at differs

section Merging

variable {H : Hasher} {m incoming : Index} {E : List Entry}

/-- What was built from a row can be merged exactly when the row can be put. -/
theorem merge_isOk_iff_putAll_isOk (built : putAll H E ∅ = .ok incoming) :
    (∃ merged, m.merge incoming = .ok merged) ↔ ∃ merged, putAll H E m = .ok merged := by
  have all := extendsAll_of_putAll built
  have consistent := putAll_empty_isOk_iff.mp ⟨_, built⟩
  rw [merge_isOk_iff, putAll_isOk_iff, and_iff_left consistent]
  constructor
  · intro same e he there hthere
    obtain ⟨f, hf, hash, stored⟩ := all.exists_node he
    rw [← consistent f hf e he hash]
    exact (Node.sameStructure_iff f.encodedRecord).mp (same _ there f.node hthere stored)
  · intro agrees h there n hthere hn
    obtain ⟨f, hf, rfl, rfl⟩ := all.exists_entry hn
    exact (Node.sameStructure_iff f.encodedRecord).mpr (agrees f hf there hthere)

theorem eq_of_merge_of_putAll (hm : m.WellFormed) (built : putAll H E ∅ = .ok incoming)
    {a b : Index} (ha : m.merge incoming = .ok a) (hb : putAll H E m = .ok b) : a = b := by
  obtain rfl := eq_union_of_merge ha
  have all := extendsAll_of_putAll built
  have more := extendsAll_of_putAll hb
  have hi := all.wellFormed wellFormed_empty
  refine WellFormed.ext (hm.union hi) (more.wellFormed hm) ?_ ?_ ?_
  · intro h
    rw [node?_union, more.node?, all.node?_empty]
  · intro s h
    rw [Bool.eq_iff_iff, more.shapes, union, Groups.hasMember_merge, Bool.or_eq_true, all.shapes]
    simp [show (∅ : Index).shapes = ∅ from rfl]
  · intro h c
    rw [Bool.eq_iff_iff, more.edges, union, PairSet.contains_union, Bool.or_eq_true, all.edges]
    simp [show (∅ : Index).edges = ∅ from rfl]

/-- Merging an index that was built from a row of entries is putting the row. -/
theorem merge_eq_ok_iff {merged : Index} (hm : m.WellFormed)
    (built : putAll H E ∅ = .ok incoming) :
    m.merge incoming = .ok merged ↔ putAll H E m = .ok merged := by
  constructor
  · intro ha
    obtain ⟨b, hb⟩ := (merge_isOk_iff_putAll_isOk built).mp ⟨_, ha⟩
    rw [eq_of_merge_of_putAll hm built ha hb, hb]
  · intro hb
    obtain ⟨a, ha⟩ := (merge_isOk_iff_putAll_isOk built).mpr ⟨_, hb⟩
    rw [← eq_of_merge_of_putAll hm built ha hb, ha]

end Merging

end SubtermIndex.Index
