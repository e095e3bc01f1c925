/-
# `SubtermIndex.Proofs.FieldOrder` — what is alike to the format has one hash

The hash of a record tree does not change when entries change places, in the nodes, in their
payloads or inside a key, nor when a number is spelled in another way (`Indexer.hashTree_alike`).
The reader looks at a node twice, for the payload and for the children.  Both times it sees alike
things in alike nodes, so that the two trees it sees are structurally equal
(`NodeReader.exists_reads_of_alike`).

This takes that no node repeats the children's field (`NodeReader.SingleField`).  A payload drops
every entry under this field, but the children are those of the first one.  No repeated key is
noticed there, unlike in payloads, and when such entries change places the hash may change
(`Indexer.hashTree_repeatedField`).

That alike values are read alike is shown by recursion on the tree that is read.  What alike nodes
have in common is taken from the outside of values: entries that are permuted, with alike keys and
alike values.
-/
import SubtermIndex.Proofs.HashTree
import SubtermIndex.Proofs.Payload

namespace SubtermIndex

open Cbor

/-! ## Structurally equal trees -/

namespace Tree

variable {S T : Tree}

/-- A tree that is equal to one without collisions has none. -/
theorem Same.consistent {H : Hasher} (h : S.Same T)
    (hS : Index.Consistent H (S.entries H)) : Index.Consistent H (T.entries H) := by
  intro e he f hf hash
  obtain ⟨B, hB, rfl⟩ := mem_entries.mp he
  obtain ⟨D, hD, rfl⟩ := mem_entries.mp hf
  obtain ⟨A, hA, left⟩ := h.exists_subtree hB
  obtain ⟨C, hC, right⟩ := h.exists_subtree hD
  rw [Entry.hash, Entry.hash] at hash
  rw [← left.entry H, ← right.entry H] at hash ⊢
  exact hS _ (mem_entries.mpr ⟨A, hA, rfl⟩) _ (mem_entries.mpr ⟨C, hC, rfl⟩) hash

end Tree

/-! ## The two projections of alike nodes

A text is alike to itself only.  So whether an entry stands under the children's field does not
depend on how its key is spelled, and alike records keep alike entries for their payloads and have
alike entries under the field.  Where there is one at most, its order does not matter. -/

namespace NodeReader

variable {field : String} {a b : Value}

def fieldEntries (field : String) (entries : Entries) : Entries :=
  entries.filter fun e => isField field e.1

def SingleAt (field : String) (node : Value) : Prop :=
  ∀ entries, node = .record entries → (fieldEntries field entries).length ≤ 1

/-- Whether this holds of all nodes that are read. -/
def SingleField (field : String) (root : Value) : Prop :=
  ∀ node, (ofField field).Below root node → SingleAt field node

theorem SingleField.of_below {root : Value} (h : SingleField field root)
    (below : (ofField field).Below root a) : SingleField field a := by
  intro node further
  exact h node (below.trans further)

theorem isField_eq {e f : Value × Value} (h : Value.AlikeEntries e f) :
    isField field e.1 = isField field f.1 := by
  rw [isField, isField, h.1.asText?_eq]

theorem forall₂_filter (keep : Bool → Bool) {entries entries' : Entries}
    (h : List.Forall₂ Value.AlikeEntries entries entries') :
    List.Forall₂ Value.AlikeEntries (entries.filter fun e => keep (isField field e.1))
      (entries'.filter fun e => keep (isField field e.1)) := by
  refine List.rel_filter ?_ h
  intro e f same
  show keep (isField field e.1) = true ↔ keep (isField field f.1) = true
  rw [isField_eq same]

theorem forall₂_fieldEntries {entries entries' : Entries}
    (h : List.Forall₂ Value.AlikeEntries entries entries') :
    List.Forall₂ Value.AlikeEntries (fieldEntries field entries) (fieldEntries field entries') :=
  forall₂_filter id h

theorem length_fieldEntries {entries between entries' : Entries} (perm : entries.Perm between)
    (alike : List.Forall₂ Value.AlikeEntries between entries') :
    (fieldEntries field entries).length = (fieldEntries field entries').length :=
  (perm.filter _).length_eq.trans (forall₂_fieldEntries alike).length_eq

theorem payloadOf_eq_ok_iff {entries : Entries} {p : Payload} :
    payloadOf entries = .ok p ↔ Payload.ofEntries entries = .ok p := by
  rw [payloadOf]
  cases Payload.ofEntries entries <;> simp

theorem exists_payload_of_alike {l : Label} (alike : a.Alike b)
    (read : (ofField field).payload a = .ok l.payload) :
    ∃ l' : Label, (ofField field).payload b = .ok l'.payload ∧ l.code = l'.code := by
  cases a with
  | record entries =>
      obtain ⟨between, entries', rfl, perm, entrywise⟩ := alike.exists_entries
      obtain ⟨p, made, same⟩ := Payload.exists_ofEntries (payloadOf_eq_ok_iff.mp read)
        (perm.filter _) (forall₂_filter not entrywise)
      have written : encode p.toValue = .ok l.code := by
        rw [← code?_eq_some, ← same, code?_eq_some]
        exact l.written
      exact ⟨⟨p, l.code, written⟩, payloadOf_eq_ok_iff.mpr made, rfl⟩
  | _ => cases read

theorem children_eq_ok_iff {entries : Entries} {below : List Value} :
    (ofField field).children (.record entries) = .ok below ↔
      ∃ key, (fieldEntries field entries).head? = some (key, .list below) := by
  have found : (fieldEntries field entries).head? = entries.find? fun e => isField field e.1 :=
    List.head?_filter
  rw [found]
  simp only [ofField, fieldChildren, recordEntries, bind, Except.bind]
  cases entries.find? fun e => isField field e.1 with
  | none => simp
  | some e =>
      obtain ⟨key, value⟩ := e
      cases value <;> simp

theorem head?_fieldEntries {entries between entries' : Entries} (perm : entries.Perm between)
    (alike : List.Forall₂ Value.AlikeEntries between entries')
    (single : (fieldEntries field entries).length ≤ 1) {e : Value × Value}
    (first : (fieldEntries field entries).head? = some e) :
    ∃ f, (fieldEntries field entries').head? = some f ∧ Value.AlikeEntries e f := by
  have only : fieldEntries field entries = [e] := by
    rcases inField : fieldEntries field entries with _ | ⟨d, _ | ⟨d', rest⟩⟩
    · simp [inField] at first
    · simpa [inField] using first
    · simp [inField] at single
  have perm : [e].Perm (fieldEntries field between) := by
    rw [← only]
    exact perm.filter _
  have entrywise : List.Forall₂ Value.AlikeEntries [e] (fieldEntries field entries') := by
    rw [List.singleton_perm.mp perm]
    exact forall₂_fieldEntries alike
  obtain ⟨f, rest, same, -, listed⟩ := List.forall₂_cons_left_iff.mp entrywise
  refine ⟨f, ?_, same⟩
  rw [listed]
  rfl

theorem exists_children_of_alike {below : List Value} (single : SingleAt field a)
    (alike : a.Alike b) (found : (ofField field).children a = .ok below) :
    ∃ below', (ofField field).children b = .ok below' ∧
      List.Forall₂ Value.Alike below below' := by
  cases a with
  | record entries =>
      obtain ⟨between, entries', rfl, perm, entrywise⟩ := alike.exists_entries
      obtain ⟨key, first⟩ := children_eq_ok_iff.mp found
      obtain ⟨⟨key', value⟩, first', same⟩ :=
        head?_fieldEntries perm entrywise (single entries rfl) first
      obtain ⟨below', rfl, each⟩ := same.2.exists_items
      exact ⟨below', children_eq_ok_iff.mpr ⟨key', first'⟩, each⟩
  | _ => cases found

theorem SingleAt.of_alike (single : SingleAt field a) (alike : a.Alike b) : SingleAt field b := by
  rintro entries' rfl
  obtain ⟨between, entries, rfl, perm, entrywise⟩ := alike.symm.exists_entries
  rw [length_fieldEntries perm entrywise]
  exact single entries rfl

theorem exists_below_of_alike {d : Value} (single : SingleField field a) (alike : a.Alike b)
    (h : (ofField field).Below b d) : ∃ c, (ofField field).Below a c ∧ c.Alike d := by
  induction h with
  | self => exact ⟨a, .self, alike⟩
  | child _ found mem ih =>
      obtain ⟨c, below, same⟩ := ih
      have single := (single c below).of_alike same
      obtain ⟨children, found', each⟩ := exists_children_of_alike single same.symm found
      obtain ⟨c', mem', same'⟩ := exists_of_forall₂_left each mem
      exact ⟨c', .child below found' mem', same'.symm⟩

theorem SingleField.of_alike (single : SingleField field a) (alike : a.Alike b) :
    SingleField field b := by
  intro d below
  obtain ⟨c, below, same⟩ := exists_below_of_alike single alike below
  exact (single c below).of_alike same

theorem SingleField.of_children (here : SingleAt field a)
    (each : ∀ below, (ofField field).children a = .ok below → ∀ c ∈ below, SingleField field c) :
    SingleField field a := by
  have cases {d : Value} (h : (ofField field).Below a d) :
      d = a ∨ ∃ below, (ofField field).children a = .ok below ∧
        ∃ c ∈ below, (ofField field).Below c d := by
    induction h with
    | self => exact .inl rfl
    | child _ found mem ih =>
        rcases ih with rfl | ⟨below, found', c, mem', further⟩
        · exact .inr ⟨_, found, _, mem, .self⟩
        · exact .inr ⟨below, found', c, mem', .child further found mem⟩
  intro d h
  rcases cases h with rfl | ⟨below, found, c, mem, further⟩
  · exact here
  · exact each below found c mem d further

/-! ## Reading alike trees -/

/-- Alike values are read as trees of one structure. -/
theorem exists_reads_of_alike {T : Tree} (single : SingleField field a) (alike : a.Alike b)
    (reads : (ofField field).Reads a T) : ∃ U, (ofField field).Reads b U ∧ T.Same U := by
  induction T using Tree.induction generalizing a b with
  | node l cs ih =>
      cases reads with
      | @node _ _ below _ payload found all =>
          obtain ⟨l', payload', code⟩ := exists_payload_of_alike alike payload
          obtain ⟨below', found', each⟩ := exists_children_of_alike (single a .self) alike found
          obtain ⟨ds, reads, same⟩ : ∃ ds, List.Forall₂ (ofField field).Reads below' ds ∧
              List.Forall₂ Tree.Same cs ds := by
            -- below `b` are the children of `a` in their order, each alike to its counterpart
            refine exists_forall₂_of_diamond all each ?_
            intro c hc C hC d read alike
            exact ih C hC (single.of_below (.child .self found hc)) alike read
          exact ⟨.node l' ds, .node payload' found' reads, .node code same⟩

end NodeReader

/-! ## Trees whose entries change places -/

namespace Sample.FieldOrder

def indexer : Indexer Value := { reader := .ofField NodeReader.usualField, hasher := .blake3 }

def childEntry (children : List Value) : Value × Value :=
  (.text NodeReader.usualField, .list children)

/-- A node over a leaf, both with the children's entry first. -/
def childrenFirst : Value :=
  .record [childEntry [.record [childEntry [], (.text "v", .int (.ofUInt64 1))]],
    (.text "w", .null)]

/-- The same tree with the children's entry last. -/
def childrenLast : Value :=
  .record [(.text "w", .null),
    childEntry [.record [(.text "v", .int (.ofUInt64 1)), childEntry []]]]

theorem alike : childrenFirst.Alike childrenLast := by
  refine .trans (.order (.swap _ _ _)) (.value [_] [] _ (.item [] [] ?_))
  exact .order (.swap _ _ _)

theorem singleField : NodeReader.SingleField NodeReader.usualField childrenFirst := by
  refine .of_children ?_ ?_
  · rintro entries ⟨⟩
    decide
  · rintro below ⟨⟩ c mem
    obtain rfl := List.mem_singleton.mp mem
    refine .of_children ?_ ?_
    · rintro entries ⟨⟩
      decide
    · rintro below ⟨⟩ c mem
      cases mem

/-- A record that names its children twice: none at first, and then a leaf. -/
def twice : Entries := [childEntry [], childEntry [.record [childEntry []]]]

end Sample.FieldOrder

/-! ## Hashes of alike trees -/

namespace Indexer

variable {ix : Indexer Value} {field : String} {t t' : Value}

/-- A hash that a tree has is the hash of every alike tree. -/
theorem hashTree_of_alike {h : NodeHash} (standard : ix.reader = .ofField field)
    (single : NodeReader.SingleField field t) (alike : t.Alike t')
    (hashed : ix.hashTree t = .ok h) :
    ix.hashTree t' = .ok h := by
  obtain ⟨T, ⟨reads, within⟩, rfl, consistent⟩ := hashTree_eq_ok_iff.mp hashed
  rw [standard] at reads
  obtain ⟨U, reads', same⟩ := NodeReader.exists_reads_of_alike single alike reads
  rw [← standard] at reads'
  exact hashTree_eq_ok_iff.mpr
    ⟨U, ⟨reads', same.within within⟩, same.hash_eq ix.hasher, same.consistent consistent⟩

/-- A tree that repeats its children's field in no node has the hash of every alike tree, whether
the entries of a record have changed places, in whatever record, or numbers are spelled in another
way.  If one of them has no hash, neither has the other. -/
theorem hashTree_alike (standard : ix.reader = .ofField field)
    (single : NodeReader.SingleField field t) (alike : t.Alike t') (h : NodeHash) :
    ix.hashTree t = .ok h ↔ ix.hashTree t' = .ok h := by
  constructor
  · exact hashTree_of_alike standard single alike
  · exact hashTree_of_alike standard (single.of_alike alike) alike.symm

open Sample.FieldOrder

theorem hashTree_alike_childrenFirst :
    indexer.reader = .ofField NodeReader.usualField ∧
      NodeReader.SingleField NodeReader.usualField childrenFirst ∧
      childrenFirst.Alike childrenLast ∧
      ∃ h, indexer.hashTree childrenFirst = .ok h ∧ indexer.hashTree childrenLast = .ok h := by
  have succeeds : (indexer.hashTree childrenFirst).toBool = true := by decide +kernel
  obtain ⟨h, hashed⟩ := exists_eq_ok succeeds
  exact ⟨rfl, singleField, alike, h, hashed,
    (hashTree_alike rfl singleField alike h).mp hashed⟩

/-- Where a record repeats the children's field, the entry that comes first decides which
children it has. -/
theorem hashTree_repeatedField :
    twice.Perm twice.reverse ∧
      ∃ h k, indexer.hashTree (.record twice) = .ok h ∧
        indexer.hashTree (.record twice.reverse) = .ok k ∧ h ≠ k := by
  have first : (indexer.hashTree (.record twice)).toBool = true := by decide +kernel
  have last : (indexer.hashTree (.record twice.reverse)).toBool = true := by decide +kernel
  have differ : indexer.hashTree (.record twice) ≠ indexer.hashTree (.record twice.reverse) := by
    decide +kernel
  obtain ⟨h, first⟩ := exists_eq_ok first
  obtain ⟨k, last⟩ := exists_eq_ok last
  refine ⟨twice.reverse_perm.symm, h, k, first, last, ?_⟩
  rintro rfl
  exact differ (first.trans last.symm)

end Indexer

end SubtermIndex
