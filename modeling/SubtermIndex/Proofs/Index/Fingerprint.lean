/-
# `SubtermIndex.Proofs.Index.Fingerprint` — a fingerprint is of the contents

What an index holds can be listed, and the stream that its fingerprint is taken of is a code of
the list (`Written.exists_listing`).  Hashes have one width, and rows come behind their lengths,
so that every part of the stream can be read off it, whatever comes behind (`Delimited`).  Hence
two indexes that calls have filled have one stream exactly if they have the same contents, and
where they have one fingerprint without that, two messages with one digest have been found
(`fingerprint_identifies`).

Lengths are written with 64 bits, so the lengths in the two indexes have to be numbers of this
kind (`Index.fits`).  Without that the stream would still exist, but could be that of other
contents.
-/
import SubtermIndex.Proofs.Index.Contents
import SubtermIndex.Proofs.Index.Records
import SubtermIndex.Proofs.Cbor.Number
import SubtermIndex.Sample.Chains

namespace SubtermIndex.Index

open Cbor Std

/-! ## Codes that can be read off

Such codes are put together from such codes: one behind the other (`Delimited.pair`), as many of
them as is known (`Delimited.flatMap`), and any number of them behind that number
(`Delimited.row`). -/

/-- Whether things of a kind can be read off their codes, whatever comes behind. -/
def Delimited {α : Type} (P : α → Prop) (code : α → Bytes) : Prop :=
  ∀ a b s t, P a → P b → code a ++ s = code b ++ t → a = b ∧ s = t

section

variable {α β : Type} {P : α → Prop} {Q : β → Prop} {f : α → Bytes} {g : β → Bytes}

theorem delimited_of_width {n : Nat} (width : ∀ a, (f a).length = n)
    (inj : ∀ a b, f a = f b → a = b) : Delimited (fun _ => True) f := by
  intro a b s t _ _ eq
  obtain ⟨same, rest⟩ := List.append_inj eq (by rw [width, width])
  exact ⟨inj a b same, rest⟩

/-- One code behind another one. -/
theorem Delimited.pair (hf : Delimited P f) (hg : Delimited Q g) :
    Delimited (fun p : α × β => P p.1 ∧ Q p.2) fun p => f p.1 ++ g p.2 := by
  rintro ⟨a, b⟩ ⟨a', b'⟩ s t ha hb eq
  rw [List.append_assoc, List.append_assoc] at eq
  obtain ⟨rfl, behind⟩ := hf _ _ _ _ ha.1 hb.1 eq
  obtain ⟨rfl, rest⟩ := hg _ _ _ _ ha.2 hb.2 behind
  exact ⟨rfl, rest⟩

/-- Rows of one length. -/
theorem Delimited.flatMap (hf : Delimited P f) {as bs : List α} {s t : Bytes}
    (length : as.length = bs.length) (ha : ∀ a ∈ as, P a) (hb : ∀ b ∈ bs, P b)
    (eq : as.flatMap f ++ s = bs.flatMap f ++ t) : as = bs ∧ s = t := by
  induction as generalizing bs with
  | nil =>
      obtain rfl := List.length_eq_zero_iff.mp length.symm
      exact ⟨rfl, eq⟩
  | cons a as ih =>
      cases bs with
      | nil => cases length
      | cons b bs =>
          rw [List.forall_mem_cons] at ha hb
          rw [List.flatMap_cons, List.flatMap_cons, List.append_assoc, List.append_assoc] at eq
          obtain ⟨rfl, behind⟩ := hf _ _ _ _ ha.1 hb.1 eq
          obtain ⟨rfl, rest⟩ := ih (Nat.succ.inj length) ha.2 hb.2 behind
          exact ⟨rfl, rest⟩

end

theorem delimited_countBytes : Delimited (· < 2 ^ 64) countBytes := by
  intro a b s t ha hb eq
  obtain ⟨same, rest⟩ := List.append_inj eq (by simp [countBytes])
  have value := congrArg Bytes.littleEndianValue same
  rw [countBytes, countBytes, Bytes.littleEndianValue_littleEndian,
    Bytes.littleEndianValue_littleEndian, show 256 ^ 8 = 2 ^ 64 from rfl, Nat.mod_eq_of_lt ha,
    Nat.mod_eq_of_lt hb] at value
  exact ⟨value, rest⟩

theorem delimited_bytes {domain : Domain} :
    Delimited (fun _ => True) (Hash.bytes : Hash domain → Bytes) := by
  refine delimited_of_width (fun h => h.digest.length_bytes) ?_
  rintro ⟨⟨bs, _⟩⟩ ⟨⟨cs, _⟩⟩ same
  obtain rfl : bs = cs := same
  rfl

def rowBytes {α : Type} (code : α → Bytes) (row : List α) : Bytes :=
  countBytes row.length ++ row.flatMap code

theorem Delimited.row {α : Type} {P : α → Prop} {code : α → Bytes} (h : Delimited P code) :
    Delimited (fun row => row.length < 2 ^ 64 ∧ ∀ a ∈ row, P a) (rowBytes code) := by
  intro as bs s t ha hb eq
  rw [rowBytes, rowBytes, List.append_assoc, List.append_assoc] at eq
  obtain ⟨length, eq⟩ := delimited_countBytes _ _ _ _ ha.1 hb.1 eq
  exact h.flatMap length ha.2 hb.2 eq

/-! ## What an index holds, as a list -/

/-- The contents of an index, in ascending order. -/
structure Listing where
  records : List (NodeHash × Bytes)
  groups : List (Shape × List NodeHash)
  edges : List (NodeHash × NodeHash)

namespace Listing

def entryBytes (entry : NodeHash × Bytes) : Bytes :=
  entry.1.bytes ++ rowBytes (fun b => [b]) entry.2

def bytes (l : Listing) : Bytes :=
  Bytes.ofText "subex:index:v1" ++
    (rowBytes entryBytes l.records ++ (rowBytes shapeBytes l.groups ++ rowBytes edgeBytes l.edges))

/-- Whether all lengths are numbers of 64 bits. -/
structure Fits (l : Listing) : Prop where
  records : l.records.length < 2 ^ 64
  record : ∀ entry ∈ l.records, entry.2.length < 2 ^ 64
  groups : l.groups.length < 2 ^ 64
  group : ∀ group ∈ l.groups, group.2.length < 2 ^ 64
  edges : l.edges.length < 2 ^ 64

theorem delimited_entryBytes :
    Delimited (fun entry : NodeHash × Bytes => entry.2.length < 2 ^ 64) entryBytes := by
  have byte : Delimited (fun _ => True) fun b : UInt8 => [b] :=
    delimited_of_width (fun _ => rfl) fun _ _ same => (List.cons.inj same).1
  intro a b s t ha hb eq
  exact delimited_bytes.pair byte.row a b s t ⟨trivial, ha, fun _ _ => trivial⟩
    ⟨trivial, hb, fun _ _ => trivial⟩ eq

theorem delimited_shapeBytes :
    Delimited (fun group : Shape × List NodeHash => group.2.length < 2 ^ 64) shapeBytes := by
  intro a b s t ha hb eq
  rw [shapeBytes, shapeBytes, List.append_assoc a.1.bytes, List.append_assoc b.1.bytes] at eq
  exact delimited_bytes.pair delimited_bytes.row a b s t ⟨trivial, ha, fun _ _ => trivial⟩
    ⟨trivial, hb, fun _ _ => trivial⟩ eq

theorem delimited_edgeBytes : Delimited (fun _ => True) edgeBytes := by
  intro a b s t _ _ eq
  exact delimited_bytes.pair delimited_bytes a b s t ⟨trivial, trivial⟩ ⟨trivial, trivial⟩ eq

theorem bytes_inj {l l' : Listing} (hl : l.Fits) (hl' : l'.Fits) (eq : l.bytes = l'.bytes) :
    l = l' := by
  have eq := List.append_cancel_left eq
  obtain ⟨records, eq⟩ := delimited_entryBytes.row _ _ _ _ ⟨hl.records, hl.record⟩
    ⟨hl'.records, hl'.record⟩ eq
  obtain ⟨groups, eq⟩ := delimited_shapeBytes.row _ _ _ _ ⟨hl.groups, hl.group⟩
    ⟨hl'.groups, hl'.group⟩ eq
  rw [← List.append_nil (rowBytes edgeBytes l.edges),
    ← List.append_nil (rowBytes edgeBytes l'.edges)] at eq
  obtain ⟨edges, -⟩ := delimited_edgeBytes.row _ _ _ _ ⟨hl.edges, fun _ _ => trivial⟩
    ⟨hl'.edges, fun _ _ => trivial⟩ eq
  cases l
  cases l'
  simp_all

end Listing

/-- Whether a listing is what an index holds. -/
structure Lists (m : Index) (l : Listing) : Prop where
  records : m.recordMap.toList = l.records.map fun entry => (entry.1, .ok entry.2)
  groups : m.shapes.toList.map (fun group => (group.1, group.2.toList)) = l.groups
  edges : m.edges.toList = l.edges

/-- Whether all lengths and counts in the stream of an index are numbers of 64 bits. -/
def fits (m : Index) : Bool :=
  decide (m.nodes.size < 2 ^ 64) &&
    (m.nodes.toList.all fun entry =>
      match entry.2.encodedRecord with
      | .ok record => decide (record.length < 2 ^ 64)
      | .error _ => true) &&
    decide (m.shapes.size < 2 ^ 64) &&
    (m.shapes.toList.all fun group => decide (group.2.size < 2 ^ 64)) &&
    decide (m.edges.size < 2 ^ 64)

variable {m m' : Index} {l : Listing}

theorem Written.exists_listing (hm : m.Written) : ∃ l, m.Lists l := by
  have each : ∀ entry ∈ m.nodes.toList, ∃ record : NodeHash × Bytes,
      (entry.1, entry.2.encodedRecord) = (record.1, .ok record.2) := by
    rintro ⟨h, n⟩ listed
    obtain ⟨x, written⟩ := hm h n (ExtTreeMap.mem_toList_iff_getElem?_eq_some.mp listed)
    exact ⟨(h, x), by rw [written]⟩
  obtain ⟨records, all⟩ := exists_forall₂ each
  refine ⟨⟨records, _, _⟩, ?_, rfl, rfl⟩
  rw [recordMap, ExtTreeMap.toList_map, ← List.forall₂_eq_eq_eq, List.forall₂_map_left_iff,
    List.forall₂_map_right_iff]
  exact all

theorem Lists.length_records (lists : m.Lists l) : m.nodes.size = l.records.length := by
  rw [← size_recordMap, ← ExtTreeMap.length_toList, lists.records, List.length_map]

theorem Lists.length_groups (lists : m.Lists l) : m.shapes.size = l.groups.length := by
  rw [← lists.groups, List.length_map, ExtTreeMap.length_toList]

theorem Lists.length_edges (lists : m.Lists l) (hm : m.WellFormed) :
    m.edges.size = l.edges.length := by
  rw [hm.edges.size, lists.edges]

theorem Lists.stream_eq (lists : m.Lists l) (hm : m.WellFormed) : m.stream = .ok l.bytes := by
  have entries : (fun entry : NodeHash × Bytes =>
      (Except.ok entry.2 : Except EncodeError Bytes).map fun record =>
        entry.1.bytes ++ countBytes record.length ++ record) =
      fun entry => pure (Listing.entryBytes entry) := by
    funext entry
    simp [Listing.entryBytes, rowBytes, Except.map, pure, Except.pure]
  have nodes : m.nodes.toList.mapM nodeBytes = .ok (l.records.map Listing.entryBytes) := by
    rw [mapM_nodeBytes, lists.records, List.mapM_map]
    exact (congrArg l.records.mapM entries).trans List.mapM_pure
  have shapes : m.shapes.toList.map (fun group => shapeBytes (group.1, group.2.toList)) =
      l.groups.map shapeBytes := by
    rw [← lists.groups, List.map_map]
    rfl
  rw [stream, nodes]
  show Except.ok _ = Except.ok _
  rw [shapes, lists.edges, lists.length_records, lists.length_groups, lists.length_edges hm]
  simp only [Listing.bytes, rowBytes, List.flatMap_def, List.append_assoc]

theorem Lists.fits (lists : m.Lists l) (hm : m.WellFormed) (fits : m.fits = true) : l.Fits := by
  simp only [Index.fits, Bool.and_eq_true, decide_eq_true_eq, List.all_eq_true] at fits
  obtain ⟨⟨⟨⟨nodes, records⟩, shapes⟩, groups⟩, edges⟩ := fits
  refine ⟨lists.length_records ▸ nodes, ?_, lists.length_groups ▸ shapes, ?_,
    lists.length_edges hm ▸ edges⟩
  · intro entry listed
    have there : (entry.1, .ok entry.2) ∈ m.recordMap.toList := by
      rw [lists.records]
      exact List.mem_map_of_mem listed
    rw [recordMap, ExtTreeMap.toList_map, List.mem_map] at there
    obtain ⟨node, stored, same⟩ := there
    have small := records node stored
    rw [(Prod.mk.inj same).2] at small
    exact of_decide_eq_true small
  · rw [← lists.groups]
    intro group listed
    obtain ⟨there, stored, rfl⟩ := List.mem_map.mp listed
    rw [ExtTreeSet.length_toList]
    exact groups there stored

theorem Lists.sameContents (lists : m.Lists l) (lists' : m'.Lists l) (hm : m.WellFormed)
    (hm' : m'.WellFormed) : m.SameContents m' where
  records h := by
    have same : m.recordMap = m'.recordMap :=
      ExtTreeMap.ext_toList (.of_eq (lists.records.trans lists'.records.symm))
    rw [← getElem?_recordMap, ← getElem?_recordMap, same]
  shapes := by
    -- a group is known from its shape and the list of its members
    have inj : Function.Injective fun group : Shape × ExtTreeSet NodeHash =>
        (group.1, group.2.toList) := by
      rintro ⟨s, members⟩ ⟨s', members'⟩ same
      have keys : s = s' := congrArg Prod.fst same
      have rows : members.toList = members'.toList := congrArg Prod.snd same
      rw [keys, ExtTreeSet.ext_toList (.of_eq rows)]
    have same := inj.list_map (lists.groups.trans lists'.groups.symm)
    exact ExtTreeMap.ext_toList (.of_eq same)
  edges := by
    refine hm.edges.ext hm'.edges ?_
    intro h c
    rw [Bool.eq_iff_iff, ← PairSet.mem_toList (p := (h, c)), ← PairSet.mem_toList (p := (h, c)),
      lists.edges, lists'.edges]

/-! ## Streams and fingerprints -/

theorem Filled.exists_stream (hm : m.Filled) : ∃ x, m.stream = .ok x := by
  obtain ⟨wellFormed, written⟩ := hm.sound
  obtain ⟨l, lists⟩ := written.exists_listing
  exact ⟨l.bytes, lists.stream_eq wellFormed⟩

/-- Two indexes have one stream exactly if they have the same contents. -/
theorem Filled.stream_eq_iff (hm : m.Filled) (hm' : m'.Filled) (fits : m.fits = true)
    (fits' : m'.fits = true) : m.stream = m'.stream ↔ m.SameContents m' := by
  constructor
  · intro same
    obtain ⟨wellFormed, written⟩ := hm.sound
    obtain ⟨wellFormed', written'⟩ := hm'.sound
    obtain ⟨l, lists⟩ := written.exists_listing
    obtain ⟨l', lists'⟩ := written'.exists_listing
    rw [lists.stream_eq wellFormed, lists'.stream_eq wellFormed'] at same
    obtain rfl := Listing.bytes_inj (lists.fits wellFormed fits) (lists'.fits wellFormed' fits')
      (Except.ok.inj same)
    exact lists.sameContents lists' wellFormed wellFormed'
  · intro same
    exact same.stream_eq

/-- The fingerprint identifies the contents.  Every index that calls have filled has one; the
streams that two fingerprints are taken of are equal exactly if the contents are the same;
and so equal contents have one fingerprint, and different contents have one only where two
different messages have one digest. -/
theorem fingerprint_identifies :
    (∀ m : Index, m.Filled →
      ∃ x, m.stream = .ok x ∧ m.fingerprint = .ok (Blake3.plainMode.digest32 x)) ∧
    ∀ m m' : Index, m.Filled → m'.Filled → m.fits = true → m'.fits = true →
      (m.stream = m'.stream ↔ m.SameContents m') ∧
        (m.SameContents m' → m.fingerprint = m'.fingerprint) ∧
        (m.fingerprint = m'.fingerprint → ¬ m.SameContents m' →
          ∃ x x', m.stream = .ok x ∧ m'.stream = .ok x' ∧ x ≠ x' ∧
            Blake3.plainMode.digest32 x = Blake3.plainMode.digest32 x') := by
  refine ⟨?_, ?_⟩
  · intro m hm
    obtain ⟨x, stream⟩ := hm.exists_stream
    exact ⟨x, stream, by rw [fingerprint, stream]; rfl⟩
  · intro m m' hm hm' fits fits'
    have iff := hm.stream_eq_iff hm' fits fits'
    refine ⟨iff, SameContents.fingerprint_eq, ?_⟩
    intro same different
    obtain ⟨x, stream⟩ := hm.exists_stream
    obtain ⟨x', stream'⟩ := hm'.exists_stream
    refine ⟨x, x', stream, stream', ?_, ?_⟩
    · rintro rfl
      exact different (iff.mp (stream.trans stream'.symm))
    · rw [fingerprint, fingerprint, stream, stream'] at same
      exact Except.ok.inj same

open Sample Chains in
/-- Two spellings of one tree, and a tree that has the same hash and the same shape on every
level, so that only the record of its leaf tells it from the other two. -/
theorem fingerprint_identifies_chains :
    let integer := Chains.indexer.alone (root .asInteger)
    let float := Chains.indexer.alone (root .asFloat)
    let other := Chains.indexer.alone (root .otherField)
    integer.SameContents float ∧ integer.fingerprint = float.fingerprint ∧
      integer.nodes.size = 3 ∧ integer.edges.size = 2 ∧ integer.shapes.size = 3 ∧
      ¬ float.SameContents other := by
  intro integer float other
  have filled (ending : Ending) : (Chains.indexer.alone (root ending)).Filled :=
    Chains.indexer.filled_alone (root ending)
  have fits (ending : Ending) : (Chains.indexer.alone (root ending)).fits = true := by
    cases ending <;> decide +kernel
  have same : integer.stream = float.stream := by decide +kernel
  have different : float.stream ≠ other.stream := by decide +kernel
  obtain ⟨iff, equal, -⟩ := fingerprint_identifies.2 integer float (filled .asInteger)
    (filled .asFloat) (fits .asInteger) (fits .asFloat)
  obtain ⟨iff', -, -⟩ := fingerprint_identifies.2 float other (filled .asFloat)
    (filled .otherField) (fits .asFloat) (fits .otherField)
  have contents := iff.mp same
  refine ⟨contents, equal contents, by decide +kernel, by decide +kernel, by decide +kernel, ?_⟩
  intro contents'
  exact different (iff'.mpr contents')

end SubtermIndex.Index
