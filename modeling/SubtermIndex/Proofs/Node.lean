/-
# `SubtermIndex.Proofs.Node` — what the record of a node tells

The record of a node has an encoding exactly when its payload has one (`encodedRecord_eq_ok`), and
then it tells the encoding of the payload and the hashes of the children (`recordBytes_inj`).  Two
nodes may stand under one hash exactly when their records are written alike (`sameStructure_iff`).

A record is a list of the payload and of the children's hashes, so that its bytes are a head, the
code of the payload and the code of a list.  The code of a payload can be read off whatever comes
behind it, if its lengths are numbers of 64 bits; which is what `Label.fits` says.

A payload with its encoding is a `Label`.  In trees it stands for the payload, so that no
statement about trees has to ask whether something can be encoded.
-/
import SubtermIndex.Node
import SubtermIndex.Proofs.Cbor.Unambiguous

namespace SubtermIndex

open Cbor

/-- A payload that has an encoding, and this encoding. -/
structure Label where
  payload : Payload
  code : Bytes
  written : encode payload.toValue = .ok code

namespace Label

def of (payload : Payload) : Except EncodeError Label :=
  match h : encode payload.toValue with
  | .ok code => .ok ⟨payload, code, h⟩
  | .error cause => .error cause

/-- Whether every length in the payload is a number of 64 bits. -/
def fits (l : Label) : Bool := l.payload.toValue.fits

/-- A payload has one encoding at most. -/
theorem ext {l l' : Label} (payload : l.payload = l'.payload) : l = l' := by
  obtain ⟨p, code, written⟩ := l
  obtain ⟨p', code', written'⟩ := l'
  obtain rfl : p = p' := payload
  obtain rfl : code = code' := Except.ok.inj (written.symm.trans written')
  rfl

theorem of_payload (l : Label) : of l.payload = .ok l := by
  rw [of]
  split
  case h_1 code h =>
    congr 1
    exact ext rfl
  case h_2 cause h => exact absurd (h.symm.trans l.written) (by simp)

theorem of_eq_ok {payload : Payload} {l : Label} : of payload = .ok l ↔ l.payload = payload := by
  constructor
  · intro h
    rw [of] at h
    split at h
    · exact (congrArg Label.payload (Except.ok.inj h)).symm
    · simp at h
  · rintro rfl
    exact of_payload l

theorem of_eq_error {payload : Payload} {cause : EncodeError} :
    of payload = .error cause ↔ encode payload.toValue = .error cause := by
  rw [of]
  split
  case h_1 code h => simp [h]
  case h_2 cause' h => simp [h]

end Label

/-! ## The bytes of a record -/

def hashBytes (h : NodeHash) : Bytes := head .bytes h.bytes.length ++ h.bytes

def childBytes (hashes : List NodeHash) : Bytes :=
  head .list hashes.length ++ hashes.flatMap hashBytes

/-- The record of a node with the given encoding of its payload. -/
def recordBytes (code : Bytes) (hashes : List NodeHash) : Bytes :=
  head .list 2 ++ (code ++ childBytes hashes)

theorem length_hashBytes (h : NodeHash) : (hashBytes h).length = 34 := by
  have : h.bytes.length = 32 := h.digest.length_bytes
  rw [hashBytes, List.length_append, this]
  rfl

theorem hashBytes_inj {h k : NodeHash} (eq : hashBytes h = hashBytes k) : h = k := by
  have width : h.bytes.length = k.bytes.length := by
    rw [show h.bytes.length = 32 from h.digest.length_bytes,
      show k.bytes.length = 32 from k.digest.length_bytes]
  rw [hashBytes, hashBytes, width] at eq
  obtain ⟨⟨hs, _⟩⟩ := h
  obtain ⟨⟨ks, _⟩⟩ := k
  have : hs = ks := List.append_cancel_left eq
  subst this
  rfl

theorem length_flatMap_hashBytes (hashes : List NodeHash) :
    (hashes.flatMap hashBytes).length = 34 * hashes.length := by
  induction hashes with
  | nil => rfl
  | cons h rest ih =>
      rw [List.flatMap_cons, List.length_append, length_hashBytes, ih, List.length_cons]
      omega

theorem flatMap_hashBytes_inj {hashes hashes' : List NodeHash}
    (eq : hashes.flatMap hashBytes = hashes'.flatMap hashBytes) : hashes = hashes' := by
  have length := congrArg List.length eq
  rw [length_flatMap_hashBytes, length_flatMap_hashBytes] at length
  induction hashes generalizing hashes' with
  | nil => exact (List.length_eq_zero_iff.mp (by simpa using length.symm)).symm
  | cons h rest ih =>
      cases hashes' with
      | nil => simp at length
      | cons k rest' =>
          rw [List.flatMap_cons, List.flatMap_cons] at eq
          obtain ⟨first, eq⟩ := List.append_inj eq (by rw [length_hashBytes, length_hashBytes])
          rw [hashBytes_inj first, ih eq (by simpa using length)]

/-- A list of hashes can be read off its bytes: how many there are shows in the number
of bytes, since the head takes less room than a hash. -/
theorem childBytes_inj {hashes hashes' : List NodeHash}
    (eq : childBytes hashes = childBytes hashes') : hashes = hashes' := by
  have length := congrArg List.length eq
  have width (n : Nat) : headWidth n ≤ 8 := by
    rw [headWidth]
    split_ifs <;> omega
  simp only [childBytes, head_eq, List.length_append, List.length_cons, Bytes.length_bigEndian,
    length_flatMap_hashBytes] at length
  have := width hashes.length
  have := width hashes'.length
  have count : hashes.length = hashes'.length := by omega
  rw [childBytes, childBytes, count] at eq
  exact flatMap_hashBytes_inj (List.append_cancel_left eq)

theorem recordBytes_inj {l l' : Label} {hashes hashes' : List NodeHash} (fits : l.fits)
    (fits' : l'.fits) (eq : recordBytes l.code hashes = recordBytes l'.code hashes') :
    l.code = l'.code ∧ hashes = hashes' := by
  obtain ⟨code, rest⟩ :=
    append_inj_of_encode fits fits' l.written l'.written (List.append_cancel_left eq)
  exact ⟨code, childBytes_inj rest⟩

/-! ## Records and nodes -/

namespace Node

theorem encode_childList (n : Node) : encode n.childList = .ok (childBytes n.children) := by
  refine encode_list.mpr ⟨n.children.map hashBytes, ?_, ?_⟩
  · simp only [List.map_map]
    rfl
  · rw [List.length_map]
    rfl

theorem encodedRecord_eq_ok {n : Node} {x : Bytes} :
    n.encodedRecord = .ok x ↔
      ∃ code, encode n.payload.toValue = .ok code ∧ x = recordBytes code n.children := by
  have children : code? n.childList = some (childBytes n.children) :=
    code?_eq_some.mpr n.encode_childList
  rw [encodedRecord, record]
  rw [encode_list]
  constructor
  · rintro ⟨xs, hxs, rfl⟩
    rcases xs with _ | ⟨code, _ | ⟨rest, _ | _⟩⟩ <;>
      simp only [List.map_cons, List.map_nil, List.cons.injEq, children, Option.some.injEq,
        reduceCtorEq, and_true, and_false] at hxs
    obtain ⟨hcode, rfl⟩ := hxs
    exact ⟨code, code?_eq_some.mp hcode, by simp [recordBytes]⟩
  · rintro ⟨code, hcode, rfl⟩
    refine ⟨[code, childBytes n.children], ?_, by simp [recordBytes]⟩
    simp [children, code?_eq_some.mpr hcode]

theorem encodedRecord_of_label (l : Label) (hashes : List NodeHash) :
    (Node.mk l.payload hashes).encodedRecord = .ok (recordBytes l.code hashes) :=
  encodedRecord_eq_ok.mpr ⟨l.code, l.written, rfl⟩

theorem equal_childList (n : Node) : n.childList.equal n.childList = true := by
  rw [childList, Value.equal]
  induction n.children with
  | nil => rfl
  | cons h rest ih => rw [List.map_cons, Value.equalItems, ih, Value.equal, BEq.rfl, Bool.and_self]

theorem encodedRecord_eq_of_equal {a b : Node} (equal : (a == b) = true) :
    a.encodedRecord = b.encodedRecord := by
  obtain ⟨payload, children⟩ :
      (a.payload == b.payload) = true ∧ (a.children == b.children) = true :=
    Bool.and_eq_true_iff.mp equal
  have list : a.childList = b.childList := by rw [childList, childList, eq_of_beq children]
  have fields : a.payload.toValue.equal b.payload.toValue = true := payload
  refine encode_eq_of_equal ?_
  rw [record, record, list, Value.equal, Value.equalItems, Value.equalItems, fields,
    b.equal_childList]
  rfl

/-- A node may stand for an encodable one exactly when both records are written alike. -/
theorem sameStructure_iff {a b : Node} {x : Bytes} (written : b.encodedRecord = .ok x) :
    a.sameStructure b = true ↔ a.encodedRecord = .ok x := by
  rw [sameStructure]
  rw [Bool.or_eq_true]
  constructor
  · rintro (equal | alike)
    · rw [encodedRecord_eq_of_equal equal, written]
    · rw [written] at alike
      split at alike
      case h_1 y z hy hz =>
        obtain rfl := Except.ok.inj hz
        rw [hy, eq_of_beq alike]
      case h_2 => simp at alike
  · intro written'
    right
    simp [written, written']

/-- Nodes that may stand under one hash have the same children, unless a payload is beyond all
bounds. -/
theorem children_eq_of_sameStructure {a b : Node} (ha : a.payload.toValue.fits)
    (hb : b.payload.toValue.fits) (same : a.sameStructure b = true) :
    a.children = b.children := by
  rw [sameStructure] at same
  rcases (Bool.or_eq_true ..).mp same with equal | alike
  · have equal : (a.payload == b.payload) = true ∧ (a.children == b.children) = true :=
      Bool.and_eq_true_iff.mp equal
    exact eq_of_beq equal.2
  · split at alike
    case h_1 x y hx hy =>
      obtain ⟨code, written, rfl⟩ := encodedRecord_eq_ok.mp hx
      obtain ⟨code', written', rfl⟩ := encodedRecord_eq_ok.mp hy
      have fits : (Label.mk a.payload code written).fits := ha
      have fits' : (Label.mk b.payload code' written').fits := hb
      exact (recordBytes_inj fits fits' (eq_of_beq alike)).2
    case h_2 => simp at alike

end Node

end SubtermIndex
