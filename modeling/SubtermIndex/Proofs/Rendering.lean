/-
# `SubtermIndex.Proofs.Rendering` — a node that is rendered as a record can be read back

A node is rendered as its payload's entries with the list of the children's hashes behind them,
under the children's field.  Whoever reads the record finds the same payload and the same hashes
(`Node.reads_toValue`).  This rests on the reader, which leaves no entry under that field in a
payload: what stands there in the record is the list, and all else is the payload.

A payload that no reader has made may have an entry under the field.  Its rendering repeats
the field, and need not be read as the same node.
-/
import SubtermIndex.Proofs.FieldOrder
import SubtermIndex.Proofs.Payload.Canonical

namespace SubtermIndex

open Cbor

namespace NodeReader

variable {field : String} {node : Value} {p : Payload}

theorem isField_text : isField field (.text field) = true := by
  simp [isField, Value.asText?]

/-- A payload is read off a record, and is made of the entries that are not under the field. -/
theorem exists_entries_of_payload (read : (ofField field).payload node = .ok p) :
    ∃ entries, node = .record entries ∧
      Payload.ofEntries (entries.filter fun e => !isField field e.1) = .ok p := by
  cases node with
  | record entries => exact ⟨entries, rfl, payloadOf_eq_ok_iff.mp read⟩
  | _ => cases read

theorem isField_eq_false (read : (ofField field).payload node = .ok p) :
    ∀ e ∈ p.entries, isField field e.1 = false := by
  obtain ⟨entries, -, made⟩ := exists_entries_of_payload read
  intro e mem
  have kept := (Payload.ofEntries_eq_ok_iff.mp made).2.1.subset mem
  simpa using (List.mem_filter.mp kept).2

end NodeReader

namespace Node

open NodeReader

variable {field : String} {record : Value} {n : Node}

theorem payload_toValue (read : (ofField field).payload record = .ok n.payload) :
    (ofField field).payload (n.toValue field) = .ok n.payload := by
  obtain ⟨entries, -, made⟩ := exists_entries_of_payload read
  have own : n.payload.entries.filter (fun e => !isField field e.1) = n.payload.entries := by
    rw [List.filter_eq_self]
    intro e mem
    rw [isField_eq_false read e mem]
    rfl
  have again : Payload.ofEntries n.payload.entries = .ok n.payload :=
    Payload.ofEntries_of_perm made (Payload.ofEntries_eq_ok_iff.mp made).2.1
  show payloadOf _ = _
  rw [payloadOf_eq_ok_iff, List.filter_append, own, List.filter_singleton, isField_text]
  simpa using again

theorem children_toValue (read : (ofField field).payload record = .ok n.payload) :
    (ofField field).children (n.toValue field) = .ok (n.children.map fun h => .bytes h.bytes) := by
  have none : fieldEntries field n.payload.entries = [] := by
    rw [fieldEntries, List.filter_eq_nil_iff]
    intro e mem
    rw [isField_eq_false read e mem]
    exact Bool.false_ne_true
  refine children_eq_ok_iff.mpr ⟨.text field, ?_⟩
  have last : fieldEntries field [(.text field, n.childList)] = [(.text field, n.childList)] := by
    rw [fieldEntries, List.filter_singleton, isField_text]
    rfl
  rw [fieldEntries, List.filter_append]
  show (fieldEntries field n.payload.entries ++ fieldEntries field [_]).head? = _
  rw [none, last]
  rfl

theorem children_inj {hashes hashes' : List NodeHash}
    (same : (hashes.map fun h => Value.bytes h.bytes) = hashes'.map fun h => Value.bytes h.bytes) :
    hashes = hashes' := by
  refine List.map_injective_iff.mpr ?_ same
  intro h k eq
  obtain ⟨⟨hs, _⟩⟩ := h
  obtain ⟨⟨ks, _⟩⟩ := k
  obtain rfl : hs = ks := Value.bytes.inj eq
  rfl

/-- A node whose payload has been read off some record is found again in its own rendering: the
payload entry by entry, and the children's hashes in order, repeats included.  So it is the only
such node with this rendering. -/
theorem reads_toValue (read : (ofField field).payload record = .ok n.payload) :
    (ofField field).payload (n.toValue field) = .ok n.payload ∧
      (ofField field).children (n.toValue field) =
        .ok (n.children.map fun h => .bytes h.bytes) ∧
      ∀ (record' : Value) (n' : Node), (ofField field).payload record' = .ok n'.payload →
        n'.toValue field = n.toValue field → n' = n := by
  refine ⟨payload_toValue read, children_toValue read, ?_⟩
  intro record' n' read' same
  have payload : n'.payload = n.payload :=
    Except.ok.inj ((payload_toValue read').symm.trans (same ▸ payload_toValue read))
  have children : n'.children = n.children :=
    children_inj
      (Except.ok.inj ((children_toValue read').symm.trans (same ▸ children_toValue read)))
  cases n
  cases n'
  exact congr (congrArg Node.mk payload) children

/-- A record that repeats the children's field, in front of its own one. -/
def repeatingRecord : Value :=
  .record [(.text "children", .null), (.text "b", .bool true), (.text "children", .list []),
    (.text "a", .null)]

/-- A node over one hash that occurs twice, with the payload of that record. -/
def repeatingNode : Node :=
  ⟨⟨[(.text "a", .null), (.text "b", .bool true)]⟩, [⟨.zero⟩, ⟨.zero⟩]⟩

theorem reads_toValue_repeating :
    (ofField "children").payload repeatingRecord = .ok repeatingNode.payload ∧
      (ofField "children").payload (repeatingNode.toValue "children") =
        .ok repeatingNode.payload ∧
      (ofField "children").children (repeatingNode.toValue "children") =
        .ok [.bytes Digest.zero.bytes, .bytes Digest.zero.bytes] := by
  have read : (ofField "children").payload repeatingRecord = .ok repeatingNode.payload := by
    show payloadOf repeatingNode.payload.entries.reverse = _
    refine payloadOf_eq_ok_iff.mpr (Payload.ofEntries_eq_ok_iff.mpr ⟨?_, ?_, ?_⟩)
    · decide +kernel
    · exact (List.reverse_perm _).symm
    · decide +kernel
  obtain ⟨payload, children, -⟩ := reads_toValue read
  exact ⟨read, payload, children⟩

end Node

end SubtermIndex
