/-
# `SubtermIndex.Proofs.Payload.Equality` — payloads that are equal, and payloads written alike

Equality of payloads is finer than equality of their encodings.  It tells a double from the
integer that it is, and it compares nested records in the order in which they are stored, while
the encoding forgets both (`Payload.ofEntries_spelledTwice`).  Where the encoding has nothing to
forget, in payloads whose values are *tidy*, the two agree (`Payload.eq_iff_encode_eq`).

NaNs are a matter of their own.  Their encodings are equal, but a NaN is not even equal to itself,
and so the statement is about payloads without any.

What stands in the way of equality is collected in one notion (`Rough`), and values that are alike
without being rough anywhere are equal, by induction over the value (`equal_of_alike`).
-/
import SubtermIndex.Proofs.Payload
import SubtermIndex.Proofs.Cbor.Accepted
import SubtermIndex.Proofs.Cbor.Unambiguous

namespace SubtermIndex

open Cbor

namespace Cbor.Value

/-! ## What the encoding forgets -/

def IsNaN : Value → Prop
  | .float bits => isNaN bits = true
  | _ => False

/-- A double that is an integer of the format, or a record whose entries are not in ascending
order of their encoded keys. -/
def Untidy : Value → Prop
  | .float bits => ∃ n, IsInteger bits n
  | .record entries => ¬ InKeyOrder entries
  | _ => False

instance : DecidablePred IsNaN := fun v =>
  match v with
  | .float bits => inferInstanceAs (Decidable (isNaN bits = true))
  | .null | .bool _ | .int _ | .text _ | .bytes _ | .list _ | .record _ | .tag _ _ =>
      .isFalse id

instance : DecidablePred Untidy := fun v =>
  match v with
  | .float bits => decidable_of_iff ((integerOf? bits).isSome) (by
      simp only [Option.isSome_iff_exists, integerOf?_eq_some_iff, Untidy])
  | .record entries => inferInstanceAs (Decidable (¬ InKeyOrder entries))
  | .null | .bool _ | .int _ | .text _ | .bytes _ | .list _ | .tag _ _ => .isFalse id

/-- A value that equality and the encoding do not treat alike: it has no encoding, differs from
itself, or has another spelling. -/
def Rough (v : Value) : Prop := IsTag v ∨ IsNaN v ∨ Untidy v

theorem inKeyOrder_of_not_rough {entries : Entries} (h : ¬ Rough (.record entries)) :
    InKeyOrder entries :=
  not_not.mp fun untidy => h (.inr (.inr untidy))

theorem leaf?_of_not_rough {v : Value} (collection : v.isCollection = false) (h : ¬ Rough v) :
    v.leaf? = some v := by
  simp only [Rough, not_or] at h
  obtain ⟨tag, nan, untidy⟩ := h
  cases v with
  | float bits =>
      have fraction : integerOf? bits = none := by
        rw [Option.eq_none_iff_forall_ne_some]
        intro n hn
        exact untidy ⟨n, integerOf?_eq_some_iff.mp hn⟩
      have number : isNaN bits = false := Bool.not_eq_true _ ▸ nan
      rw [leaf?, number, fraction]
      rfl
  | list => cases collection
  | record => cases collection
  | tag => exact absurd rfl tag
  | _ => rfl

theorem equal_self {v : Value} (collection : v.isCollection = false) (h : ¬ Rough v) :
    v.equal v = true := by
  simp only [Rough, not_or] at h
  obtain ⟨tag, nan, -⟩ := h
  cases v with
  | float bits =>
      have number : isNaN bits = false := Bool.not_eq_true _ ▸ nan
      simp [equal, equalFloats, number]
  | list => cases collection
  | record => cases collection
  | tag => exact absurd rfl tag
  | null => rfl
  | bool truth => exact beq_self_eq_true truth
  | int n => exact beq_self_eq_true n.val
  | text s => exact beq_self_eq_true s
  | bytes bs => exact beq_self_eq_true bs

theorem equalItems_of_forall₂ {items items' : List Value}
    (h : List.Forall₂ (fun v w => v.equal w = true) items items') :
    equalItems items items' = true := by
  induction h with
  | nil => rfl
  | cons first _ ih => rw [equalItems, first, ih, Bool.and_self]

theorem equalEntries_of_forall₂ {entries entries' : Entries}
    (h : List.Forall₂ (fun e f : Value × Value => e.1.equal f.1 = true ∧ e.2.equal f.2 = true)
      entries entries') : equalEntries entries entries' = true := by
  induction h with
  | nil => rfl
  | cons first _ ih =>
      rw [equalEntries, first.1, first.2, ih, Bool.and_self, Bool.and_self]

theorem equal_of_alike_scalar {v w : Value} (collection : v.isCollection = false)
    (hv : ¬ Rough v) (hw : ¬ Rough w) (alike : v.Alike w) : v.equal w = true := by
  cases alike.parts with
  | list => cases collection
  | record => cases collection
  | other left right leaf =>
      rw [leaf?_of_not_rough left hv, leaf?_of_not_rough right hw] at leaf
      obtain rfl := Option.some.inj leaf
      exact equal_self left hv

/-- Values that are alike without being rough anywhere are equal. -/
theorem equal_of_alike {v w : Value} (hv : ¬ v.Somewhere Rough) (hw : ¬ w.Somewhere Rough)
    (alike : v.Alike w) : v.equal w = true := by
  induction v using Value.induction generalizing w with
  | list items ih =>
      obtain ⟨items', rfl, members⟩ := alike.exists_items
      simp only [somewhere_list, not_or, not_exists, not_and] at hv hw
      rw [equal]
      exact equalItems_of_forall₂ (forall₂_imp_of_mem members fun v hm w hm' =>
        ih v hm (hv.2 v hm) (hw.2 w hm'))
  | record entries ih =>
      obtain ⟨between, entries', rfl, perm, members⟩ := alike.exists_entries
      simp only [somewhere_record, not_or, not_exists, not_and] at hv hw
      -- The order in which the entries are alike is the one in which they stand.
      obtain rfl := (inKeyOrder_of_not_rough hv.1).eq_of_perm
        ((inKeyOrder_iff members).mpr (inKeyOrder_of_not_rough hw.1)) perm
      rw [equal]
      exact equalEntries_of_forall₂ (forall₂_imp_of_mem members fun e hm f hm' same =>
        ⟨(ih e hm).1 (hv.2 e hm).1 (hw.2 f hm').1 same.1,
          (ih e hm).2 (hv.2 e hm).2 (hw.2 f hm').2 same.2⟩)
  | _ =>
      refine equal_of_alike_scalar rfl (fun rough => hv (somewhere_self rough))
        (fun rough => hw (somewhere_self rough)) alike

end Cbor.Value

namespace Payload

variable {entries entries' : Entries} {p q : Payload} {x y : Bytes}

/-- Whether the keys and values of a payload leave the encoding nothing to forget. -/
def Tidy (p : Payload) : Prop :=
  ∀ e ∈ p.entries, ¬ e.1.Somewhere Value.Untidy ∧ ¬ e.2.Somewhere Value.Untidy

instance (p : Payload) : Decidable p.Tidy := inferInstanceAs (Decidable (∀ e ∈ p.entries, _ ∧ _))

theorem Tidy.not_somewhere (tidy : p.Tidy) (h : ofEntries entries = .ok p) :
    ¬ p.toValue.Somewhere Value.Untidy := by
  rw [toValue, Value.somewhere_record]
  rintro (untidy | ⟨e, mem, there | there⟩)
  · exact untidy (ofEntries_eq_ok_iff.mp h).2.2
  · exact (tidy e mem).1 there
  · exact (tidy e mem).2 there

theorem not_somewhere_rough {v : Value} (written : encode v = .ok x)
    (number : ¬ v.Somewhere Value.IsNaN) (tidy : ¬ v.Somewhere Value.Untidy) :
    ¬ v.Somewhere Value.Rough := by
  have noTag := (written ▸ outcome_encode v).faultless.1
  rintro ⟨w, occurs, tag | nan | untidy⟩
  · exact noTag ⟨w, occurs, tag⟩
  · exact number ⟨w, occurs, nan⟩
  · exact tidy ⟨w, occurs, untidy⟩

/-! ## The main statement -/

/-- Payloads that are equal are written alike; and without NaNs, payloads that are tidy are equal
when they are written alike. -/
theorem eq_iff_encode_eq (hp : ofEntries entries = .ok p) (hq : ofEntries entries' = .ok q)
    (hx : encode p.toValue = .ok x) (hy : encode q.toValue = .ok y)
    (fp : p.toValue.fits) (fq : q.toValue.fits)
    (np : ¬ p.toValue.Somewhere Value.IsNaN) (nq : ¬ q.toValue.Somewhere Value.IsNaN) :
    ((p == q) = true → x = y) ∧ (p.Tidy → q.Tidy → ((p == q) = true ↔ x = y)) := by
  have forward : (p == q) = true → x = y := by
    intro same
    have equal : p.toValue.equal q.toValue = true := by
      rw [toValue, toValue, Value.equal]
      exact same
    have := encode_eq_of_equal equal
    rw [hx, hy] at this
    exact Except.ok.inj this
  refine ⟨forward, fun tp tq => ⟨forward, ?_⟩⟩
  rintro rfl
  obtain ⟨alike, -⟩ := legible p.toValue fp fq hx hy (rfl : x ++ [] = x ++ [])
  have equal := Value.equal_of_alike (not_somewhere_rough hx np (tp.not_somewhere hp))
    (not_somewhere_rough hy nq (tq.not_somewhere hq)) alike
  rw [toValue, toValue, Value.equal] at equal
  exact equal

/-- `{"a": 1.5, "b": {"x": 3, "y": [null]}}`, entry by entry. -/
def tidyFields : Entries :=
  [(.text "a", .float 0x3ff8000000000000),
    (.text "b", .record [(.text "x", .int ⟨3, by decide, by decide⟩), (.text "y", .list [.null])])]

theorem eq_iff_encode_eq_tidyFields :
    ofEntries tidyFields = .ok ⟨tidyFields⟩ ∧ ofEntries tidyFields.reverse = .ok ⟨tidyFields⟩ ∧
      Tidy ⟨tidyFields⟩ ∧ ((⟨tidyFields⟩ : Payload) == ⟨tidyFields⟩) = true := by
  have keys : ∀ e ∈ tidyFields, (code? e.1).isSome := by decide +kernel
  have ascending : InKeyOrder tidyFields := by decide +kernel
  have made : ofEntries tidyFields = .ok ⟨tidyFields⟩ :=
    ofEntries_eq_ok_iff.mpr ⟨keys, .refl _, ascending⟩
  have made' : ofEntries tidyFields.reverse = .ok ⟨tidyFields⟩ :=
    ofEntries_eq_ok_iff.mpr ⟨fun e mem => keys e (List.mem_reverse.mp mem),
      (List.reverse_perm _).symm, ascending⟩
  obtain ⟨x, written⟩ : ∃ x, encode (.record tidyFields) = .ok x :=
    exists_eq_ok (by decide +kernel)
  have fits : (Value.record tidyFields).fits = true := by decide +kernel
  have number : ¬ (Value.record tidyFields).Somewhere Value.IsNaN := by decide +kernel
  have tidy : Tidy ⟨tidyFields⟩ := by decide +kernel
  have agree := eq_iff_encode_eq made made' written written fits fits number number
  exact ⟨made, made', tidy, (agree.2 tidy tidy).mpr rfl⟩

/-- `{"k": 1}`, with an integer or with a double. -/
def spelled (one : Value) : Payload := ⟨[(.text "k", one)]⟩

/-- Payloads that differ and are written alike. -/
theorem ofEntries_spelledTwice :
    let byInteger := spelled (.int ⟨1, by decide, by decide⟩)
    let byDouble := spelled (.float 0x3ff0000000000000)
    ofEntries byInteger.entries = .ok byInteger ∧ ofEntries byDouble.entries = .ok byDouble ∧
      ¬ byInteger.toValue.Somewhere Value.IsNaN ∧ ¬ byDouble.toValue.Somewhere Value.IsNaN ∧
      encode byInteger.toValue = encode byDouble.toValue ∧
      encode byInteger.toValue = .ok [0xa1, 0x61, 0x6b, 0x01] ∧
      (byInteger == byDouble) = false := by
  have key : (code? (.text "k")).isSome := by decide +kernel
  have made (one : Value) : ofEntries (spelled one).entries = .ok (spelled one) := by
    refine ofEntries_eq_ok_iff.mpr ⟨?_, .refl _, List.pairwise_singleton _ _⟩
    intro e mem
    obtain rfl := List.mem_singleton.mp mem
    exact key
  exact ⟨made _, made _, by decide +kernel, by decide +kernel, by decide +kernel, by decide +kernel,
    by decide +kernel⟩

end Payload

end SubtermIndex
