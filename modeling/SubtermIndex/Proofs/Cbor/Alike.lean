/-
# `SubtermIndex.Proofs.Cbor.Alike` — which values are the same to the format

`Value.Alike` is the least congruence on values that identifies

- records whose entries are permutations of one another,
- a double that stands for an integer of the format with that integer (both
  zeros are the integer 0), and
- any two NaNs.

Alike values are encoded alike, or none of them has an encoding (`Alike.code?_eq`).  That nothing
else is encoded alike is the subject of `SubtermIndex.Proofs.Cbor.Unambiguous`.

A congruence is easy to use and hard to refute: that two values are *not* alike cannot be read off
its rules, since any number of steps may lie between the two.  What can be read off is what alike
values have in common on the outside (`PartsAlike`), which is an equivalence by itself and is kept
by every step (`Alike.parts`).  Hence a list is alike to lists only, item by item, and a record to
records only, entry by entry in some order.
-/
import SubtermIndex.Proofs.Lists
import SubtermIndex.Proofs.Cbor.Encoding
import SubtermIndex.Proofs.Cbor.Number

namespace SubtermIndex.Cbor

namespace Value

/-- The least congruence that forgets the order of entries, the spelling of integers and
the patterns of NaNs. -/
inductive Alike : Value → Value → Prop
  | refl (v : Value) : Alike v v
  | symm {v w : Value} : Alike v w → Alike w v
  | trans {u v w : Value} : Alike u v → Alike v w → Alike u w
  | item {v w : Value} (before after : List Value) : Alike v w →
      Alike (.list (before ++ v :: after)) (.list (before ++ w :: after))
  | key {k l : Value} (before after : Entries) (v : Value) : Alike k l →
      Alike (.record (before ++ (k, v) :: after)) (.record (before ++ (l, v) :: after))
  | value {v w : Value} (before after : Entries) (k : Value) : Alike v w →
      Alike (.record (before ++ (k, v) :: after)) (.record (before ++ (k, w) :: after))
  | content {v w : Value} (number : UInt64) : Alike v w → Alike (.tag number v) (.tag number w)
  | order {entries entries' : Entries} : entries.Perm entries' →
      Alike (.record entries) (.record entries')
  | integer {bits : UInt64} {n : Integer} : IsInteger bits n → Alike (.float bits) (.int n)
  | nan {bits bits' : UInt64} : isNaN bits = true → isNaN bits' = true →
      Alike (.float bits) (.float bits')

/-- Alike values have one encoding. -/
theorem Alike.code?_eq {v w : Value} (h : Alike v w) : code? v = code? w := by
  induction h with
  | refl _ => rfl
  | symm _ ih => exact ih.symm
  | trans _ _ ih₁ ih₂ => exact ih₁.trans ih₂
  | item before after _ ih => exact code?_list_congr (by simp [ih])
  | key before after v _ ih => exact code?_record_congr (.of_eq (by simp [codes?, ih]))
  | value before after k _ ih => exact code?_record_congr (.of_eq (by simp [codes?, ih]))
  | content number _ _ => rfl
  | order perm => exact code?_record_congr (perm.map codes?)
  | integer h => simp only [code?, encode, encodeFloat_of_isInteger h]
  | nan h h' =>
      simp only [isNaN, decide_eq_true_eq] at h h'
      simp only [code?, encode, encodeFloat, h, h']

/-! ## Lists and records, part by part -/

theorem Alike.list {items items' : List Value} (h : List.Forall₂ Alike items items')
    (before : List Value) : Alike (.list (before ++ items)) (.list (before ++ items')) := by
  induction h generalizing before with
  | nil => exact .refl _
  | @cons v w rest rest' hv _ ih =>
      have := ih (before ++ [w])
      rw [List.append_assoc, List.append_assoc] at this
      exact .trans (.item before rest hv) this

def AlikeEntries (e f : Value × Value) : Prop := Alike e.1 f.1 ∧ Alike e.2 f.2

theorem Alike.record {entries entries' : Entries} (h : List.Forall₂ AlikeEntries entries entries')
    (before : Entries) : Alike (.record (before ++ entries)) (.record (before ++ entries')) := by
  induction h generalizing before with
  | nil => exact .refl _
  | @cons e f rest rest' he _ ih =>
      have := ih (before ++ [f])
      rw [List.append_assoc, List.append_assoc] at this
      exact .trans (.key before rest e.2 he.1) (.trans (.value before rest f.1 he.2) this)

theorem map_codes?_eq {entries entries' : Entries}
    (alike : List.Forall₂ AlikeEntries entries entries') :
    entries.map codes? = entries'.map codes? := by
  rw [← List.forall₂_eq_eq_eq, List.forall₂_map_left_iff, List.forall₂_map_right_iff]
  refine alike.imp ?_
  intro e f same
  rw [codes?, codes?, same.1.code?_eq, same.2.code?_eq]

theorem inKeyOrder_iff {entries entries' : Entries}
    (alike : List.Forall₂ AlikeEntries entries entries') :
    InKeyOrder entries ↔ InKeyOrder entries' := by
  have keys := congrArg (List.map fun c => c.1.getD []) (map_codes?_eq alike)
  rw [List.map_map, List.map_map] at keys
  exact iff_of_eq (congrArg (List.Pairwise _) keys)

/-! ## What alike values have in common -/

def isCollection : Value → Bool
  | list _ => true
  | record _ => true
  | _ => false

/-- The one spelling of what is neither a collection nor tagged: an integer for a double that is
one, and one pattern for every NaN. -/
def leaf? : Value → Option Value
  | float bits =>
      if isNaN bits then some (float 0x7ff8000000000000)
      else some ((integerOf? bits).elim (float bits) int)
  | list _ => none
  | record _ => none
  | tag _ _ => none
  | v => some v

theorem leaf?_eq_of_isInteger {bits : UInt64} {n : Integer} (h : IsInteger bits n) :
    leaf? (float bits) = some (int n) := by
  rw [leaf?, not_isNaN_of_isInteger h, integerOf?_eq_some_iff.mpr h]
  rfl

/-- What alike values show on the outside: lists of alike items in one order, records of alike
entries in any order, or two other values with one spelling. -/
inductive PartsAlike : Value → Value → Prop
  | list {items items' : List Value} : List.Forall₂ Alike items items' →
      PartsAlike (.list items) (.list items')
  | record {entries between entries' : Entries} : entries.Perm between →
      List.Forall₂ AlikeEntries between entries' → PartsAlike (.record entries) (.record entries')
  | other {v w : Value} : v.isCollection = false → w.isCollection = false → v.leaf? = w.leaf? →
      PartsAlike v w

theorem Alike.refl_items (items : List Value) : List.Forall₂ Alike items items :=
  List.forall₂_same.mpr fun v _ => .refl v

theorem AlikeEntries.refl_all (entries : Entries) : List.Forall₂ AlikeEntries entries entries :=
  List.forall₂_same.mpr fun e _ => ⟨.refl e.1, .refl e.2⟩

theorem AlikeEntries.symm {e f : Value × Value} (h : AlikeEntries e f) : AlikeEntries f e :=
  ⟨h.1.symm, h.2.symm⟩

theorem AlikeEntries.trans {e f g : Value × Value} (h : AlikeEntries e f)
    (h' : AlikeEntries f g) : AlikeEntries e g :=
  ⟨h.1.trans h'.1, h.2.trans h'.2⟩

theorem PartsAlike.refl (v : Value) : PartsAlike v v := by
  cases v with
  | list items => exact .list (Alike.refl_items items)
  | record entries => exact .record (.refl _) (AlikeEntries.refl_all entries)
  | _ => exact .other rfl rfl rfl

theorem PartsAlike.symm {v w : Value} (h : PartsAlike v w) : PartsAlike w v := by
  cases h with
  | list items => exact .list (items.flip.imp fun _ _ => .symm)
  | record perm entries =>
      -- The entries of the first record, now put in order after the exchange of alike ones.
      obtain ⟨between, alike, perm⟩ := List.perm_comp_forall₂ perm entries
      exact .record perm.symm (alike.flip.imp fun _ _ => .symm)
  | other left right leaf => exact .other right left leaf.symm

theorem PartsAlike.trans {u v w : Value} (h : PartsAlike u v) (h' : PartsAlike v w) :
    PartsAlike u w := by
  cases h with
  | list items =>
      cases h' with
      | list items' => exact .list (forall₂_trans .trans items items')
      | other absurd => cases absurd
  | record perm entries =>
      cases h' with
      | record perm' entries' =>
          obtain ⟨between, alike, same⟩ := List.perm_comp_forall₂ perm'.symm entries.flip
          exact .record (perm.trans same.symm) (forall₂_trans .trans alike.flip entries')
      | other absurd => cases absurd
  | other left right leaf =>
      cases h' with
      | list => cases right
      | record => cases right
      | other _ right' leaf' => exact .other left right' (leaf.trans leaf')

/-- What was exchanged inside does not show on the outside. -/
theorem Alike.parts {v w : Value} (h : Alike v w) : PartsAlike v w := by
  induction h with
  | refl v => exact .refl v
  | symm _ ih => exact ih.symm
  | trans _ _ ih ih' => exact ih.trans ih'
  | item before after hv _ =>
      exact .list (List.rel_append (Alike.refl_items before) (.cons hv (Alike.refl_items after)))
  | key before after v hk _ =>
      exact .record (.refl _) (List.rel_append (AlikeEntries.refl_all before)
        (.cons ⟨hk, .refl v⟩ (AlikeEntries.refl_all after)))
  | value before after k hv _ =>
      exact .record (.refl _) (List.rel_append (AlikeEntries.refl_all before)
        (.cons ⟨.refl k, hv⟩ (AlikeEntries.refl_all after)))
  | content number _ _ => exact .other rfl rfl rfl
  | order perm => exact .record perm (AlikeEntries.refl_all _)
  | integer h => exact .other rfl rfl (leaf?_eq_of_isInteger h)
  | nan h h' => exact .other rfl rfl (by rw [leaf?, leaf?, if_pos h, if_pos h'])

theorem asText?_eq_leaf? {v : Value} (collection : v.isCollection = false) :
    v.asText? = v.leaf?.bind asText? := by
  cases v with
  | float bits =>
      rw [leaf?]
      split
      · rfl
      · cases integerOf? bits <;> rfl
  | list => cases collection
  | record => cases collection
  | _ => rfl

/-- A text is alike to nothing but itself. -/
theorem Alike.asText?_eq {v w : Value} (h : Alike v w) : v.asText? = w.asText? := by
  cases h.parts with
  | list => rfl
  | record => rfl
  | other left right leaf => rw [asText?_eq_leaf? left, asText?_eq_leaf? right, leaf]

theorem Alike.exists_items {items : List Value} {w : Value} (h : Alike (.list items) w) :
    ∃ items', w = .list items' ∧ List.Forall₂ Alike items items' := by
  cases h.parts with
  | list alike => exact ⟨_, rfl, alike⟩
  | other absurd => cases absurd

theorem Alike.exists_entries {entries : Entries} {w : Value} (h : Alike (.record entries) w) :
    ∃ between entries', w = .record entries' ∧ entries.Perm between ∧
      List.Forall₂ AlikeEntries between entries' := by
  cases h.parts with
  | record perm alike => exact ⟨_, _, rfl, perm, alike⟩
  | other absurd => cases absurd

end Value

/-! ## Lengths that a head can write -/

/- Whether every length in a value is below 2 ^ 64, as the lengths of all that a
machine of 64 bits can hold are. -/
mutual
def Value.fits : Value → Bool
  | .text s => s.utf8ByteSize < 2 ^ 64
  | .bytes bs => bs.length < 2 ^ 64
  | .list items => items.length < 2 ^ 64 && itemsFit items
  | .record entries => entries.length < 2 ^ 64 && entriesFit entries
  | .tag _ content => content.fits
  | _ => true
termination_by structural v => v

def itemsFit : List Value → Bool
  | [] => true
  | v :: rest => v.fits && itemsFit rest
termination_by structural vs => vs

def entriesFit : Entries → Bool
  | [] => true
  | (k, v) :: rest => k.fits && v.fits && entriesFit rest
termination_by structural vs => vs
end

theorem itemsFit_iff {items : List Value} : itemsFit items = true ↔ ∀ v ∈ items, v.fits := by
  induction items with
  | nil => simp [itemsFit]
  | cons v rest ih => simp [itemsFit, ih]

theorem entriesFit_iff {entries : Entries} :
    entriesFit entries = true ↔ ∀ e ∈ entries, e.1.fits ∧ e.2.fits := by
  induction entries with
  | nil => simp [entriesFit]
  | cons e rest ih => simp [entriesFit, ih]

theorem fits_list {items : List Value} :
    (Value.list items).fits = true ↔ items.length < 2 ^ 64 ∧ ∀ v ∈ items, v.fits := by
  simp [Value.fits, itemsFit_iff]

theorem fits_record {entries : Entries} :
    (Value.record entries).fits = true ↔
      entries.length < 2 ^ 64 ∧ ∀ e ∈ entries, e.1.fits ∧ e.2.fits := by
  simp [Value.fits, entriesFit_iff]

end SubtermIndex.Cbor
