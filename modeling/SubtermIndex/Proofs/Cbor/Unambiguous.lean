/-
# `SubtermIndex.Proofs.Cbor.Unambiguous` — an encoding shows what was encoded, and where it ends

For values `a` and `b` with encodings `x` and `y`, all lengths in them being numbers of 64 bits,
and any byte strings `s` and `t`:

    x ++ s = y ++ t ↔ a.Alike b ∧ s = t

From right to left this says that alike values are encoded alike (`Alike.code?_eq`).  From left to
right it is a parsing argument: the first byte tells the kind of the value (`firstKind`), the head
tells how much follows, and every part is read off by induction.  The induction is on `a` alone;
`b` and what comes behind are arbitrary.

Doubles that are integers begin like integers.  They are replaced by these integers first, on both
sides (`exists_plain`), so that afterwards values that begin alike are of the same kind.

The entries of a record are read off in the order in which they are written, which need not be
that in which the record has them.  Both records are put in the order of their keys first
(`exists_written_order`); a record is alike to itself in any order.
-/
import SubtermIndex.Proofs.Bytes
import SubtermIndex.Proofs.Cbor.Alike

namespace SubtermIndex.Cbor

open Value

/-! ## The first byte -/

def Major.kind : Major → Kind
  | unsigned => .int
  | negative => .int
  | bytes => .bytes
  | text => .text
  | list => .list
  | record => .record

/-- The kind of value that begins with a byte. -/
def firstKind (c : UInt8) : Kind :=
  match c.toNat / 32 with
  | 0 => .int
  | 1 => .int
  | 2 => .bytes
  | 3 => .text
  | 4 => .list
  | 5 => .record
  | _ => if c = 0xf6 then .null else if c = 0xf5 ∨ c = 0xf4 then .bool else .float

/-- Where a byte string begins with a byte for the given kind of value. -/
def Begins (kind : Kind) (x : Bytes) : Prop := ∃ c rest, x = c :: rest ∧ firstKind c = kind

theorem begins_null : Begins .null [0xf6] := ⟨_, _, rfl, by decide⟩

theorem begins_bool (truth : Bool) : Begins .bool [if truth then 0xf5 else 0xf4] := by
  cases truth <;> exact ⟨_, _, rfl, by decide⟩

theorem begins_head (major : Major) (n : Nat) (rest : Bytes) :
    Begins major.kind (head major n ++ rest) := by
  refine ⟨_, _, by rw [head_eq]; rfl, ?_⟩
  have code : (major.code * 32 + headLow n) / 32 = major.code := by
    have := headLow_lt n
    omega
  simp only [firstKind, toNat_first, code]
  cases major <;> rfl

theorem begins_encodeInteger (n : Integer) : Begins .int (encodeInteger n) := by
  rw [encodeInteger]
  split
  · have := begins_head .unsigned n.val.toNat []
    rwa [List.append_nil] at this
  · have := begins_head .negative (-1 - n.val).toNat []
    rwa [List.append_nil] at this

theorem Fraction.begins {bits : UInt64} {x : Bytes} (h : Fraction bits x) : Begins .float x := by
  cases h <;> exact ⟨_, _, rfl, by decide⟩

theorem Begins.unique {kind kind' : Kind} {x y s t : Bytes} (hx : Begins kind x)
    (hy : Begins kind' y) (h : x ++ s = y ++ t) : kind = kind' := by
  obtain ⟨c, rest, rfl, rfl⟩ := hx
  obtain ⟨c', rest', rfl, rfl⟩ := hy
  rw [(List.cons.inj h).1]

/-- A value that is written like `v` and begins with a byte for its own kind. -/
theorem exists_plain {v : Value} {x : Bytes} (hf : v.fits) (h : encode v = .ok x) :
    ∃ w, v.Alike w ∧ w.fits ∧ encode w = .ok x ∧ Begins w.kind x := by
  have keep (begins : Begins v.kind x) : ∃ w, v.Alike w ∧ w.fits ∧ encode w = .ok x ∧
      Begins w.kind x := ⟨v, .refl v, hf, h, begins⟩
  cases v with
  | null =>
      obtain rfl := Except.ok.inj h
      exact keep begins_null
  | bool truth =>
      obtain rfl := Except.ok.inj h
      exact keep (begins_bool truth)
  | int n =>
      obtain rfl := Except.ok.inj h
      exact keep (begins_encodeInteger n)
  | float bits =>
      obtain rfl := Except.ok.inj h
      -- a double with an integer value is written as the integer, which is plain
      rcases encodeFloat_cases bits with ⟨n, hn⟩ | fraction
      · have same := encodeFloat_of_isInteger hn
        exact ⟨.int n, .integer hn, rfl, by rw [encode, same], same ▸ begins_encodeInteger n⟩
      · exact keep fraction.begins
  | text s =>
      obtain rfl := Except.ok.inj h
      exact keep (begins_head .text _ _)
  | bytes bs =>
      obtain rfl := Except.ok.inj h
      exact keep (begins_head .bytes _ _)
  | list items =>
      obtain ⟨xs, -, rfl⟩ := encode_list.mp h
      exact keep (begins_head .list _ _)
  | record entries =>
      obtain ⟨rows, -, -, rfl⟩ := encode_record.mp h
      exact keep (begins_head .record _ _)
  | tag number content => simp [encode] at h

/-! ## Parsing -/

/-- The encoding of `a` ends where it says, and is that of nothing but what is like `a`. -/
def Legible (a : Value) : Prop :=
  ∀ {b : Value} {x y s t : Bytes}, a.fits → b.fits → encode a = .ok x → encode b = .ok y →
    x ++ s = y ++ t → a.Alike b ∧ s = t

/-- To read a value it is enough to tell it from the values that begin like it. -/
theorem legible_of_plain {a : Value}
    (h : ∀ {b : Value} {x y s t : Bytes}, a.fits → b.fits → encode a = .ok x → encode b = .ok y →
      Begins b.kind y → x ++ s = y ++ t → a.Alike b ∧ s = t) : Legible a := by
  intro b x y s t fa fb ha hb eq
  obtain ⟨w, alike, fw, hw, begins⟩ := exists_plain fb hb
  obtain ⟨aw, rest⟩ := h fa fw ha hw begins eq
  exact ⟨aw.trans alike.symm, rest⟩

theorem legible_null : Legible .null := by
  refine legible_of_plain ?_
  intro b x y s t _ _ ha hb begins eq
  obtain rfl := Except.ok.inj ha
  have kind := begins_null.unique begins eq
  cases b with
  | null =>
      obtain rfl := Except.ok.inj hb
      exact ⟨.refl _, (List.cons.inj eq).2⟩
  | _ => cases kind

theorem legible_bool (truth : Bool) : Legible (.bool truth) := by
  refine legible_of_plain ?_
  intro b x y s t _ _ ha hb begins eq
  obtain rfl := Except.ok.inj ha
  have kind := (begins_bool truth).unique begins eq
  cases b with
  | bool truth' =>
      obtain rfl := Except.ok.inj hb
      obtain ⟨first, rest⟩ := List.cons.inj eq
      have same : truth = truth' := by
        cases truth <;> cases truth' <;> first | rfl | exact absurd first (by decide)
      exact ⟨same ▸ .refl _, rest⟩
  | _ => cases kind

theorem legible_int (n : Integer) : Legible (.int n) := by
  refine legible_of_plain ?_
  intro b x y s t _ _ ha hb begins eq
  obtain rfl := Except.ok.inj ha
  have kind := (begins_encodeInteger n).unique begins eq
  cases b with
  | int m =>
      obtain rfl := Except.ok.inj hb
      obtain ⟨rfl, rest⟩ := encodeInteger_append_inj eq
      exact ⟨.refl _, rest⟩
  | _ => cases kind

theorem legible_float (bits : UInt64) : Legible (.float bits) := by
  rcases encodeFloat_cases bits with ⟨n, hn⟩ | fraction
  · intro b x y s t _ fb ha hb eq
    have written : encode (.int n) = .ok x := by
      rw [← ha, encode, encode, encodeFloat_of_isInteger hn]
    obtain ⟨alike, rest⟩ := legible_int n rfl fb written hb eq
    exact ⟨(Alike.integer hn).trans alike, rest⟩
  · refine legible_of_plain ?_
    intro b x y s t _ _ ha hb begins eq
    obtain rfl := Except.ok.inj ha
    have kind := fraction.begins.unique begins eq
    cases b with
    | float bits' =>
        obtain rfl := Except.ok.inj hb
        rcases encodeFloat_cases bits' with ⟨n, hn⟩ | fraction'
        · rw [encodeFloat_of_isInteger hn] at begins eq
          cases begins.unique (begins_encodeInteger n) (rfl : _ ++ t = _ ++ t)
        · obtain ⟨same, rest⟩ := fraction.append_inj fraction' eq
          refine ⟨?_, rest⟩
          rcases same with rfl | ⟨nan, nan'⟩
          · exact .refl _
          · exact .nan (decide_eq_true nan) (decide_eq_true nan')
    | _ => cases kind

theorem legible_text (text : String) : Legible (.text text) := by
  refine legible_of_plain ?_
  intro b x y s t fa fb ha hb begins eq
  obtain rfl := Except.ok.inj ha
  have kind := (begins_head .text _ _).unique begins eq
  cases b with
  | text text' =>
      obtain rfl := Except.ok.inj hb
      simp only [fits, decide_eq_true_eq] at fa fb
      rw [List.append_assoc, List.append_assoc] at eq
      obtain ⟨-, length, eq⟩ := head_append_inj fa fb eq
      obtain ⟨same, rest⟩ := List.append_inj eq length
      rw [Bytes.ofText_inj same]
      exact ⟨.refl _, rest⟩
  | _ => cases kind

theorem legible_bytes (bs : Bytes) : Legible (.bytes bs) := by
  refine legible_of_plain ?_
  intro b x y s t fa fb ha hb begins eq
  obtain rfl := Except.ok.inj ha
  have kind := (begins_head .bytes _ _).unique begins eq
  cases b with
  | bytes bs' =>
      obtain rfl := Except.ok.inj hb
      simp only [fits, decide_eq_true_eq] at fa fb
      rw [List.append_assoc, List.append_assoc] at eq
      obtain ⟨-, length, eq⟩ := head_append_inj fa fb eq
      obtain ⟨rfl, rest⟩ := List.append_inj eq length
      exact ⟨.refl _, rest⟩
  | _ => cases kind

/-- Items that are read one by one are read together, if their number is known. -/
theorem legible_items {items items' : List Value} {xs ys : List Bytes} {s t : Bytes}
    (legible : ∀ v ∈ items, Legible v) (length : items.length = items'.length)
    (fits : ∀ v ∈ items, v.fits) (fits' : ∀ v ∈ items', v.fits)
    (hx : items.map code? = xs.map some) (hy : items'.map code? = ys.map some)
    (eq : xs.flatten ++ s = ys.flatten ++ t) : List.Forall₂ Alike items items' ∧ s = t := by
  induction items generalizing items' xs ys with
  | nil =>
      obtain rfl := List.length_eq_zero_iff.mp length.symm
      obtain rfl := List.map_eq_nil_iff.mp hx.symm
      obtain rfl := List.map_eq_nil_iff.mp hy.symm
      exact ⟨.nil, eq⟩
  | cons v rest ih =>
      cases items' with
      | nil => simp at length
      | cons w rest' =>
          obtain ⟨x, xs, rfl, first, hx⟩ := List.map_eq_cons_iff.mp hx.symm
          obtain ⟨y, ys, rfl, first', hy⟩ := List.map_eq_cons_iff.mp hy.symm
          rw [List.forall_mem_cons] at legible fits fits'
          rw [List.flatten_cons, List.flatten_cons, List.append_assoc, List.append_assoc] at eq
          obtain ⟨alike, eq⟩ := legible.1 fits.1 fits'.1 (code?_eq_some.mp first.symm)
            (code?_eq_some.mp first'.symm) eq
          obtain ⟨all, eq⟩ := ih legible.2 (Nat.succ.inj length) fits.2 fits'.2 hx.symm hy.symm eq
          exact ⟨.cons alike all, eq⟩

theorem legible_list {items : List Value} (legible : ∀ v ∈ items, Legible v) :
    Legible (.list items) := by
  refine legible_of_plain ?_
  intro b x y s t fa fb ha hb begins eq
  obtain ⟨xs, hx, rfl⟩ := encode_list.mp ha
  have kind := (begins_head .list _ _).unique begins eq
  cases b with
  | list items' =>
      obtain ⟨ys, hy, rfl⟩ := encode_list.mp hb
      obtain ⟨short, fits⟩ := fits_list.mp fa
      obtain ⟨short', fits'⟩ := fits_list.mp fb
      rw [List.append_assoc, List.append_assoc] at eq
      obtain ⟨-, length, eq⟩ := head_append_inj short short' eq
      obtain ⟨alike, rest⟩ := legible_items legible length fits fits' hx hy eq
      exact ⟨Alike.list alike [], rest⟩
  | _ => cases kind

theorem legible_rows {entries entries' : Entries} {rows rows' : List Row} {s t : Bytes}
    (legible : ∀ e ∈ entries, Legible e.1 ∧ Legible e.2)
    (length : entries.length = entries'.length)
    (fits : ∀ e ∈ entries, e.1.fits ∧ e.2.fits) (fits' : ∀ e ∈ entries', e.1.fits ∧ e.2.fits)
    (hx : entries.map codes? = rows.map Row.known)
    (hy : entries'.map codes? = rows'.map Row.known)
    (eq : rows.flatMap Row.bytes ++ s = rows'.flatMap Row.bytes ++ t) :
    List.Forall₂ AlikeEntries entries entries' ∧ s = t := by
  induction entries generalizing entries' rows rows' with
  | nil =>
      obtain rfl := List.length_eq_zero_iff.mp length.symm
      obtain rfl := List.map_eq_nil_iff.mp hx.symm
      obtain rfl := List.map_eq_nil_iff.mp hy.symm
      exact ⟨.nil, eq⟩
  | cons e rest ih =>
      cases entries' with
      | nil => simp at length
      | cons f rest' =>
          obtain ⟨r, rows, rfl, first, hx⟩ := List.map_eq_cons_iff.mp hx.symm
          obtain ⟨r', rows', rfl, first', hy⟩ := List.map_eq_cons_iff.mp hy.symm
          obtain ⟨hkey, hvalue⟩ := codes?_eq_known.mp first.symm
          obtain ⟨hkey', hvalue'⟩ := codes?_eq_known.mp first'.symm
          rw [List.forall_mem_cons] at legible fits fits'
          simp only [List.flatMap_cons, Row.bytes, List.append_assoc] at eq
          -- each step reads one part and leaves the bytes behind it to the next
          obtain ⟨key, eq⟩ := legible.1.1 fits.1.1 fits'.1.1 hkey hkey' eq
          obtain ⟨value, eq⟩ := legible.1.2 fits.1.2 fits'.1.2 hvalue hvalue' eq
          obtain ⟨all, eq⟩ := ih legible.2 (Nat.succ.inj length) fits.2 fits'.2 hx.symm hy.symm eq
          exact ⟨.cons ⟨key, value⟩ all, eq⟩

/-- The entries of a record in the order in which they are written. -/
theorem exists_written_order {entries : Entries} {rows : List Row}
    (h : (entries.map codes?).Perm (rows.map Row.known)) :
    ∃ written : Entries, written.Perm entries ∧ written.map codes? = rows.map Row.known := by
  have : Relation.Comp (· = List.map codes? ·) List.Perm (rows.map Row.known) entries := by
    rw [List.eq_map_comp_perm]
    exact h.symm
  obtain ⟨written, hw, perm⟩ := this
  exact ⟨written, perm, hw.symm⟩

theorem legible_record {entries : Entries} (legible : ∀ e ∈ entries, Legible e.1 ∧ Legible e.2) :
    Legible (.record entries) := by
  refine legible_of_plain ?_
  intro b x y s t fa fb ha hb begins eq
  obtain ⟨rows, -, perm, rfl⟩ := encode_record.mp ha
  have kind := (begins_head .record _ _).unique begins eq
  cases b with
  | record entries' =>
      obtain ⟨rows', -, perm', rfl⟩ := encode_record.mp hb
      obtain ⟨short, fits⟩ := fits_record.mp fa
      obtain ⟨short', fits'⟩ := fits_record.mp fb
      rw [List.append_assoc, List.append_assoc] at eq
      obtain ⟨-, length, eq⟩ := head_append_inj short short' eq
      obtain ⟨written, order, known⟩ := exists_written_order perm
      obtain ⟨written', order', known'⟩ := exists_written_order perm'
      obtain ⟨alike, rest⟩ := legible_rows (fun e he => legible e (order.subset he))
        (by rw [order.length_eq, order'.length_eq, length])
        (fun e he => fits e (order.subset he)) (fun e he => fits' e (order'.subset he))
        known known' eq
      refine ⟨?_, rest⟩
      exact (Alike.order order.symm).trans ((Alike.record alike []).trans (.order order'))
  | _ => cases kind

theorem legible (a : Value) : Legible a := by
  induction a using Value.induction with
  | null => exact legible_null
  | bool truth => exact legible_bool truth
  | int n => exact legible_int n
  | float bits => exact legible_float bits
  | text s => exact legible_text s
  | bytes bs => exact legible_bytes bs
  | list items ih => exact legible_list ih
  | record entries ih => exact legible_record ih
  | tag number content _ =>
      intro b x y s t _ _ ha
      simp [encode] at ha

/-- An encoding with anything behind it can be split in one way only. -/
theorem append_inj_of_encode {a b : Value} {x y s t : Bytes} (fa : a.fits) (fb : b.fits)
    (ha : encode a = .ok x) (hb : encode b = .ok y) (h : x ++ s = y ++ t) : x = y ∧ s = t := by
  obtain ⟨alike, rest⟩ := legible a fa fb ha hb h
  have := alike.code?_eq
  rw [code?_eq_some.mpr ha, code?_eq_some.mpr hb] at this
  exact ⟨Option.some.inj this, rest⟩

/-! ## The main statement -/

/-- The encoding is unambiguous and self-delimiting, exactly up to what is alike. -/
theorem encode_append_eq_iff {a b : Value} {x y : Bytes} (fa : a.fits) (fb : b.fits)
    (ha : encode a = .ok x) (hb : encode b = .ok y) (s t : Bytes) :
    x ++ s = y ++ t ↔ a.Alike b ∧ s = t := by
  constructor
  · exact legible a fa fb ha hb
  · rintro ⟨alike, rfl⟩
    have := alike.code?_eq
    rw [code?_eq_some.mpr ha, code?_eq_some.mpr hb] at this
    rw [Option.some.inj this]

/-- `{"k": NaN, 1.0: [2]}`, with a double for a key. -/
def spelledByDouble : Value :=
  .record
    [(.text "k", .float 0xfff8000000000001),
      (.float 0x3ff0000000000000, .list [.int ⟨2, by decide, by decide⟩])]

/-- `{1: [2.0], "k": NaN}`: the same datum in another order, with another NaN. -/
def spelledByInteger : Value :=
  .record
    [(.int ⟨1, by decide, by decide⟩, .list [.float 0x4000000000000000]),
      (.text "k", .float 0x7ff8000000000000)]

/-- How both are written. -/
def spelledBytes : Bytes := [0xa2, 0x01, 0x81, 0x02, 0x61, 0x6b, 0xf9, 0x7e, 0x00]

theorem encode_append_eq_iff_spellings :
    spelledByDouble.fits ∧ spelledByInteger.fits ∧ encode spelledByDouble = .ok spelledBytes ∧
      encode spelledByInteger = .ok spelledBytes ∧
      (spelledBytes ++ [0] = spelledBytes ++ [0] ↔
        spelledByDouble.Alike spelledByInteger ∧ ([0] : Bytes) = [0]) := by
  have fits : spelledByDouble.fits = true := by decide +kernel
  have fits' : spelledByInteger.fits = true := by decide +kernel
  have written : encode spelledByDouble = .ok spelledBytes := by decide +kernel
  have written' : encode spelledByInteger = .ok spelledBytes := by decide +kernel
  exact ⟨fits, fits', written, written', encode_append_eq_iff fits fits' written written' [0] [0]⟩

end SubtermIndex.Cbor
