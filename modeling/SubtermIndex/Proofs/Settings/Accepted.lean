/-
# `SubtermIndex.Proofs.Settings.Accepted` — which documents are settings

The members of settings are a record's fields: each can be had and set on its own
(`get?_set_self`, `get?_set_ne`), so that reading a row of members splits into what each of the
four does (`steps_takes_iff`).  A document of settings therefore gives each member once at most,
and nothing else; what a member gives is its setting, and the settings of the others are the usual
ones (`Describes`, `read_eq_ok_iff`).

Settings may also be a list of values, in which a member is known by its place.  The items are
then taken as if they stood under the names of the members (`steps_sets_all_iff`), and there is
one notion of what a document gives (`givenMembers?`).
-/
import SubtermIndex.Proofs.Settings.Choice

namespace SubtermIndex.Settings

open Json

/-! ## The four settings -/

/-- What a member sets. -/
abbrev Member.Setting : Member → Type
  | childrenField => String
  | hash => DigestChoice
  | maxDepth => UInt64
  | splitDepth => UInt64

def Member.Means : (m : Member) → Value → m.Setting → Prop
  | childrenField, v, text => v = .text text
  | hash, v, choice => Chooses v choice
  | maxDepth, v, n => v = .number (.natural n)
  | splitDepth, v, n => v = .number (.natural n)

def get (c : Settings) : (m : Member) → m.Setting
  | .childrenField => c.childrenField
  | .hash => c.digest
  | .maxDepth => c.maxDepth
  | .splitDepth => c.splitDepth

theorem ext_get {c c' : Settings} (same : ∀ m, c.get m = c'.get m) : c = c' := by
  obtain ⟨field, digest, depth, split⟩ := c
  obtain ⟨field', digest', depth', split'⟩ := c'
  obtain rfl : field = field' := same .childrenField
  obtain rfl : digest = digest' := same .hash
  obtain rfl : depth = depth' := same .maxDepth
  obtain rfl : split = split' := same .splitDepth
  rfl

theorem Member.ofName?_name (m : Member) : ofName? m.name = some m := by
  cases m <;> rfl

theorem Member.ofName?_eq_some_iff {s : String} {m : Member} : ofName? s = some m ↔ s = m.name :=
  find?_name_eq_some_iff ofName?_name

theorem Member.name_inj {m n : Member} : m.name = n.name → m = n :=
  eq_of_name_eq ofName?_name

namespace Draft

/-- The setting of a member, if it has been given. -/
def get? (d : Draft) : (m : Member) → Option m.Setting
  | .childrenField => d.childrenField?
  | .hash => d.digest?
  | .maxDepth => d.maxDepth?
  | .splitDepth => d.splitDepth?

def set (d : Draft) : (m : Member) → m.Setting → Draft
  | .childrenField, text => { d with childrenField? := some text }
  | .hash, choice => { d with digest? := some choice }
  | .maxDepth, n => { d with maxDepth? := some n }
  | .splitDepth, n => { d with splitDepth? := some n }

variable {d d' : Draft} {m n : Member}

theorem ext_get? (same : ∀ m, d.get? m = d'.get? m) : d = d' := by
  obtain ⟨field?, digest?, depth?, split?⟩ := d
  obtain ⟨field?', digest?', depth?', split?'⟩ := d'
  obtain rfl : field? = field?' := same .childrenField
  obtain rfl : digest? = digest?' := same .hash
  obtain rfl : depth? = depth?' := same .maxDepth
  obtain rfl : split? = split?' := same .splitDepth
  rfl

@[simp] theorem get?_empty : ({} : Draft).get? m = none := by
  cases m <;> rfl

@[simp] theorem get?_set_self {x : m.Setting} : (d.set m x).get? m = some x := by
  cases m <;> rfl

theorem get?_set_ne {x : m.Setting} (other : n ≠ m) : (d.set m x).get? n = d.get? n := by
  cases m <;> cases n <;> first | rfl | exact absurd rfl other

theorem has_eq : d.has m = (d.get? m).isSome := by
  cases m <;> rfl

theorem get_settings : d.settings.get m = (d.get? m).getD (({} : Settings).get m) := by
  cases m <;> rfl

/-- The value of a member is read where it gives a setting. -/
theorem interprets_read (d : Draft) (m : Member) :
    Interprets (memberNesting + 1) (d.read m) fun v d' => ∃ x, m.Means v x ∧ d.set m x = d' := by
  cases m with
  | childrenField => exact interprets_expectText.map _
  | hash => exact interprets_readChoice.map _
  | maxDepth => exact interprets_expectNatural.map _
  | splitDepth => exact interprets_expectNatural.map _

/-! ## Drafts of settings -/

def Takes (d : Draft) (p : String × Value) (d' : Draft) : Prop :=
  ∃ m : Member, p.1 = m.name ∧ d.get? m = none ∧ ∃ x, m.Means p.2 x ∧ d.set m x = d'

def Fills (m : Member) (before : Option m.Setting) (v : Value) (after : Option m.Setting) : Prop :=
  before = none ∧ ∃ x, m.Means v x ∧ some x = after

/-- Members are taken if they are known and each setting is filled by the values of its own. -/
theorem steps_takes_iff {ms : List (String × Value)} :
    Steps Takes d ms d' ↔
      (∀ p ∈ ms, ∃ m : Member, p.1 = m.name) ∧
        ∀ m, Steps (Fills m) (d.get? m) (valuesOf m.name ms) (d'.get? m) := by
  induction ms generalizing d with
  | nil =>
      constructor
      · rintro rfl
        exact ⟨nofun, fun m => rfl⟩
      · rintro ⟨-, same⟩
        exact ext_get? same
  | cons p rest ih =>
      -- the first member fills its own setting and leaves the other three alone
      have step : Steps Takes d (p :: rest) d' ↔ ∃ b, Takes d p b ∧ Steps Takes b rest d' := Iff.rfl
      rw [step, List.forall_mem_cons]
      constructor
      · rintro ⟨_, ⟨m, named, first, x, means, rfl⟩, others⟩
        obtain ⟨known, each⟩ := ih.mp others
        refine ⟨⟨⟨m, named⟩, known⟩, fun n => ?_⟩
        have filled := each n
        rw [valuesOf_cons]
        by_cases here : n = m
        · subst here
          rw [get?_set_self] at filled
          rw [if_pos named]
          exact ⟨some x, ⟨first, x, means, rfl⟩, filled⟩
        · rw [get?_set_ne here] at filled
          rw [if_neg fun same => here (Member.name_inj (same.symm.trans named))]
          exact filled
      · rintro ⟨⟨⟨m, named⟩, known⟩, each⟩
        have filled := each m
        rw [valuesOf_cons, if_pos named] at filled
        obtain ⟨_, ⟨first, x, means, rfl⟩, more⟩ := filled
        refine ⟨_, ⟨m, named, first, x, means, rfl⟩, ih.mpr ⟨known, fun n => ?_⟩⟩
        by_cases here : n = m
        · subst here
          rw [get?_set_self]
          exact more
        · have other := each n
          rw [valuesOf_cons,
            if_neg fun same => here (Member.name_inj (same.symm.trans named))] at other
          rw [get?_set_ne here]
          exact other

theorem steps_fills_none_iff {values : List Value} {after : Option m.Setting} :
    Steps (Fills m) none values after ↔
      (values = [] ∧ after = none) ∨ ∃ v x, values = [v] ∧ m.Means v x ∧ after = some x := by
  constructor
  · intro filled
    cases values with
    | nil => exact .inl ⟨rfl, filled.symm⟩
    | cons v more =>
        obtain ⟨_, ⟨-, x, means, rfl⟩, others⟩ := filled
        cases more with
        | nil => exact .inr ⟨v, x, rfl, means, others.symm⟩
        | cons w rest =>
            obtain ⟨_, ⟨given, -⟩, -⟩ := others
            simp at given
  · rintro (⟨rfl, rfl⟩ | ⟨v, x, rfl, means, rfl⟩)
    · rfl
    · exact ⟨some x, ⟨rfl, x, means, rfl⟩, rfl⟩

theorem gives_readMember (d : Draft) (name : String) (s : Bytes) (d' : Draft) (rest : Bytes) :
    Gives (readMember d name s) d' rest ↔
      ∃ v, Gives (readAfterColon (readValue (memberNesting + 1)) s) v rest ∧
        Takes d (name, v) d' := by
  rw [readMember.eq_def]
  cases known : Member.ofName? name with
  | none =>
      have unknown (m : Member) : name ≠ m.name := by
        intro named
        rw [Member.ofName?_eq_some_iff.mpr named] at known
        simp at known
      simp [Takes, unknown]
  | some m =>
      have named := Member.ofName?_eq_some_iff.mp known
      have takes (v : Value) : Takes d (name, v) d' ↔
          d.get? m = none ∧ ∃ x, m.Means v x ∧ d.set m x = d' := by
        constructor
        · rintro ⟨n, named', taken⟩
          obtain rfl := Member.name_inj (named.symm.trans named')
          exact taken
        · exact fun taken => ⟨m, named, taken⟩
      simp only [takes, has_eq]
      cases d.get? m with
      | some x => simp
      | none => simp [(interprets_read d m).afterColon]

/-! ## Settings as a list -/

def Sets (d : Draft) (p : Member × Value) (d' : Draft) : Prop :=
  ∃ x, p.1.Means p.2 x ∧ d.set p.1 x = d'

/-- Settings of different members may as well be taken by name. -/
theorem steps_sets_iff {ps : List (Member × Value)} (apart : (ps.map (·.1)).Nodup)
    (first : ∀ p ∈ ps, d.get? p.1 = none) :
    Steps Sets d ps d' ↔ Steps Takes d (ps.map fun p => (p.1.name, p.2)) d' := by
  induction ps generalizing d with
  | nil => rfl
  | cons p rest ih =>
      obtain ⟨m, v⟩ := p
      rw [List.map_cons, List.nodup_cons] at apart
      rw [List.forall_mem_cons] at first
      have takes (b : Draft) : Takes d (m.name, v) b ↔ Sets d (m, v) b := by
        constructor
        · rintro ⟨n, named, -, set⟩
          obtain rfl := Member.name_inj named
          exact set
        · exact fun set => ⟨m, rfl, first.1, set⟩
      show (∃ b, Sets d (m, v) b ∧ _) ↔ ∃ b, Takes d (m.name, v) b ∧ _
      refine exists_congr fun b => ?_
      rw [takes]
      refine and_congr_right fun ⟨x, _, set⟩ => ih apart.2 fun q inside => ?_
      subst set
      rw [get?_set_ne fun same => apart.1 (List.mem_map.mpr ⟨q, inside, same⟩)]
      exact first.2 q inside

/-- A list of settings is read as a list of values, no more than there are members. -/
theorem gives_readItems {members : List Member} {isFirst : Bool} {s rest : Bytes} :
    Gives (readItems members isFirst d s) d' rest ↔
      ∃ items, Row (byte ']') (ReadsItem (memberNesting + 1)) isFirst s items rest ∧
        items.length ≤ members.length ∧ Steps Sets d (members.zip items) d' := by
  induction members generalizing isFirst d s with
  | nil =>
      -- no member is left, so only the closing bracket may follow
      have none (items : List Value) :
          items.length ≤ ([] : List Member).length ↔ items = [] := by simp
      simp only [none, List.zip_nil_left]
      rw [readItems, gives_readTrimmed]
      cases start : skipBlanks s with
      | nil =>
          simp only [gives_error, false_iff]
          rintro ⟨_, row, rfl, -⟩
          simp [row_nil_iff.mp row] at start
      | cons b t =>
          dsimp only
          constructor
          · intro found
            split at found
            case isTrue closes =>
              obtain ⟨rfl, rfl⟩ := gives_ok.mp found
              exact ⟨[], row_nil_iff.mpr (closes ▸ start), rfl, rfl⟩
            case isFalse => exact (gives_error.mp found).elim
          · rintro ⟨_, row, rfl, rfl⟩
            obtain ⟨rfl, rfl⟩ := List.cons.inj (start.symm.trans (row_nil_iff.mp row))
            exact gives_ok.mpr ⟨rfl, rfl⟩
  | cons m more ih =>
      -- an item is there or the list ends, whichever member would be next
      rw [readItems]
      dsimp only
      split
      case h_1 fault place => simp [row_of_error place]
      case h_2 u shorter place =>
        simp only [gives_ok, row_of_close place]
        constructor
        · rintro ⟨rfl, rfl⟩
          exact ⟨[], ⟨rfl, rfl⟩, Nat.zero_le _, rfl⟩
        · rintro ⟨_, ⟨rfl, rfl⟩, -, same⟩
          exact ⟨same, rfl⟩
      case h_3 u le place =>
        simp only [row_of_item place]
        split
        case h_1 fault found =>
          simp only [gives_error, false_iff]
          rintro ⟨_, ⟨v, vs, w, rfl, first, -⟩, -, b, sets, -⟩
          have := (interprets_read d m u b w).mpr ⟨v, first, sets⟩
          simp [found] at this
        case h_2 p found =>
          have here : Gives (d.read m u) p.value p.rest := ⟨p, found, rfl, rfl⟩
          rw [gives_widen, ih]
          constructor
          · rintro ⟨items, others, few, steps⟩
            obtain ⟨v, first, sets⟩ := (interprets_read ..).mp here
            exact ⟨v :: items, ⟨v, items, _, rfl, first, others⟩, Nat.succ_le_succ few, _, sets,
              steps⟩
          · rintro ⟨_, ⟨v, vs, w, rfl, first, others⟩, few, b, sets, steps⟩
            obtain ⟨rfl, rfl⟩ := here.unique ((interprets_read ..).mpr ⟨v, first, sets⟩)
            exact ⟨vs, others, Nat.le_of_succ_le_succ few, steps⟩

end Draft

/-! ## Documents of settings -/

/-- The members that a value gives; the items of a list have the members' names, in their order. -/
def givenMembers? : Value → Option (List (String × Value))
  | .record ms => some ms
  | .list items =>
      if items.length ≤ Member.all.length then some ((Member.all.map Member.name).zip items)
      else none
  | _ => none

/-- Items are taken at their places as they are under the names of the members. -/
theorem steps_sets_all_iff {items : List Value} {d : Draft} :
    Steps Draft.Sets {} (Member.all.zip items) d ↔
      Steps Draft.Takes {} ((Member.all.map Member.name).zip items) d := by
  have apart : ((Member.all.zip items).map (·.1)).Nodup := by
    rw [List.zip_eq_zip_take_min, List.map_fst_zip (by simp)]
    exact List.Nodup.sublist (List.take_sublist ..) (by decide)
  rw [Draft.steps_sets_iff apart fun _ _ => Draft.get?_empty, List.zip_map_left]
  rfl

/-- A draft of settings is read where a value gives members that are taken. -/
theorem interprets_readDraft :
    Interprets maxNesting readDraft fun v d =>
      ∃ ms, givenMembers? v = some ms ∧ Steps Draft.Takes {} ms d := by
  refine interprets_readNested ?_ ?_ ?_
  · intro t d rest
    simp only [Draft.gives_readItems, givenMembers?, Option.ite_none_right_eq_some,
      Option.some.injEq, steps_sets_all_iff]
    constructor
    · rintro ⟨items, row, few, steps⟩
      exact ⟨items, row, _, ⟨few, rfl⟩, steps⟩
    · rintro ⟨items, row, _, ⟨few, rfl⟩, steps⟩
      exact ⟨items, row, few, steps⟩
  · intro t d rest
    simp only [gives_foldMembers_readsMember Draft.Takes Draft.gives_readMember, givenMembers?,
      Option.some.injEq, exists_eq_left']
    rfl
  · rintro v d ⟨ms, given, -⟩
    cases v with
    | list items => exact .inl ⟨items, rfl⟩
    | record ms => exact .inr ⟨ms, rfl⟩
    | _ => simp [givenMembers?] at given

/-- Whether members, each of them known and given once at most, give these settings. -/
structure Describes (ms : List (String × Value)) (c : Settings) : Prop where
  known : ∀ p ∈ ms, ∃ m : Member, p.1 = m.name
  each : ∀ m, (valuesOf m.name ms = [] ∧ c.get m = ({} : Settings).get m) ∨
    ∃ v, valuesOf m.name ms = [v] ∧ m.Means v (c.get m)

theorem describes_iff {ms : List (String × Value)} {c : Settings} :
    Describes ms c ↔ ∃ d, Steps Draft.Takes {} ms d ∧ d.settings = c := by
  constructor
  · rintro ⟨known, each⟩
    let given (m : Member) : Option m.Setting :=
      if valuesOf m.name ms = [] then none else some (c.get m)
    let d : Draft := ⟨given .childrenField, given .hash, given .maxDepth, given .splitDepth⟩
    have get?_d (m : Member) : d.get? m = given m := by cases m <;> rfl
    refine ⟨d, Draft.steps_takes_iff.mpr ⟨known, fun m => ?_⟩, ext_get fun m => ?_⟩
    · rw [Draft.get?_empty, Draft.steps_fills_none_iff, get?_d]
      rcases each m with ⟨none, -⟩ | ⟨v, one, means⟩
      · exact .inl ⟨none, if_pos none⟩
      · exact .inr ⟨v, c.get m, one, means, if_neg (by simp [one])⟩
    · rw [Draft.get_settings, get?_d]
      rcases each m with ⟨none, usual⟩ | ⟨v, one, -⟩
      · simp [given, none, usual]
      · simp [given, one]
  · rintro ⟨d, steps, rfl⟩
    obtain ⟨known, filled⟩ := Draft.steps_takes_iff.mp steps
    refine ⟨known, fun m => ?_⟩
    have here := filled m
    rw [Draft.get?_empty, Draft.steps_fills_none_iff] at here
    rw [Draft.get_settings]
    rcases here with ⟨none, missing⟩ | ⟨v, x, one, means, given⟩
    · exact .inl ⟨none, by rw [missing]; rfl⟩
    · exact .inr ⟨v, one, by rw [given]; exact means⟩

theorem readDocument_readDraft_iff {text : Bytes} {d : Draft} :
    readDocument readDraft text = .ok d ↔
      ∃ v ms, readDocument (readValue maxNesting) text = .ok v ∧ givenMembers? v = some ms ∧
        Steps Draft.Takes {} ms d := by
  simp only [readDocument_eq_ok_iff, interprets_readDraft _ _ _]
  constructor
  · rintro ⟨rest, ⟨v, found, ms, given, steps⟩, finish⟩
    exact ⟨v, ms, ⟨rest, found, finish⟩, given, steps⟩
  · rintro ⟨v, ms, ⟨rest, found, finish⟩, given, steps⟩
    exact ⟨rest, ⟨v, found, ms, given, steps⟩, finish⟩

/-- What a document describes is checked only. -/
theorem read_of_describes {text : Bytes} {v : Value} {ms : List (String × Value)} {c : Settings}
    (document : readDocument (readValue maxNesting) text = .ok v)
    (given : givenMembers? v = some ms) (described : Describes ms c) :
    read text = c.validate.map fun _ => c := by
  obtain ⟨d, steps, rfl⟩ := describes_iff.mp described
  rw [read, readDocument_readDraft_iff.mpr ⟨v, ms, document, given, steps⟩]

/-- Settings are read from the documents whose members describe them, if they are valid. -/
theorem read_eq_ok_iff {text : Bytes} {c : Settings} :
    read text = .ok c ↔
      c.validate = .ok () ∧ ∃ v ms, readDocument (readValue maxNesting) text = .ok v ∧
        givenMembers? v = some ms ∧ Describes ms c := by
  constructor
  · intro accepted
    rw [read] at accepted
    cases found : readDocument readDraft text with
    | error fault => simp [found] at accepted
    | ok d =>
        obtain ⟨v, ms, document, given, steps⟩ := readDocument_readDraft_iff.mp found
        rw [found] at accepted
        cases valid : d.settings.validate with
        | error e => simp [valid, Except.map] at accepted
        | ok =>
            simp only [valid, Except.map, Except.ok.injEq] at accepted
            subst accepted
            exact ⟨valid, v, ms, document, given, describes_iff.mpr ⟨d, steps, rfl⟩⟩
  · rintro ⟨valid, v, ms, document, given, described⟩
    rw [read_of_describes document given described, valid]
    rfl

end SubtermIndex.Settings
