/-
# `SubtermIndex.Proofs.Settings.Choice` — which values choose a digest

A choice of digest names its algorithm once.  If that takes a key, it gives the key once, as a
text (`Chooses`); and these are the values that are read as a choice (`interprets_readChoice`).  A
record may have members of other names besides: nothing is asked of them, and they change nothing.
A list must not hold anything else.

A choice is made when its value has been read to the end, from a draft that holds the algorithm
and all other members.  Two steps are therefore proved apart: which draft the members lead to, and
which choice is made of a draft.
-/
import SubtermIndex.Settings.Reading
import SubtermIndex.Proofs.Json.Value

namespace SubtermIndex

open Json

namespace Settings

def valuesOf (name : String) (members : List (String × Value)) : List Value :=
  (members.filter fun m => m.1 = name).map (·.2)

theorem valuesOf_cons (name : String) (m : String × Value) (members : List (String × Value)) :
    valuesOf name (m :: members) =
      if m.1 = name then m.2 :: valuesOf name members else valuesOf name members := by
  rw [valuesOf, List.filter_cons]
  split <;> simp_all [valuesOf]

/-- The digests that a value chooses. -/
inductive Chooses : Value → DigestChoice → Prop
  | plain {members : List (String × Value)} :
      valuesOf algorithmMember members = [.text Algorithm.plain.name] →
      Chooses (.record members) .plain
  | keyed {members : List (String × Value)} {key : String} :
      valuesOf algorithmMember members = [.text Algorithm.keyed.name] →
      valuesOf keyMember members = [.text key] →
      Chooses (.record members) (.keyed key)
  | plainItem {items : List Value} :
      items = [.text Algorithm.plain.name] → Chooses (.list items) .plain
  | keyedItems {items : List Value} {key : String} :
      items = [.text Algorithm.keyed.name, .text key] → Chooses (.list items) (.keyed key)

/-! ## The algorithm and the key -/

section

variable {α β : Type} {s rest : Bytes} {levels : Nat} {f : α → Except Fault β}

theorem gives_interpret {reading : Except Fault (Parsed α s)} {b : β} :
    Gives (reading.bind (interpret f)) b rest ↔ ∃ a, Gives reading a rest ∧ f a = .ok b := by
  cases reading with
  | error fault => simp [Except.bind]
  | ok p =>
      have only : (∃ a, Gives (Except.ok p) a rest ∧ f a = .ok b) ↔
          p.rest = rest ∧ f p.value = .ok b := by
        simp [and_assoc]
      rw [only, Except.bind, interpret]
      cases f p.value <;> simp [Except.map, and_comm]

theorem interprets_interpret {reader : Reader α} {Means : Value → α → Prop}
    (h : Interprets levels reader Means) :
    Interprets levels (fun s => (reader s).bind (interpret f)) fun v b =>
      ∃ a, Means v a ∧ f a = .ok b := by
  intro s b rest
  simp only [gives_interpret, h s]
  constructor
  · rintro ⟨a, ⟨v, found, means⟩, made⟩
    exact ⟨v, found, a, means, made⟩
  · rintro ⟨v, found, a, means, made⟩
    exact ⟨a, ⟨v, found, means⟩, made⟩

end

/-! Names, looked up in the list of all that have one. -/

section

variable {ι : Type} {name : ι → String} {all : List ι}

theorem find?_name_eq_some_iff (finds : ∀ a, (all.find? fun b => name b == name a) = some a)
    {s : String} {a : ι} : (all.find? fun b => name b == s) = some a ↔ s = name a := by
  constructor
  · intro found
    exact (by simpa using List.find?_some found : name a = s).symm
  · rintro rfl
    exact finds a

theorem eq_of_name_eq (finds : ∀ a, (all.find? fun b => name b == name a) = some a) {a b : ι}
    (same : name a = name b) : a = b := by
  have found := (find?_name_eq_some_iff finds).mpr same
  exact Option.some.inj ((finds a).symm.trans found)

end

theorem Algorithm.ofName?_name (a : Algorithm) : ofName? a.name = some a := by
  cases a <;> rfl

theorem Algorithm.ofName?_eq_some_iff {s : String} {a : Algorithm} :
    ofName? s = some a ↔ s = a.name :=
  find?_name_eq_some_iff ofName?_name

theorem Algorithm.name_inj {a b : Algorithm} : a.name = b.name → a = b :=
  eq_of_name_eq ofName?_name

theorem interprets_readAlgorithm (levels : Nat) :
    Interprets levels readAlgorithm fun v a => v = .text a.name := by
  have known : readAlgorithm = fun s => (expectText s).bind (interpret fun text =>
      (Algorithm.ofName? text).elim (.error .mismatch) .ok) := by
    funext s
    rw [readAlgorithm]
    cases expectText s with
    | error fault => rfl
    | ok p =>
        simp only [Except.bind, interpret]
        cases Algorithm.ofName? p.value <;> rfl
  rw [known]
  intro s a rest
  rw [interprets_interpret interprets_expectText s a rest]
  refine exists_congr fun v => and_congr_right fun _ => ?_
  constructor
  · rintro ⟨text, rfl, made⟩
    cases found : Algorithm.ofName? text with
    | none => simp [found] at made
    | some a' =>
        simp only [found, Option.elim_some, Except.ok.injEq] at made
        subst made
        rw [Algorithm.ofName?_eq_some_iff.mp found]
  · rintro rfl
    exact ⟨_, rfl, by rw [Algorithm.ofName?_eq_some_iff.mpr rfl, Option.elim_some]⟩

theorem keyedChoice_eq_ok_iff {values : List Value} {choice : DigestChoice} :
    keyedChoice values = .ok choice ↔ ∃ key, values = [.text key] ∧ .keyed key = choice := by
  rw [keyedChoice.eq_def]
  split
  · simp
  case h_2 other =>
    simp only [reduceCtorEq, false_iff]
    rintro ⟨key, rfl, -⟩
    exact other key rfl

/-! ## Drafts of a choice -/

namespace ChoiceDraft

/-- The algorithm as the values that name it. -/
def naming (a? : Option Algorithm) : List Value := a?.toList.map fun a => .text a.name

theorem naming_inj {a? b? : Option Algorithm} (same : naming a? = naming b?) : a? = b? := by
  cases a? with
  | none => cases b? <;> simp_all [naming]
  | some a =>
      cases b? with
      | none => simp [naming] at same
      | some b =>
          have names : a.name = b.name := by simpa [naming] using same
          rw [Algorithm.name_inj names]

theorem length_naming_le (a? : Option Algorithm) : (naming a?).length ≤ 1 := by
  cases a? with
  | none => exact Nat.zero_le 1
  | some a => exact Nat.le_refl 1

def Takes (d : ChoiceDraft (String × Value)) (m : String × Value)
    (d' : ChoiceDraft (String × Value)) : Prop :=
  if m.1 = algorithmMember then
    d.algorithm? = none ∧ ∃ a : Algorithm, m.2 = .text a.name ∧ { d with algorithm? := some a } = d'
  else { d with others := m :: d.others } = d'

/-- The members together name one algorithm at most, and all others are kept. -/
theorem steps_takes_iff {d d' : ChoiceDraft (String × Value)} {ms : List (String × Value)} :
    Steps Takes d ms d' ↔
      d'.others = (ms.filter fun m => m.1 ≠ algorithmMember).reverse ++ d.others ∧
        naming d'.algorithm? = naming d.algorithm? ++ valuesOf algorithmMember ms := by
  induction ms generalizing d with
  | nil =>
      obtain ⟨a?, others⟩ := d
      obtain ⟨a?', others'⟩ := d'
      simp only [Steps, mk.injEq, List.filter_nil, List.reverse_nil, List.nil_append, valuesOf,
        List.map_nil, List.append_nil]
      constructor
      · rintro ⟨rfl, rfl⟩
        exact ⟨rfl, rfl⟩
      · rintro ⟨rfl, named⟩
        exact ⟨(naming_inj named).symm, rfl⟩
  | cons m rest ih =>
      simp only [Steps, ih, valuesOf_cons, List.filter_cons]
      by_cases here : m.1 = algorithmMember
      · simp only [Takes, here, if_true, ne_eq, not_true, decide_false, Bool.false_eq_true,
          if_false]
        constructor
        · rintro ⟨_, ⟨none, a, named, rfl⟩, others, all⟩
          refine ⟨others, ?_⟩
          rw [all, none, named]
          rfl
        · rintro ⟨others, all⟩
          cases before : d.algorithm? with
          | some a =>
              -- an algorithm that is named twice would be two values for one draft
              have length := congrArg List.length all
              have upper := length_naming_le d'.algorithm?
              simp only [naming, before, Option.toList_some, List.map_cons, List.map_nil,
                List.length_append, List.length_cons, List.length_nil] at length upper
              omega
          | none =>
              cases after : d'.algorithm? with
              | none => simp [naming, before, after] at all
              | some a =>
                  simp only [naming, before, after, Option.toList_none, List.map_nil,
                    List.nil_append, Option.toList_some, List.map_cons] at all
                  obtain ⟨named, none⟩ := List.cons.inj all
                  refine ⟨{ d with algorithm? := some a }, ⟨rfl, a, named.symm, rfl⟩, others, ?_⟩
                  rw [← none]
                  rfl
      · simp [Takes, here]

def TakesItem (d : ChoiceDraft Value) (v : Value) (d' : ChoiceDraft Value) : Prop :=
  match d.algorithm? with
  | none => ∃ a : Algorithm, v = .text a.name ∧ { d with algorithm? := some a } = d'
  | some _ => { d with others := v :: d.others } = d'

theorem steps_takesItem_some {a : Algorithm} {others items : List Value}
    {d' : ChoiceDraft Value} :
    Steps TakesItem ⟨some a, others⟩ items d' ↔ ⟨some a, items.reverse ++ others⟩ = d' := by
  induction items generalizing others with
  | nil => rfl
  | cons v rest ih =>
      show (∃ b, ⟨some a, v :: others⟩ = b ∧ Steps TakesItem b rest d') ↔ _
      rw [exists_eq_left', ih, List.reverse_cons, List.append_assoc]
      rfl

/-- The first item names the algorithm. -/
theorem steps_takesItem_iff {items : List Value} {d' : ChoiceDraft Value} :
    Steps TakesItem {} items d' ↔
      (items = [] ∧ {} = d') ∨
        ∃ (a : Algorithm) (rest : List Value),
          items = .text a.name :: rest ∧ ⟨some a, rest.reverse⟩ = d' := by
  cases items with
  | nil => simp [Steps]
  | cons v rest =>
      have step : Steps TakesItem {} (v :: rest) d' ↔
          ∃ b, (∃ a : Algorithm, v = .text a.name ∧ ⟨some a, []⟩ = b) ∧ Steps TakesItem b rest d' :=
        Iff.rfl
      rw [step]
      constructor
      · rintro ⟨_, ⟨a, named, rfl⟩, steps⟩
        have last := steps_takesItem_some.mp steps
        rw [List.append_nil] at last
        exact .inr ⟨a, rest, by rw [named], last⟩
      · rintro (⟨⟨⟩, -⟩ | ⟨a, _, ⟨⟩, last⟩)
        refine ⟨_, ⟨a, rfl, rfl⟩, steps_takesItem_some.mpr ?_⟩
        rw [List.append_nil]
        exact last

end ChoiceDraft

/-! ## Choices -/

open ChoiceDraft

/-- What a record names as its algorithm is an algorithm, once. -/
theorem naming_eq_some_iff {a? : Option Algorithm} {a : Algorithm} {values : List Value}
    (named : naming a? = values) : a? = some a ↔ values = [.text a.name] := by
  subst named
  constructor
  · rintro rfl
    rfl
  · intro same
    exact naming_inj (same.trans (rfl : _ = naming (some a)))

/-- The choice of the members taken is what their record chooses. -/
theorem choiceOfMembers_eq_ok_iff {d : ChoiceDraft (String × Value)} {ms : List (String × Value)}
    {choice : DigestChoice} (taken : Steps Takes {} ms d) :
    choiceOfMembers d = .ok choice ↔ Chooses (.record ms) choice := by
  obtain ⟨others, named⟩ := steps_takes_iff.mp taken
  -- the draft keeps the members last first, and without those that name the algorithm
  have keys : (d.others.reverse.filter fun m => m.1 = keyMember).map (·.2) =
      valuesOf keyMember ms := by
    rw [others, List.append_nil, List.reverse_reverse, List.filter_filter, valuesOf]
    congr 2
    funext m
    by_cases key : m.1 = keyMember
    · simp [key, keyMember, algorithmMember]
    · simp [key]
  have algorithm (a : Algorithm) :
      d.algorithm? = some a ↔ valuesOf algorithmMember ms = [.text a.name] :=
    naming_eq_some_iff named
  rw [choiceOfMembers.eq_def]
  constructor
  · intro made
    split at made
    case h_1 => simp at made
    case h_2 plain =>
      obtain rfl := Except.ok.inj made
      exact .plain ((algorithm .plain).mp plain)
    case h_3 keyed =>
      rw [keys] at made
      obtain ⟨key, one, rfl⟩ := keyedChoice_eq_ok_iff.mp made
      exact .keyed ((algorithm .keyed).mp keyed) one
  · rintro (plain | ⟨keyed, one⟩)
    · rw [(algorithm .plain).mpr plain]
    · rw [(algorithm .keyed).mpr keyed]
      show keyedChoice _ = _
      rw [keys, one]
      rfl

/-- The choice of the items taken is what their list chooses. -/
theorem choiceOfItems_eq_ok_iff {d : ChoiceDraft Value} {items : List Value}
    {choice : DigestChoice} (taken : Steps TakesItem {} items d) :
    choiceOfItems d = .ok choice ↔ Chooses (.list items) choice := by
  rcases steps_takesItem_iff.mp taken with ⟨rfl, rfl⟩ | ⟨a, rest, rfl, rfl⟩
  · constructor
    · intro made
      simp [choiceOfItems] at made
    · rintro (_ | _ | one | both)
      · simp at one
      · simp at both
  · cases a with
    | plain =>
        have made : choiceOfItems ⟨some .plain, rest.reverse⟩ = .ok choice ↔
            rest = [] ∧ .plain = choice := by
          cases rest <;> simp [choiceOfItems]
        rw [made]
        constructor
        · rintro ⟨rfl, rfl⟩
          exact .plainItem rfl
        · rintro (_ | _ | one | both)
          · exact ⟨(List.cons.inj one).2, rfl⟩
          · simp [Algorithm.name] at both
    | keyed =>
        show keyedChoice rest.reverse.reverse = _ ↔ _
        rw [List.reverse_reverse, keyedChoice_eq_ok_iff]
        constructor
        · rintro ⟨key, rfl, rfl⟩
          exact .keyedItems rfl
        · rintro (_ | _ | one | both)
          · simp [Algorithm.name] at one
          · exact ⟨_, (List.cons.inj both).2, rfl⟩

theorem Chooses.exists_steps_members {ms : List (String × Value)} {choice : DigestChoice}
    (chosen : Chooses (.record ms) choice) : ∃ d, Steps Takes {} ms d := by
  have taken (a : Algorithm) (named : valuesOf algorithmMember ms = [.text a.name]) :
      Steps Takes {} ms ⟨some a, (ms.filter fun m => m.1 ≠ algorithmMember).reverse⟩ :=
    steps_takes_iff.mpr ⟨(List.append_nil _).symm, named.symm⟩
  rcases chosen with plain | ⟨keyed, -⟩
  · exact ⟨_, taken .plain plain⟩
  · exact ⟨_, taken .keyed keyed⟩

theorem Chooses.exists_steps_items {items : List Value} {choice : DigestChoice}
    (chosen : Chooses (.list items) choice) : ∃ d, Steps TakesItem {} items d := by
  rcases chosen with _ | _ | rfl | rfl
  · exact ⟨_, steps_takesItem_iff.mpr (.inr ⟨.plain, _, rfl, rfl⟩)⟩
  · exact ⟨_, steps_takesItem_iff.mpr (.inr ⟨.keyed, _, rfl, rfl⟩)⟩

theorem gives_readChoiceMember (d : ChoiceDraft (String × Value)) (name : String) (s : Bytes)
    (d' : ChoiceDraft (String × Value)) (rest : Bytes) :
    Gives (readChoiceMember d name s) d' rest ↔
      ∃ v, Gives (readAfterColon (readValue memberNesting) s) v rest ∧ Takes d (name, v) d' := by
  rw [readChoiceMember]
  split
  case isTrue named =>
    simp only [Takes, named, if_true]
    cases d.algorithm? with
    | some a => simp
    | none =>
        simp only [Option.isSome_none, Bool.false_eq_true, if_false, gives_map, true_and,
          (interprets_readAlgorithm memberNesting).afterColon]
        constructor
        · rintro ⟨a, ⟨v, found, text⟩, same⟩
          exact ⟨v, found, a, text, same⟩
        · rintro ⟨v, found, a, text, same⟩
          exact ⟨a, ⟨v, found, text⟩, same⟩
  case isFalse other => simp [Takes, other]

theorem gives_readChoiceItem (d : ChoiceDraft Value) (s : Bytes) (d' : ChoiceDraft Value)
    (rest : Bytes) :
    Gives (readChoiceItem d s) d' rest ↔
      ∃ v, ReadsItem memberNesting s v rest ∧ TakesItem d v d' := by
  obtain ⟨a?, others⟩ := d
  cases a? with
  | none => exact ((interprets_readAlgorithm _).map _) s d' rest
  | some a => exact gives_map

/-- A choice is read where the value there makes one. -/
theorem interprets_readChoice : Interprets (memberNesting + 1) readChoice Chooses := by
  refine interprets_readNested ?_ ?_ ?_
  · intro t choice rest
    simp only [gives_interpret, gives_foldItems gives_readChoiceItem]
    constructor
    · rintro ⟨d, ⟨items, row, taken⟩, made⟩
      exact ⟨items, row, (choiceOfItems_eq_ok_iff taken).mp made⟩
    · rintro ⟨items, row, chosen⟩
      obtain ⟨d, taken⟩ := chosen.exists_steps_items
      exact ⟨d, ⟨items, row, taken⟩, (choiceOfItems_eq_ok_iff taken).mpr chosen⟩
  · intro t choice rest
    simp only [gives_interpret, gives_foldMembers_readsMember Takes gives_readChoiceMember]
    constructor
    · rintro ⟨d, ⟨ms, row, taken⟩, made⟩
      exact ⟨ms, row, (choiceOfMembers_eq_ok_iff taken).mp made⟩
    · rintro ⟨ms, row, chosen⟩
      obtain ⟨d, taken⟩ := chosen.exists_steps_members
      exact ⟨d, ⟨ms, row, taken⟩, (choiceOfMembers_eq_ok_iff taken).mpr chosen⟩
  · intro v choice chosen
    cases chosen with
    | plain | keyed => exact .inr ⟨_, rfl⟩
    | plainItem | keyedItems => exact .inl ⟨_, rfl⟩

end Settings

end SubtermIndex
