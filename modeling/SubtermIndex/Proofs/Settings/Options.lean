/-
# `SubtermIndex.Proofs.Settings.Options` — which options count

Every member of a record of settings counts: it is known, given once, and means what is then set.
The record that chooses the digest is not looked through as strictly.  It names the algorithm, and
holds the key if the algorithm takes one; whatever else it holds has no effect
(`options_of_read`).  So a key beside the algorithm that takes none is passed over
(`unkeyed_of_key`).

That something has no effect is said by changing it: another record with the same options, in the
place of the first one, leads to the same settings.  Which options there are depends on the
algorithm that is named.
-/
import SubtermIndex.Proofs.Settings.Accepted
import Mathlib.Control.Monad.Basic

namespace SubtermIndex

open Json

def DigestChoice.algorithm : DigestChoice → Settings.Algorithm
  | plain => .plain
  | keyed _ => .keyed

/-- The names of the options that a choice of digest has. -/
def DigestChoice.options : DigestChoice → List String
  | plain => [Settings.algorithmMember]
  | keyed _ => [Settings.algorithmMember, Settings.keyMember]

namespace Settings

variable {ms : List (String × Value)} {name : String} {v : Value}

theorem valuesOf_append (before after : List (String × Value)) :
    valuesOf name (before ++ after) = valuesOf name before ++ valuesOf name after := by
  simp [valuesOf]

theorem mem_valuesOf_iff : v ∈ valuesOf name ms ↔ (name, v) ∈ ms := by
  simp only [valuesOf, List.mem_map, List.mem_filter, decide_eq_true_eq]
  constructor
  · rintro ⟨⟨_, _⟩, ⟨inside, rfl⟩, rfl⟩
    exact inside
  · exact fun inside => ⟨_, ⟨inside, rfl⟩, rfl⟩

theorem length_valuesOf : (valuesOf name ms).length = (ms.map (·.1)).count name := by
  rw [valuesOf, List.length_map, List.count, List.countP_map, List.countP_eq_length_filter]
  rfl

theorem valuesOf_filter {names : List String} (named : name ∈ names) :
    valuesOf name (ms.filter fun m => m.1 ∈ names) = valuesOf name ms := by
  rw [valuesOf, List.filter_filter, valuesOf]
  congr 2
  funext m
  by_cases here : m.1 = name
  · simp [here, named]
  · simp [here]

/-- A record chooses the digest whose algorithm it names, with the key that it holds. -/
theorem chooses_record_iff {choice : DigestChoice} :
    Chooses (.record ms) choice ↔ valuesOf algorithmMember ms = [.text choice.algorithm.name] ∧
      ∀ key, choice = .keyed key → valuesOf keyMember ms = [.text key] := by
  constructor
  · rintro (plain | ⟨keyed, one⟩)
    · exact ⟨plain, nofun⟩
    · exact ⟨keyed, fun _ same => by rw [one, DigestChoice.keyed.inj same]⟩
  · rintro ⟨named, key⟩
    cases choice with
    | plain => exact .plain named
    | keyed text => exact .keyed named (key text rfl)

/-- Records that have the same options choose the same digest. -/
theorem Chooses.of_options {ms' : List (String × Value)} {choice : DigestChoice}
    (chosen : Chooses (.record ms) choice)
    (same : (ms'.filter fun m => m.1 ∈ choice.options) = ms.filter fun m => m.1 ∈ choice.options) :
    Chooses (.record ms') choice := by
  have values (name : String) (option : name ∈ choice.options) :
      valuesOf name ms' = valuesOf name ms := by
    rw [← valuesOf_filter option, same, valuesOf_filter option]
  obtain ⟨named, keyed⟩ := chooses_record_iff.mp chosen
  refine chooses_record_iff.mpr ⟨?_, ?_⟩
  · rw [values _ (by cases choice <;> simp [DigestChoice.options]), named]
  · rintro key rfl
    rw [values _ (by simp [DigestChoice.options]), keyed key rfl]

namespace Describes

variable {c : Settings}

theorem means (described : Describes ms c) {m : Member} (inside : (m.name, v) ∈ ms) :
    valuesOf m.name ms = [v] ∧ m.Means v (c.get m) := by
  have value := mem_valuesOf_iff.mpr inside
  rcases described.each m with ⟨none, -⟩ | ⟨w, one, means⟩
  · simp [none] at value
  · obtain rfl : v = w := by simpa [one] using value
    exact ⟨one, means⟩

theorem nodup (described : Describes ms c) : (ms.map (·.1)).Nodup := by
  refine List.nodup_iff_count.mpr fun name => ?_
  rw [← length_valuesOf]
  by_cases known : ∃ m : Member, name = m.name
  · obtain ⟨m, rfl⟩ := known
    rcases described.each m with ⟨none, -⟩ | ⟨v, one, -⟩
    · simp [none]
    · simp [one]
  · have none : valuesOf name ms = [] := by
      refine List.eq_nil_iff_forall_not_mem.mpr fun v value => known ?_
      exact described.known _ (mem_valuesOf_iff.mp value)
    simp [none]

theorem replace {before after : List (String × Value)} {m : Member} {w : Value}
    (described : Describes (before ++ (m.name, v) :: after) c) (means : m.Means w (c.get m)) :
    Describes (before ++ (m.name, w) :: after) c := by
  have apart : valuesOf m.name before = [] ∧ valuesOf m.name after = [] := by
    have one := (described.means (m := m) (v := v) (by simp)).1
    have length := congrArg List.length one
    rw [valuesOf_append, valuesOf_cons, if_pos rfl] at length
    simp only [List.length_append, List.length_cons, List.length_nil] at length
    exact ⟨List.eq_nil_of_length_eq_zero (by omega), List.eq_nil_of_length_eq_zero (by omega)⟩
  refine ⟨fun p inside => ?_, fun n => ?_⟩
  · simp only [List.mem_append, List.mem_cons] at inside
    rcases inside with inside | rfl | inside
    · exact described.known p (by simp [inside])
    · exact ⟨m, rfl⟩
    · exact described.known p (by simp [inside])
  · by_cases here : n = m
    · subst here
      refine .inr ⟨w, ?_, means⟩
      rw [valuesOf_append, valuesOf_cons, if_pos rfl, apart.1, apart.2]
      rfl
    · have other := described.each n
      have unlike : m.name ≠ n.name := fun same => here (Member.name_inj same).symm
      rw [valuesOf_append, valuesOf_cons, if_neg unlike] at other ⊢
      exact other

end Describes

/-- Of a record that is read as settings, each member is known and given once, and means what is
set.  Of the record that chooses the digest, the algorithm and the key that it takes are given
once and are those of the digest; whatever else it holds may be changed. -/
theorem options_of_read {text : Bytes} {c : Settings} (accepted : read text = .ok c) :
    ∃ v, readDocument (readValue maxNesting) text = .ok v ∧ ∀ ms, v = .record ms →
      (∀ p ∈ ms, ∃ m : Member, p.1 = m.name ∧ m.Means p.2 (c.get m)) ∧
      (ms.map (·.1)).Nodup ∧
      ∀ before options after, ms = before ++ (Member.hash.name, .record options) :: after →
        valuesOf algorithmMember options = [.text c.digest.algorithm.name] ∧
        (∀ key, c.digest = .keyed key → valuesOf keyMember options = [.text key]) ∧
        ∀ text' options', readDocument (readValue maxNesting) text' =
            .ok (.record (before ++ (Member.hash.name, .record options') :: after)) →
          (options'.filter fun m => m.1 ∈ c.digest.options) =
            (options.filter fun m => m.1 ∈ c.digest.options) →
          read text' = .ok c := by
  obtain ⟨valid, v, members, document, given, described⟩ := read_eq_ok_iff.mp accepted
  refine ⟨v, document, ?_⟩
  rintro ms rfl
  obtain rfl := Option.some.inj given
  refine ⟨fun p inside => ?_, described.nodup, ?_⟩
  · obtain ⟨m, named⟩ := described.known p inside
    exact ⟨m, named, (described.means (named ▸ inside)).2⟩
  · rintro before options after rfl
    have chosen : Chooses (.record options) c.digest :=
      (described.means (m := .hash) (by simp)).2
    obtain ⟨named, keyed⟩ := chooses_record_iff.mp chosen
    refine ⟨named, keyed, fun text' options' document' same => ?_⟩
    have described' := described.replace (m := .hash) (w := .record options')
      (chosen.of_options same)
    exact read_eq_ok_iff.mpr ⟨valid, _, _, document', rfl, described'⟩

/-! ## Documents with a key -/

def sampleKey : String := String.ofList (List.replicate 64 '7')

/-- Settings with a key.  The record that chooses the digest may hold something else in front of
the algorithm. -/
def keyedText (more : String) : Bytes :=
  Bytes.ofText ("\x7b\"hash\": \x7b\"key\": \"" ++ sampleKey ++ "\", " ++ more ++
    "\"algorithm\": \"blake3-keyed\"\x7d, \"max_depth\": 9\x7d")

def keyedOptions (more : List (String × Value)) : List (String × Value) :=
  (keyMember, .text sampleKey) :: more ++ [(algorithmMember, .text Algorithm.keyed.name)]

def keyedMembers (more : List (String × Value)) : List (String × Value) :=
  [(Member.hash.name, .record (keyedOptions more)), (Member.maxDepth.name, .number (.natural 9))]

set_option maxRecDepth 4000 in
theorem readDocument_keyedText :
    readDocument (readValue maxNesting) (keyedText "\"salt\": [null], ") =
        .ok (.record (keyedMembers [("salt", .list [.null])])) ∧
      readDocument (readValue maxNesting) (keyedText "") = .ok (.record (keyedMembers [])) := by
  constructor <;> with_unfolding_all rfl

/-- The salt is passed over: without it, the settings that are read are the same. -/
theorem options_of_read_keyedText :
    let c : Settings := { digest := .keyed sampleKey, maxDepth := 9 }
    let options := keyedOptions [("salt", .list [.null])]
    read (keyedText "\"salt\": [null], ") = .ok c ∧
      (∀ p ∈ keyedMembers [("salt", .list [.null])],
        ∃ m : Member, p.1 = m.name ∧ m.Means p.2 (c.get m)) ∧
      valuesOf algorithmMember options = [.text Algorithm.keyed.name] ∧
      valuesOf keyMember options = [.text sampleKey] ∧ "salt" ∉ c.digest.options ∧
      read (keyedText "") = .ok c := by
  intro c options
  have accepted : read (keyedText "\"salt\": [null], ") = .ok c := by decide +kernel
  obtain ⟨salted, unsalted⟩ := readDocument_keyedText
  obtain ⟨v, document, counts⟩ := options_of_read accepted
  obtain rfl := Except.ok.inj (document.symm.trans salted)
  obtain ⟨each, -, chosen⟩ := counts _ rfl
  obtain ⟨named, keyed, others⟩ := chosen [] options _ rfl
  have unlisted : "salt" ∉ c.digest.options := by decide
  have same : ((keyedOptions []).filter fun m => m.1 ∈ c.digest.options) =
      options.filter fun m => m.1 ∈ c.digest.options := by
    simp [options, keyedOptions, List.filter_cons, unlisted]
  exact ⟨accepted, each, named, keyed sampleKey rfl, unlisted,
    others _ (keyedOptions []) unsalted same⟩

/-- A document with a key for the algorithm that takes none. -/
def strayKey : Bytes :=
  Bytes.ofText ("\x7b\"hash\":\x7b\"algorithm\":\"blake3\",\"key\":\"" ++ sampleKey ++
    "\"\x7d\x7d")

/-- Not every option that is given has an effect: a key is passed over where the algorithm that is
named takes none. -/
theorem unkeyed_of_key :
    read strayKey = .ok {} ∧
      readDocument (readValue maxNesting) strayKey = .ok (.record [(Member.hash.name, .record
        [(algorithmMember, .text Algorithm.plain.name), (keyMember, .text sampleKey)])]) ∧
      keyMember ∉ ({} : Settings).digest.options := by
  refine ⟨by decide +kernel, ?_, by decide⟩
  with_unfolding_all rfl

end Settings

end SubtermIndex
