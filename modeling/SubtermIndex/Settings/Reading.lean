/-
# `SubtermIndex.Settings.Reading` — settings from JSON

Settings are a record of four members, each of them optional, or a list of their values in the
order of `Member`.  The choice of a digest is a record (or, again, a list) that names an
algorithm.  It is read to its end before the choice is made, so that a key may stand before the
name of the algorithm.

Records of settings and of choices are treated differently.  A member of settings must be known,
and given once.  Of a choice only the algorithm and the key that it takes are looked at, and a
member of another name, or the key of an algorithm that takes none, is passed over.  In a list
there is no room for anything else.
-/
import SubtermIndex.Settings.Basic
import SubtermIndex.Json.Value

namespace SubtermIndex.Settings

open Json

/-! ## The digest -/

/-- The algorithms that a digest can be chosen from. -/
inductive Algorithm where
  | plain
  | keyed
  deriving DecidableEq, Repr

namespace Algorithm

def name : Algorithm → String
  | plain => "blake3"
  | keyed => "blake3-keyed"

def ofName? (s : String) : Option Algorithm := [plain, keyed].find? fun a => a.name == s

end Algorithm

def algorithmMember : String := "algorithm"

def keyMember : String := "key"

def readAlgorithm : Reader Algorithm := fun s =>
  match expectText s with
  | .error fault => .error fault
  | .ok p =>
      match Algorithm.ofName? p.value with
      | some algorithm => .ok (p.map fun _ => algorithm)
      | none => .error .mismatch

/-- A choice of digest while it is read: its algorithm, and whatever else it
holds, last first. -/
structure ChoiceDraft (α : Type) where
  algorithm? : Option Algorithm := none
  others : List α := []

/-- How many lists and records may lie inside one another in a member of a choice. -/
def memberNesting : Nat := maxNesting - 2

def readChoiceMember (d : ChoiceDraft (String × Value)) (name : String) :
    Reader (ChoiceDraft (String × Value)) := fun s =>
  if name = algorithmMember then
    if d.algorithm?.isSome then .error .mismatch
    else (readAfterColon readAlgorithm s).map (·.map fun a => { d with algorithm? := some a })
  else
    (readAfterColon (readValue memberNesting) s).map
      (·.map fun v => { d with others := (name, v) :: d.others })

def readChoiceItem (d : ChoiceDraft Value) : Reader (ChoiceDraft Value) := fun s =>
  match d.algorithm? with
  | none => (readAlgorithm s).map (·.map fun a => { d with algorithm? := some a })
  | some _ =>
      (readValue memberNesting s).map (·.map fun v => { d with others := v :: d.others })

/-- The choice of a list of values for the key, of which there must be exactly one, a text. -/
def keyedChoice : List Value → Except Fault DigestChoice
  | [.text key] => .ok (.keyed key)
  | _ => .error .mismatch

/-- A record is looked through for the key only if the algorithm takes one;
members of any other name do not matter. -/
def choiceOfMembers (d : ChoiceDraft (String × Value)) : Except Fault DigestChoice :=
  match d.algorithm? with
  | none => .error .mismatch
  | some .plain => .ok .plain
  | some .keyed =>
      keyedChoice ((d.others.reverse.filter fun member => member.1 = keyMember).map (·.2))

/-- A list holds nothing but the algorithm and the key that it takes. -/
def choiceOfItems (d : ChoiceDraft Value) : Except Fault DigestChoice :=
  match d.algorithm? with
  | none => .error .mismatch
  | some .plain => if d.others.isEmpty then .ok .plain else .error .mismatch
  | some .keyed => keyedChoice d.others.reverse

def interpret {α β : Type} {s : Bytes} (f : α → Except Fault β) (p : Parsed α s) :
    Except Fault (Parsed β s) :=
  (f p.value).map fun b => p.map fun _ => b

def readChoice : Reader DigestChoice :=
  readTrimmed (readNested
    (fun s => (foldItems readChoiceItem true {} s).bind (interpret choiceOfItems))
    (fun s => (foldMembers readChoiceMember true {} s).bind (interpret choiceOfMembers))
    rejectValue)

/-! ## The settings -/

/-- The members of settings. -/
inductive Member where
  | childrenField
  | hash
  | maxDepth
  | splitDepth
  deriving DecidableEq, Repr

namespace Member

def all : List Member := [childrenField, hash, maxDepth, splitDepth]

def name : Member → String
  | childrenField => "children_field"
  | hash => "hash"
  | maxDepth => "max_depth"
  | splitDepth => "parallel_depth"

def ofName? (s : String) : Option Member := all.find? fun m => m.name == s

end Member

/-- Settings while they are read. -/
structure Draft where
  childrenField? : Option String := none
  digest? : Option DigestChoice := none
  maxDepth? : Option UInt64 := none
  splitDepth? : Option UInt64 := none

namespace Draft

def has (d : Draft) : Member → Bool
  | .childrenField => d.childrenField?.isSome
  | .hash => d.digest?.isSome
  | .maxDepth => d.maxDepth?.isSome
  | .splitDepth => d.splitDepth?.isSome

def read (d : Draft) : Member → Reader Draft
  | .childrenField => fun s =>
      (expectText s).map (·.map fun v => { d with childrenField? := some v })
  | .hash => fun s => (readChoice s).map (·.map fun v => { d with digest? := some v })
  | .maxDepth => fun s => (expectNatural s).map (·.map fun v => { d with maxDepth? := some v })
  | .splitDepth => fun s =>
      (expectNatural s).map (·.map fun v => { d with splitDepth? := some v })

/-- The settings, with the usual values for what has not been given. -/
def settings (d : Draft) : Settings :=
  let usual : Settings := {}
  { childrenField := d.childrenField?.getD usual.childrenField
    digest := d.digest?.getD usual.digest
    maxDepth := d.maxDepth?.getD usual.maxDepth
    splitDepth := d.splitDepth?.getD usual.splitDepth }

end Draft

/-- A member must be known, and given once. -/
def readMember (d : Draft) (name : String) : Reader Draft := fun s =>
  match Member.ofName? name with
  | none => .error .mismatch
  | some m => if d.has m then .error .mismatch else readAfterColon (d.read m) s

/-- Reads the values of the given members, as many as there are, to the end of the list. -/
def readItems : List Member → (isFirst : Bool) → Draft → Reader Draft
  | [], _, d => readTrimmed fun s =>
      match s with
      | [] => .error .unexpectedEnd
      | b :: rest => if b = byte ']' then .ok ⟨d, rest, length_rest_lt⟩ else .error .malformed
  | m :: more, isFirst, d => fun s =>
      match readPlace (byte ']') isFirst s with
      | .error fault => .error fault
      | .ok (.close rest h) => .ok ⟨d, rest, h⟩
      | .ok (.item rest le) =>
          match d.read m rest with
          | .error fault => .error fault
          | .ok p =>
              have := p.shorter
              (readItems more false p.value p.rest).map (·.widen (by omega))

def readDraft : Reader Draft :=
  readTrimmed (readNested
    (readItems Member.all true {}) (foldMembers readMember true {}) rejectValue)

/-- Reads settings, and checks them. -/
def read (text : Bytes) : Except SettingsError Settings :=
  match readDocument readDraft text with
  | .error fault => .error (.malformed fault)
  | .ok d => d.settings.validate.map fun _ => d.settings

end SubtermIndex.Settings
