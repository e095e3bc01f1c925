/-
# `SubtermIndex.Json.Value` — whole values, lists and records

Lists and records are read member by member, and what to do with a member is up to the caller: it
sees the name of a member before the value has been read, and may object there.  Reading a value
of any kind is one such caller, and reading settings is another one.

A value keeps the members of a record in their order, repeated names included.  Whether a name may
be repeated is for the caller to say.

Lists and records may lie inside one another, up to a limit.  What is beyond it is refused as a
malformed text.
-/
import SubtermIndex.Json.Number
import SubtermIndex.Json.Text

namespace SubtermIndex.Json

/-- A value of any kind, with the little that settings ask of its numbers. -/
inductive Value where
  | null
  | bool (b : Bool)
  | number (n : Number)
  | text (s : String)
  | list (items : List Value)
  | record (members : List (String × Value))
  deriving Inhabited

/-- How many lists and records may lie inside one another. -/
def maxNesting : Nat := 127

/-! ## Places in lists and records -/

/-- What stands at the next place: the closing bracket, or an item. -/
inductive Place (s : Bytes) where
  | close (rest : Bytes) (shorter : rest.length < s.length)
  | item (rest : Bytes) (le : rest.length ≤ s.length)

/-- Finds the next place of a list or record whose closing bracket is `bracket`.
All places but the first one follow a comma. -/
def readPlace (bracket : UInt8) (isFirst : Bool) (s : Bytes) : Except Fault (Place s) :=
  match h : skipBlanks s with
  | [] => .error .unexpectedEnd
  | b :: rest =>
      if b = bracket then .ok (.close rest (length_lt_of_skipBlanks h))
      else if isFirst then .ok (.item (b :: rest) (length_le_of_skipBlanks h))
      else if b = byte ',' then
        match h' : skipBlanks rest with
        | [] => .error .unexpectedEnd
        | c :: after =>
            if c = bracket then .error .malformed
            else .ok (.item (c :: after)
              (Nat.le_trans (length_le_of_skipBlanks h')
                (Nat.le_of_lt (length_lt_of_skipBlanks h))))
      else .error .malformed

def readName : Reader String
  | [] => .error .unexpectedEnd
  | b :: rest =>
      if b = byte '"' then (readText rest).map (·.widen length_rest_le) else .error .malformed

def readColon : Reader Unit := fun s =>
  match h : skipBlanks s with
  | [] => .error .unexpectedEnd
  | b :: rest =>
      if b = byte ':' then .ok ⟨(), rest, length_lt_of_skipBlanks h⟩ else .error .malformed

/-- Reads items up to the closing bracket.  Each item is read by `item`, which
is given what the earlier ones have led to. -/
def foldItems {α : Type} (item : α → Reader α) (isFirst : Bool) (a : α) (s : Bytes) :
    Except Fault (Parsed α s) :=
  match readPlace (byte ']') isFirst s with
  | .error fault => .error fault
  | .ok (.close rest h) => .ok ⟨a, rest, h⟩
  | .ok (.item rest le) =>
      match item a rest with
      | .error fault => .error fault
      | .ok p =>
          have := p.shorter
          (foldItems item false p.value p.rest).map (·.widen (by omega))
termination_by s.length

/-- Reads members up to the closing brace.  The caller reads each from behind its name on. -/
def foldMembers {α : Type} (member : α → String → Reader α) (isFirst : Bool) (a : α) (s : Bytes) :
    Except Fault (Parsed α s) :=
  match readPlace (byte '\x7d') isFirst s with
  | .error fault => .error fault
  | .ok (.close rest h) => .ok ⟨a, rest, h⟩
  | .ok (.item rest le) =>
      match readName rest with
      | .error fault => .error fault
      | .ok name =>
          match member a name.value name.rest with
          | .error fault => .error fault
          | .ok p =>
              have := p.shorter
              have := name.shorter
              (foldMembers member false p.value p.rest).map (·.widen (by omega))
termination_by s.length

def readAfterColon {α : Type} (reader : Reader α) : Reader α := fun s =>
  match readColon s with
  | .error fault => .error fault
  | .ok colon => (reader colon.rest).map (·.widen (Nat.le_of_lt colon.shorter))

/-! ## Values -/

/-- Reads a value that is neither a list nor a record. -/
def readScalar : Reader Value
  | [] => .error .unexpectedEnd
  | b :: rest =>
      if b = byte 'n' then
        (readLetters 'u' ['l', 'l'] rest).map fun p => (p.map fun _ => .null).widen length_rest_le
      else if b = byte 't' then
        (readLetters 'r' ['u', 'e'] rest).map fun p =>
          (p.map fun _ => .bool true).widen length_rest_le
      else if b = byte 'f' then
        (readLetters 'a' ['l', 's', 'e'] rest).map fun p =>
          (p.map fun _ => .bool false).widen length_rest_le
      else if b = byte '"' then
        (readText rest).map fun p => (p.map Value.text).widen length_rest_le
      else if b = byte '-' || isDigit b then
        (readNumber (b :: rest)).map fun p => p.map Value.number
      else .error .malformed

def readTrimmed {α : Type} (reader : Reader α) : Reader α := fun s =>
  (reader (skipBlanks s)).map (·.widen (length_skipBlanks_le s))

/-- Reads a list or a record whose opening bracket is the first byte, or else
leaves the text to `otherwise`. -/
def readNested {α : Type} (list record otherwise : Reader α) : Reader α
  | [] => otherwise []
  | b :: rest =>
      if b = byte '[' then (list rest).map (·.widen length_rest_le)
      else if b = byte '\x7b' then (record rest).map (·.widen length_rest_le)
      else otherwise (b :: rest)

/-- Reads a value of any kind, with at most `levels` lists and records inside one another. -/
def readValue : (levels : Nat) → Reader Value
  | 0 =>
      readTrimmed (readNested (fun _ => .error .malformed) (fun _ => .error .malformed) readScalar)
  | levels + 1 =>
      readTrimmed (readNested
        (fun s =>
          (foldItems (fun items s => (readValue levels s).map (·.map (· :: items))) true [] s).map
            (·.map fun items => .list items.reverse))
        (fun s =>
          (foldMembers
            (fun members name s =>
              (readAfterColon (readValue levels) s).map (·.map fun v => (name, v) :: members))
            true [] s).map
            (·.map fun members => .record members.reverse))
        readScalar)

/-! ## Values of one kind -/

/-- Reads a value that was not asked for: it is read only if it is a scalar, and
then it is no match. -/
def rejectValue {α : Type} : Reader α := fun s =>
  readNested (fun _ => .error .mismatch) (fun _ => .error .mismatch)
    (fun s =>
      match readScalar s with
      | .error fault => .error fault
      | .ok _ => .error .mismatch)
    s

def expectText : Reader String := readTrimmed fun s =>
  match s with
  | b :: rest =>
      if b = byte '"' then (readText rest).map (·.widen length_rest_le)
      else rejectValue (b :: rest)
  | [] => .error .unexpectedEnd

def expectNatural : Reader UInt64 := readTrimmed fun s =>
  match s with
  | b :: rest =>
      if b = byte '-' || isDigit b then
        match readNumber (b :: rest) with
        | .error fault => .error fault
        | .ok p =>
            match p.value with
            | .natural n => .ok (p.map fun _ => n)
            | .other => .error .mismatch
      else rejectValue (b :: rest)
  | [] => .error .unexpectedEnd

/-- A text that holds one value and nothing behind it but blanks. -/
def readDocument {α : Type} (reader : Reader α) (s : Bytes) : Except Fault α :=
  match reader s with
  | .error fault => .error fault
  | .ok p => if (skipBlanks p.rest).isEmpty then .ok p.value else .error .malformed

end SubtermIndex.Json
