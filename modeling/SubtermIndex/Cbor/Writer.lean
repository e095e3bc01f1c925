/-
# `SubtermIndex.Cbor.Writer` — the encoder that writes into one growing output

Here nothing is put together afterwards: every part of a value is written behind what has been
written before.  Only the keys of a record are written elsewhere first, because they decide the
order of its entries.  The entries are sorted by them, and as equal keys then stand next to each
other, looking at neighbours is enough to find them.

A writer takes the output so far and gives the longer one, or a fault.  The bytes are those of
`encode`, and so are the faults.
-/
import SubtermIndex.Cbor.Narrowing

namespace SubtermIndex.Cbor

def hasEqualNeighbours {α : Type} : List (Bytes × α) → Bool
  | a :: b :: rest => a.1 == b.1 || hasEqualNeighbours (b :: rest)
  | _ => false

/-- Entries in ascending order of their encoded keys, with equal keys refused. -/
def sortEntries {α : Type} (entries : List (Bytes × α)) :
    Except EncodeError (List (Bytes × α)) :=
  let sorted := entries.mergeSort fun a b => (compare a.1 b.1).isLE
  if hasEqualNeighbours sorted then .error .duplicateKey else .ok sorted

abbrev Writer := Bytes → Except EncodeError Bytes

/-- Sorted entries, each key in front of its value. -/
def writeSorted : List (Bytes × Writer) → Writer
  | [], out => .ok out
  | (key, value) :: rest, out => do
      let out ← value (out ++ key)
      writeSorted rest out

variable (c : Conversions)

mutual
def write : Value → Writer
  | .null => fun out => .ok (out ++ [0xf6])
  | .bool b => fun out => .ok (out ++ [if b then 0xf5 else 0xf4])
  | .int n => fun out => .ok (out ++ encodeInteger n)
  | .float bits => fun out => .ok (out ++ c.encodeFloat bits)
  | .text s => fun out => .ok (out ++ head .text s.utf8ByteSize ++ Bytes.ofText s)
  | .bytes bs => fun out => .ok (out ++ head .bytes bs.length ++ bs)
  | .list items => fun out => writeItems items (out ++ head .list items.length)
  | .record entries => fun out => do
      let keyed ← writeKeys entries
      let sorted ← sortEntries keyed
      writeSorted sorted (out ++ head .record sorted.length)
  | .tag _ _ => fun _ => .error .tag
termination_by structural v => v

def writeItems : List Value → Writer
  | [] => fun out => .ok out
  | v :: rest => fun out => do
      let out ← write v out
      writeItems rest out
termination_by structural vs => vs

/-- Keys, each in an output of its own and in front of what is to be written behind it. -/
def writeKeys : Entries → Except EncodeError (List (Bytes × Writer))
  | [] => .ok []
  | (k, v) :: rest => do
      let key ← write k []
      let others ← writeKeys rest
      return (key, write v) :: others
termination_by structural es => es
end

end SubtermIndex.Cbor
