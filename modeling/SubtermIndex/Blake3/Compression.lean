/-
# `SubtermIndex.Blake3.Compression` — the compression function

Sixteen words of 32 bits are mixed in seven rounds of eight quarter-rounds each, columns first and
then diagonals, and between two rounds the words of the message change places.  At last the
upper half of the state is fed into the lower one, which is kept as the chaining value.

Chaining values and blocks are vectors, so that every index below is checked when it is written
down and none of the rounds can reach outside of the state.
-/
import SubtermIndex.Bytes

namespace SubtermIndex.Blake3

abbrev ChainingValue := Vector UInt32 8

/-- Sixteen words: a message block or the state that the rounds mix. -/
abbrev Block := Vector UInt32 16

/-- The key of the unkeyed mode. -/
def initialValue : ChainingValue :=
  #v[0x6A09E667, 0xBB67AE85, 0x3C6EF372, 0xA54FF53A,
     0x510E527F, 0x9B05688C, 0x1F83D9AB, 0x5BE0CD19]

def rotateRight (w n : UInt32) : UInt32 :=
  (w >>> n) ||| (w <<< (32 - n))

/-- One quarter-round: the words at `a`, `b`, `c`, `d` take in the message words `x` and `y`. -/
def quarterRound (s : Block) (a b c d : Fin 16) (x y : UInt32) : Block :=
  let wa := s[a] + s[b] + x
  let wd := rotateRight (s[d] ^^^ wa) 16
  let wc := s[c] + wd
  let wb := rotateRight (s[b] ^^^ wc) 12
  let wa := wa + wb + y
  let wd := rotateRight (wd ^^^ wa) 8
  let wc := wc + wd
  let wb := rotateRight (wb ^^^ wc) 7
  (((s.set a wa).set b wb).set c wc).set d wd

def round (s m : Block) : Block :=
  let s := quarterRound s 0 4 8 12 m[0] m[1]
  let s := quarterRound s 1 5 9 13 m[2] m[3]
  let s := quarterRound s 2 6 10 14 m[4] m[5]
  let s := quarterRound s 3 7 11 15 m[6] m[7]
  let s := quarterRound s 0 5 10 15 m[8] m[9]
  let s := quarterRound s 1 6 11 12 m[10] m[11]
  let s := quarterRound s 2 7 8 13 m[12] m[13]
  quarterRound s 3 4 9 14 m[14] m[15]

/-- The order in which a round reads the message words of the round before it. -/
def permute (m : Block) : Block :=
  #v[m[2], m[6], m[3], m[10], m[7], m[0], m[4], m[13],
     m[1], m[11], m[12], m[5], m[9], m[14], m[15], m[8]]

/-- The given count of rounds, permuting the message between them. -/
def rounds : Nat → Block → Block → Block
  | 0, s, _ => s
  | n + 1, s, m => rounds n (round s m) (permute m)

/-- What one compression works on. -/
structure Input where
  chaining : ChainingValue
  block : Block
  counter : UInt64
  blockLength : UInt32
  flags : UInt32

def Input.compress (i : Input) : ChainingValue :=
  let h := i.chaining
  let v := initialValue
  let start : Block :=
    #v[h[0], h[1], h[2], h[3], h[4], h[5], h[6], h[7], v[0], v[1], v[2], v[3],
       i.counter.toUInt32, (i.counter >>> 32).toUInt32, i.blockLength, i.flags]
  let s := rounds 7 start i.block
  #v[s[0] ^^^ s[8], s[1] ^^^ s[9], s[2] ^^^ s[10], s[3] ^^^ s[11],
     s[4] ^^^ s[12], s[5] ^^^ s[13], s[6] ^^^ s[14], s[7] ^^^ s[15]]

end SubtermIndex.Blake3
