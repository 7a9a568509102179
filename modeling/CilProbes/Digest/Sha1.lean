import CilProbes.Bytes.LittleEndian

/-! # SHA-1

The digest from which the token of a public key is cut. A message is padded to whole blocks of 64
bytes, and each block is stirred into a state of five words by eighty rounds.

* `pad`: the message, a one bit, zeros and the length in bits.
* `compress`: stirs one block into the state.
* `Sha1.digest`: twenty bytes.
-/

namespace CilProbes.Sha1

/-- The size of a block in bytes. -/
def blockSize : Nat := 64

/-- The five words of the state. -/
structure State where
  a : UInt32
  b : UInt32
  c : UInt32
  d : UInt32
  e : UInt32
deriving DecidableEq, Repr

/-- The state before the first block. -/
def State.initial : State := ⟨0x67452301, 0xEFCDAB89, 0x98BADCFE, 0x10325476, 0xC3D2E1F0⟩

/-- Addition word by word. -/
def State.add (s t : State) : State := ⟨s.a + t.a, s.b + t.b, s.c + t.c, s.d + t.d, s.e + t.e⟩

/-- Rotates a word to the left by less than its width. -/
def rotate (x count : UInt32) : UInt32 := (x <<< count) ||| (x >>> (32 - count))

/-- Bytes of a number, most significant first. -/
def bigEndian (width n : Nat) : Bytes := (LittleEndian.encode width n).reverse

/-- The word made of four bytes, most significant first. -/
def word (bs : Bytes) : UInt32 := UInt32.ofNat (LittleEndian.decode bs.reverse)

/-- **The padded message.** The length in bits goes into the last eight bytes. -/
def pad (message : Bytes) : Bytes :=
  let zeros := (2 * blockSize - 9 - message.length % blockSize) % blockSize
  message ++ [0x80] ++ List.replicate zeros 0 ++ bigEndian 8 (8 * message.length)

/-- The first `count` pieces of `width` bytes. -/
def pieces (width : Nat) : (count : Nat) → Bytes → List Bytes
  | 0, _ => []
  | count + 1, bs => bs.take width :: pieces width count (bs.drop width)

/-- The word at a place of the schedule, counted from its end. -/
def back (schedule : Array UInt32) (k : Nat) : UInt32 :=
  (schedule[schedule.size - k]?).getD 0

/-- Extends the schedule by one word made of four earlier ones. -/
def extend (schedule : Array UInt32) : Array UInt32 :=
  schedule.push
    (rotate (back schedule 3 ^^^ back schedule 8 ^^^ back schedule 14 ^^^ back schedule 16) 1)

/-- The eighty words of a block. -/
def schedule (block : Bytes) : Array UInt32 :=
  (List.range 64).foldl (fun w _ => extend w) ((pieces 4 16 block).map word).toArray

/-- The mixture of three state words in a round, and the constant of the round. -/
def mixture (round : Nat) (s : State) : UInt32 × UInt32 :=
  if round < 20 then ((s.b &&& s.c) ||| (~~~s.b &&& s.d), 0x5A827999)
  else if round < 40 then (s.b ^^^ s.c ^^^ s.d, 0x6ED9EBA1)
  else if round < 60 then ((s.b &&& s.c) ||| (s.b &&& s.d) ||| (s.c &&& s.d), 0x8F1BBCDC)
  else (s.b ^^^ s.c ^^^ s.d, 0xCA62C1D6)

/-- One round. -/
def round (s : State) (w : UInt32) (number : Nat) : State :=
  let (f, k) := mixture number s
  ⟨rotate s.a 5 + f + s.e + k + w, s.a, rotate s.b 30, s.c, s.d⟩

/-- **Stirs a block into the state.** -/
def compress (s : State) (block : Bytes) : State :=
  s.add ((schedule block).toList.zipIdx.foldl (fun s (w, number) => round s w number) s)

/-- **The digest of a message.** -/
def digest (message : Bytes) : Bytes :=
  let padded := pad message
  let s := (pieces blockSize (padded.length / blockSize) padded).foldl compress .initial
  [s.a, s.b, s.c, s.d, s.e].flatMap fun w => bigEndian 4 w.toNat

end CilProbes.Sha1
