namespace JavaAbi.Fingerprint

/-!
# Fingerprints

A stub records the 128-bit XXH3 hash (seed 0) of the text that it was extracted from, so that an
unchanged text can be told without parsing it. The algorithm has one rule for each range of input
lengths; all of them read little-endian words and multiply 64-bit words into 128 bits.

* `hash` — the two 64-bit halves of the hash of a byte string;
* `hex` — the hash as 32 hexadecimal digits, the lowest byte first.
-/

/-! ### Constants -/

/-- The key stream of the algorithm. -/
def secret : ByteArray := ⟨#[
  0xb8, 0xfe, 0x6c, 0x39, 0x23, 0xa4, 0x4b, 0xbe, 0x7c, 0x01, 0x81, 0x2c, 0xf7, 0x21, 0xad, 0x1c,
  0xde, 0xd4, 0x6d, 0xe9, 0x83, 0x90, 0x97, 0xdb, 0x72, 0x40, 0xa4, 0xa4, 0xb7, 0xb3, 0x67, 0x1f,
  0xcb, 0x79, 0xe6, 0x4e, 0xcc, 0xc0, 0xe5, 0x78, 0x82, 0x5a, 0xd0, 0x7d, 0xcc, 0xff, 0x72, 0x21,
  0xb8, 0x08, 0x46, 0x74, 0xf7, 0x43, 0x24, 0x8e, 0xe0, 0x35, 0x90, 0xe6, 0x81, 0x3a, 0x26, 0x4c,
  0x3c, 0x28, 0x52, 0xbb, 0x91, 0xc3, 0x00, 0xcb, 0x88, 0xd0, 0x65, 0x8b, 0x1b, 0x53, 0x2e, 0xa3,
  0x71, 0x64, 0x48, 0x97, 0xa2, 0x0d, 0xf9, 0x4e, 0x38, 0x19, 0xef, 0x46, 0xa9, 0xde, 0xac, 0xd8,
  0xa8, 0xfa, 0x76, 0x3f, 0xe3, 0x9c, 0x34, 0x3f, 0xf9, 0xdc, 0xbb, 0xc7, 0xc7, 0x0b, 0x4f, 0x1d,
  0x8a, 0x51, 0xe0, 0x4b, 0xcd, 0xb4, 0x59, 0x31, 0xc8, 0x9f, 0x7e, 0xc9, 0xd9, 0x78, 0x73, 0x64,
  0xea, 0xc5, 0xac, 0x83, 0x34, 0xd3, 0xeb, 0xc3, 0xc5, 0x81, 0xa0, 0xff, 0xfa, 0x13, 0x63, 0xeb,
  0x17, 0x0d, 0xdd, 0x51, 0xb7, 0xf0, 0xda, 0x49, 0xd3, 0x16, 0x55, 0x26, 0x29, 0xd4, 0x68, 0x9e,
  0x2b, 0x16, 0xbe, 0x58, 0x7d, 0x47, 0xa1, 0xfc, 0x8f, 0xf8, 0xb8, 0xd1, 0x7a, 0xd0, 0x31, 0xce,
  0x45, 0xcb, 0x3a, 0x8f, 0x95, 0x16, 0x04, 0x28, 0xaf, 0xd7, 0xfb, 0xca, 0xbb, 0x4b, 0x40, 0x7e]⟩

/-- Multipliers of 32 bits. -/
def p32a : UInt64 := 0x9E3779B1

/-- The second multiplier of 32 bits. -/
def p32b : UInt64 := 0x85EBCA77

/-- The third multiplier of 32 bits. -/
def p32c : UInt64 := 0xC2B2AE3D

/-- Multipliers of 64 bits. -/
def p64a : UInt64 := 0x9E3779B185EBCA87

/-- The second multiplier of 64 bits. -/
def p64b : UInt64 := 0xC2B2AE3D27D4EB4F

/-- The third multiplier of 64 bits. -/
def p64c : UInt64 := 0x165667B19E3779F9

/-- The fourth multiplier of 64 bits. -/
def p64d : UInt64 := 0x85EBCA77C2B2AE63

/-- The fifth multiplier of 64 bits. -/
def p64e : UInt64 := 0x27D4EB2F165667C5

/-! ### Words -/

/-- The byte at a position, 0 past the end. -/
def byteAt (bs : ByteArray) (i : Nat) : UInt64 := (bs[i]?.getD 0).toUInt64

/-- The little-endian word of `n` bytes at a position. -/
def word (bs : ByteArray) : Nat → Nat → UInt64
  | _, 0 => 0
  | i, n + 1 => byteAt bs i ||| (word bs (i + 1) n <<< 8)

/-- The word of four bytes at a position. -/
def word32 (bs : ByteArray) (i : Nat) : UInt64 := word bs i 4

/-- The word of eight bytes at a position. -/
def word64 (bs : ByteArray) (i : Nat) : UInt64 := word bs i 8

/-- Two 64-bit halves, the lower one first. -/
structure Wide where
  low : UInt64
  high : UInt64
  deriving DecidableEq, Inhabited, Repr

/-- The 128-bit product of two words. -/
def product (a b : UInt64) : Wide :=
  let n := a.toNat * b.toNat
  ⟨UInt64.ofNat n, UInt64.ofNat (n >>> 64)⟩

/-- The halves of the product, combined. -/
def fold (a b : UInt64) : UInt64 := (product a b).low ^^^ (product a b).high

/-- The word of `n` bytes in the opposite byte order. -/
def swapBytes (w : UInt64) : Nat → UInt64
  | 0 => 0
  | n + 1 => ((w &&& 0xff) <<< (8 * n).toUInt64) ||| swapBytes (w >>> 8) n

/-- The final mix of long inputs. -/
def mix (h : UInt64) : UInt64 :=
  let h := (h ^^^ (h >>> 37)) * 0x165667919E3779F9
  h ^^^ (h >>> 32)

/-- The final mix of inputs of at most three bytes. -/
def mixShort (h : UInt64) : UInt64 :=
  let h := (h ^^^ (h >>> 33)) * p64b
  let h := (h ^^^ (h >>> 29)) * p64c
  h ^^^ (h >>> 32)

/-! ### Inputs of at most sixteen bytes -/

/-- The hash of the empty input. -/
def hashEmpty : Wide :=
  ⟨mixShort (word64 secret 64 ^^^ word64 secret 72),
   mixShort (word64 secret 80 ^^^ word64 secret 88)⟩

/-- One to three bytes. -/
def hashTo3 (bs : ByteArray) : Wide :=
  let n := bs.size
  let low := (byteAt bs 0 <<< 16) ||| (byteAt bs (n / 2) <<< 24) ||| byteAt bs (n - 1)
    ||| (n.toUInt64 <<< 8)
  let swapped := swapBytes low 4
  let high := ((swapped <<< 13) ||| (swapped >>> 19)) &&& 0xffffffff
  ⟨mixShort (low ^^^ (word32 secret 0 ^^^ word32 secret 4)),
   mixShort (high ^^^ (word32 secret 8 ^^^ word32 secret 12))⟩

/-- Four to eight bytes. -/
def hashTo8 (bs : ByteArray) : Wide :=
  let n := bs.size
  let input := word32 bs 0 + (word32 bs (n - 4) <<< 32)
  let keyed := input ^^^ (word64 secret 16 ^^^ word64 secret 24)
  let m := product keyed (p64a + (n.toUInt64 <<< 2))
  let high := m.high + (m.low <<< 1)
  let low := m.low ^^^ (high >>> 3)
  let low := (low ^^^ (low >>> 35)) * 0x9FB21C651E98DF25
  ⟨low ^^^ (low >>> 28), mix high⟩

/-- Nine to sixteen bytes. -/
def hashTo16 (bs : ByteArray) : Wide :=
  let n := bs.size
  let first := word64 bs 0
  let last := word64 bs (n - 8)
  let m := product (first ^^^ last ^^^ (word64 secret 32 ^^^ word64 secret 40)) p64a
  let low := m.low + ((n.toUInt64 - 1) <<< 54)
  let keyed := last ^^^ (word64 secret 48 ^^^ word64 secret 56)
  let high := m.high + keyed + (keyed &&& (0xffffffff : UInt64)) * (p32b - 1)
  let low := low ^^^ swapBytes high 8
  let h := product low p64b
  ⟨mix h.low, mix (h.high + high * p64b)⟩

/-! ### Inputs of up to 240 bytes -/

/-- Sixteen bytes of the input under sixteen of the key stream. -/
def mix16 (bs : ByteArray) (i key : Nat) (seed : UInt64) : UInt64 :=
  fold (word64 bs i ^^^ (word64 secret key + seed))
    (word64 bs (i + 8) ^^^ (word64 secret (key + 8) - seed))

/-- Takes two pieces of sixteen bytes into the accumulator. -/
def mix32 (bs : ByteArray) (seed : UInt64) (acc : Wide) (i j key : Nat) : Wide :=
  ⟨(acc.low + mix16 bs i key seed) ^^^ (word64 bs j + word64 bs (j + 8)),
   (acc.high + mix16 bs j (key + 16) seed) ^^^ (word64 bs i + word64 bs (i + 8))⟩

/-- The hash of an accumulator. -/
def finish (n : Nat) (acc : Wide) : Wide :=
  ⟨mix (acc.low + acc.high),
   0 - mix (acc.low * p64a + acc.high * p64d + n.toUInt64 * p64b)⟩

/-- Seventeen to 128 bytes: pieces from both ends, the inner ones first. -/
def hashTo128 (bs : ByteArray) : Wide :=
  let n := bs.size
  let pieces := ((n - 1) / 32 + 1)
  let acc := (List.range pieces).reverse.foldl
    (fun acc k => mix32 bs 0 acc (16 * k) (n - 16 * (k + 1)) (32 * k)) ⟨n.toUInt64 * p64a, 0⟩
  finish n acc

/-- 129 to 240 bytes: pieces in order, the first four apart from the others. -/
def hashTo240 (bs : ByteArray) : Wide :=
  let n := bs.size
  let first := (List.range 4).foldl
    (fun acc k => mix32 bs 0 acc (32 * k) (32 * k + 16) (32 * k)) ⟨n.toUInt64 * p64a, 0⟩
  let rest := (List.range (n / 32 - 4)).foldl
    (fun acc k => mix32 bs 0 acc (128 + 32 * k) (128 + 32 * k + 16) (3 + 32 * k))
    ⟨mix first.low, mix first.high⟩
  finish n (mix32 bs 0 rest (n - 16) (n - 32) 103)

/-! ### Longer inputs -/

/-- The eight lanes of the state. -/
abbrev Lanes := Array UInt64

/-- The lanes before any input. -/
def lanes : Lanes := #[p32c, p64a, p64b, p64c, p64d, p32b, p64e, p32a]

/-- A lane of the state. -/
def lane (acc : Lanes) (i : Nat) : UInt64 := acc[i]?.getD 0

/-- Takes the 64 bytes at `i` into the lanes, under the key stream from `key` on. -/
def absorb (bs : ByteArray) (acc : Lanes) (i key : Nat) : Lanes :=
  (Array.range 8).map fun k =>
    let keyed := word64 bs (i + 8 * k) ^^^ word64 secret (key + 8 * k)
    let other := word64 bs (i + 8 * (if k % 2 = 0 then k + 1 else k - 1))
    lane acc k + other + (keyed &&& (0xffffffff : UInt64)) * (keyed >>> 32)

/-- Stirs the lanes after a block. -/
def scramble (acc : Lanes) : Lanes :=
  (Array.range 8).map fun k =>
    let a := lane acc k
    (a ^^^ (a >>> 47) ^^^ word64 secret (128 + 8 * k)) * p32a

/-- Takes `count` pieces of 64 bytes from `i` on. -/
def absorbMany (bs : ByteArray) (acc : Lanes) (i count : Nat) : Lanes :=
  (List.range count).foldl (fun acc k => absorb bs acc (i + 64 * k) (8 * k)) acc

/-- A half of the hash of the lanes. -/
def merge (acc : Lanes) (key : Nat) (start : UInt64) : UInt64 :=
  mix ((List.range 4).foldl (fun h k =>
    h + fold (lane acc (2 * k) ^^^ word64 secret (key + 16 * k))
      (lane acc (2 * k + 1) ^^^ word64 secret (key + 16 * k + 8))) start)

/-- More than 240 bytes: blocks of sixteen pieces, then the pieces of the last block, then the last
    64 bytes. -/
def hashLong (bs : ByteArray) : Wide :=
  let n := bs.size
  let blocks := (n - 1) / 1024
  let acc := (List.range blocks).foldl
    (fun acc b => scramble (absorbMany bs acc (1024 * b) 16)) lanes
  let acc := absorbMany bs acc (1024 * blocks) ((n - 1 - 1024 * blocks) / 64)
  let acc := absorb bs acc (n - 64) 121
  ⟨merge acc 11 (n.toUInt64 * p64a), merge acc 117 (~~~ (n.toUInt64 * p64b))⟩

/-! ### All inputs -/

/-- The hash of a byte string. -/
def hash (bs : ByteArray) : Wide :=
  let n := bs.size
  if n = 0 then hashEmpty
  else if n ≤ 3 then hashTo3 bs
  else if n ≤ 8 then hashTo8 bs
  else if n ≤ 16 then hashTo16 bs
  else if n ≤ 128 then hashTo128 bs
  else if n ≤ 240 then hashTo240 bs
  else hashLong bs

/-- A hexadecimal digit. -/
def hexDigit (n : Nat) : Char := Nat.digitChar (n % 16)

/-- The hexadecimal digits of the lowest `n` bytes of a word, the lowest byte first. -/
def hexBytes (w : Nat) : Nat → List Char
  | 0 => []
  | n + 1 => hexDigit (w / 16) :: hexDigit w :: hexBytes (w / 256) n

/-- A hash as 32 hexadecimal digits. -/
def Wide.hex (h : Wide) : String :=
  String.ofList (hexBytes h.low.toNat 8 ++ hexBytes h.high.toNat 8)

/-- The fingerprint of a text. -/
def ofText (text : String) : String := (hash text.toUTF8).hex

end JavaAbi.Fingerprint
