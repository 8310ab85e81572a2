/-!
# Content fingerprints

A fingerprint is the 64-bit XXH3 hash, with seed zero, of the bytes of a text. It
is a pure function of those bytes, so class names made from it agree between
builds and between processes.

The hash has one rule per range of lengths: nothing, up to 3, 8, 16, 128 and 240
bytes, and long texts that are folded in stripes of 64 bytes.

## Main definitions

* `Fingerprint.hash64` — the fingerprint of a byte array.
* `Fingerprint.ofText` — the fingerprint of a text, through its UTF-8 bytes.
-/

namespace AtomicStyles
namespace Fingerprint

/-! ### Constants of the hash -/

def p32a : UInt64 := 0x9E3779B1
def p32b : UInt64 := 0x85EBCA77
def p32c : UInt64 := 0xC2B2AE3D
def p64a : UInt64 := 0x9E3779B185EBCA87
def p64b : UInt64 := 0xC2B2AE3D27D4EB4F
def p64c : UInt64 := 0x165667B19E3779F9
def p64d : UInt64 := 0x85EBCA77C2B2AE63
def p64e : UInt64 := 0x27D4EB2F165667C5
def mixA : UInt64 := 0x165667919E3779F9
def mixB : UInt64 := 0x9FB21C651E98DF25

/-- The 192 bytes every keyed step draws its key from. -/
def secret : ByteArray := ⟨#[
  0xb8, 0xfe, 0x6c, 0x39, 0x23, 0xa4, 0x4b, 0xbe, 0x7c, 0x01, 0x81, 0x2c, 0xf7, 0x21, 0xad, 0x1c,
  0xde, 0xd4, 0x6d, 0xe9, 0x83, 0x90, 0x97, 0xdb, 0x72, 0x40, 0xa4, 0xa4, 0xb7, 0xb3, 0x67, 0x1f,
  0xcb, 0x79, 0xe6, 0x4e, 0xcc, 0xc0, 0xe5, 0x78, 0x82, 0x5a, 0xd0, 0x7d, 0xcc, 0xff, 0x72, 0x21,
  0xb8, 0x08, 0x46, 0x74, 0xf7, 0x43, 0x24, 0x8e, 0xe0, 0x35, 0x90, 0xe6, 0x81, 0x3a, 0x26, 0x4c,
  0x3c, 0x28, 0x52, 0xbb, 0x91, 0xc3, 0x00, 0xcb, 0x88, 0xd0, 0x65, 0x8b, 0x1b, 0x53, 0x2e, 0xa3,
  0x71, 0x64, 0x48, 0x97, 0xa2, 0x0d, 0xf9, 0x4e, 0x38, 0x19, 0xef, 0x46, 0xa9, 0xde, 0xac, 0xd8,
  0xa8, 0xfa, 0x76, 0x3f, 0xe3, 0x9c, 0x34, 0x3f, 0xf9, 0xdc, 0xbb, 0xc7, 0xc7, 0x0b, 0x4f, 0x1d,
  0x8a, 0x51, 0xe0, 0x4b, 0xcd, 0xb4, 0x59, 0x31, 0xc8, 0x9f, 0x7e, 0xc9, 0xd9, 0x78, 0x73, 0x64,
  0xea, 0xc5, 0xac, 0x83, 0x34, 0xd3, 0xeb, 0xc3, 0xc5, 0x81, 0xa0, 0xff, 0xfa, 0x13, 0x63, 0xeb,
  0x17, 0x0d, 0xdd, 0x51, 0xb7, 0xf0, 0xda, 0x49, 0xd3, 0x16, 0x55, 0x26, 0x29, 0xd4, 0x68, 0x9e,
  0x2b, 0x16, 0xbe, 0x58, 0x7d, 0x47, 0xa1, 0xfc, 0x8f, 0xf8, 0xb8, 0xd1, 0x7a, 0xd0, 0x31, 0xce,
  0x45, 0xcb, 0x3a, 0x8f, 0x95, 0x16, 0x04, 0x28, 0xaf, 0xd7, 0xfb, 0xca, 0xbb, 0x4b, 0x40, 0x7e]⟩

/-! ### Words -/

/-- The byte at `i`, zero past the end. -/
def byteAt (b : ByteArray) (i : Nat) : UInt64 := (b.data[i]?.getD 0).toUInt64

/-- The little-endian word of `n` bytes at `i`. -/
def wordAt (b : ByteArray) (i : Nat) : Nat → UInt64
  | 0 => 0
  | n + 1 => wordAt b i n ||| (byteAt b (i + n) <<< (8 * n).toUInt64)

def read32 (b : ByteArray) (i : Nat) : UInt64 := wordAt b i 4
def read64 (b : ByteArray) (i : Nat) : UInt64 := wordAt b i 8

def rotateLeft (x : UInt64) (n : UInt64) : UInt64 := (x <<< n) ||| (x >>> (64 - n))

/-- The word with its eight bytes in reverse order. -/
def swapBytes (x : UInt64) : UInt64 :=
  (List.range 8).foldl (fun acc i =>
    acc ||| (((x >>> (8 * i).toUInt64) &&& 0xff) <<< (8 * (7 - i)).toUInt64)) 0

/-- The two halves of the 128-bit product, combined by exclusive or. -/
def foldedMul (a b : UInt64) : UInt64 :=
  let p := a.toNat * b.toNat
  p.toUInt64 ^^^ (p / Nat.pow 2 64).toUInt64

/-! ### Final mixing -/

def avalanche (h : UInt64) : UInt64 :=
  let h := (h ^^^ (h >>> 37)) * mixA
  h ^^^ (h >>> 32)

def avalancheShort (h : UInt64) : UInt64 :=
  let h := (h ^^^ (h >>> 33)) * p64b
  let h := (h ^^^ (h >>> 29)) * p64c
  h ^^^ (h >>> 32)

def strongAvalanche (h len : UInt64) : UInt64 :=
  let h := (h ^^^ (rotateLeft h 49 ^^^ rotateLeft h 24)) * mixB
  let h := (h ^^^ ((h >>> 35) + len)) * mixB
  h ^^^ (h >>> 28)

/-- Sixteen bytes of input at `i` under the key at `k`. -/
def mix16 (b : ByteArray) (i k : Nat) : UInt64 :=
  foldedMul (read64 b i ^^^ read64 secret k) (read64 b (i + 8) ^^^ read64 secret (k + 8))

/-! ### One rule per range of lengths -/

def hashEmpty : UInt64 := avalancheShort (read64 secret 56 ^^^ read64 secret 64)

def hash1to3 (b : ByteArray) : UInt64 :=
  let n := b.size
  let combined := (byteAt b 0 <<< 16) ||| (byteAt b (n / 2) <<< 24) ||| byteAt b (n - 1)
    ||| (n.toUInt64 <<< 8)
  avalancheShort (combined ^^^ (read32 secret 0 ^^^ read32 secret 4))

def hash4to8 (b : ByteArray) : UInt64 :=
  let n := b.size
  let word := read32 b (n - 4) + (read32 b 0 <<< 32)
  strongAvalanche (word ^^^ (read64 secret 8 ^^^ read64 secret 16)) n.toUInt64

def hash9to16 (b : ByteArray) : UInt64 :=
  let n := b.size
  let lo := read64 b 0 ^^^ (read64 secret 24 ^^^ read64 secret 32)
  let hi := read64 b (n - 8) ^^^ (read64 secret 40 ^^^ read64 secret 48)
  avalanche (n.toUInt64 + swapBytes lo + hi + foldedMul lo hi)

/-- Pairs of sixteen-byte blocks, taken from both ends towards the middle. -/
def hash17to128 (b : ByteArray) : UInt64 :=
  let n := b.size
  let pairs := (n - 1) / 32 + 1
  avalanche <| (List.range pairs).foldl (fun acc i =>
    acc + mix16 b (16 * i) (32 * i) + mix16 b (n - 16 * (i + 1)) (32 * i + 16)) (n.toUInt64 * p64a)

def hash129to240 (b : ByteArray) : UInt64 :=
  let n := b.size
  let head := (List.range 8).foldl (fun acc i => acc + mix16 b (16 * i) (16 * i)) (n.toUInt64 * p64a)
  let body := (List.range (n / 16 - 8)).foldl
    (fun acc i => acc + mix16 b (16 * (i + 8)) (16 * i + 3)) (avalanche head)
  avalanche (body + mix16 b (n - 16) 119)

/-! ### Long texts -/

/-- Eight accumulator words. -/
structure Lanes where
  words : Array UInt64

def Lanes.get (l : Lanes) (i : Nat) : UInt64 := l.words[i]?.getD 0

def Lanes.start : Lanes := ⟨#[p32c, p64a, p64b, p64c, p64d, p32b, p64e, p32a]⟩

/-- Adds one stripe of 64 bytes at `i` under the key at `k`. -/
def Lanes.addStripe (l : Lanes) (b : ByteArray) (i k : Nat) : Lanes :=
  ⟨(List.range 8).foldl (fun acc j =>
    let word := read64 b (i + 8 * j)
    let key : UInt64 := word ^^^ read64 secret (k + 8 * j)
    let swapped := if j % 2 = 0 then j + 1 else j - 1
    let acc := acc.set! swapped (acc[swapped]?.getD 0 + word)
    acc.set! j (acc[j]?.getD 0 + (key &&& (0xffffffff : UInt64)) * (key >>> (32 : UInt64)))) l.words⟩

/-- The mixing that ends every block of sixteen stripes. -/
def Lanes.scramble (l : Lanes) : Lanes :=
  ⟨(Array.range 8).map fun j =>
    let w := l.get j
    ((w ^^^ (w >>> 47)) ^^^ read64 secret (128 + 8 * j)) * p32a⟩

/-- `n` stripes from `i` on, the key advancing by eight bytes each. -/
def Lanes.addStripes (l : Lanes) (b : ByteArray) (i n : Nat) : Lanes :=
  (List.range n).foldl (fun acc j => acc.addStripe b (i + 64 * j) (8 * j)) l

def Lanes.merge (l : Lanes) (len : UInt64) : UInt64 :=
  avalanche <| (List.range 4).foldl (fun acc i =>
    acc + foldedMul (l.get (2 * i) ^^^ read64 secret (11 + 16 * i))
      (l.get (2 * i + 1) ^^^ read64 secret (19 + 16 * i))) (len * p64a)

def hashLong (b : ByteArray) : UInt64 :=
  let n := b.size
  let blocks := (n - 1) / 1024
  let full := (List.range blocks).foldl
    (fun acc k => (acc.addStripes b (1024 * k) 16).scramble) Lanes.start
  let rest := full.addStripes b (1024 * blocks) ((n - 1 - 1024 * blocks) / 64)
  (rest.addStripe b (n - 64) 121).merge n.toUInt64

/-- The XXH3 hash of a byte array, seed zero. -/
def hash64 (b : ByteArray) : UInt64 :=
  let n := b.size
  if n = 0 then hashEmpty
  else if n ≤ 3 then hash1to3 b
  else if n ≤ 8 then hash4to8 b
  else if n ≤ 16 then hash9to16 b
  else if n ≤ 128 then hash17to128 b
  else if n ≤ 240 then hash129to240 b
  else hashLong b

def ofText (key : String) : UInt64 := hash64 key.toUTF8

end Fingerprint
end AtomicStyles
