/-
  Command modules — the identity of declared types.

  A type is known by a 64-bit hash of its full metadata name, so that the same
  declaration has the same identity everywhere and a type can be referred to
  before it is declared.

  * `digest` is the hash of a list of bytes: four lanes take in stripes of 32
    bytes, are mixed into one word, and that word takes in the bytes that are
    left;
  * `TypeId.ofName` is the identity of a type in a namespace, `TypeId.nested` of a
    type in a type.
-/
namespace CommandModules

namespace Hash

/-- The constants that spread bits. -/
def prime1 : UInt64 := 0x9E3779B185EBCA87
def prime2 : UInt64 := 0xC2B2AE3D27D4EB4F
def prime3 : UInt64 := 0x165667B19E3779F9
def prime4 : UInt64 := 0x85EBCA77C2B2AE63
def prime5 : UInt64 := 0x27D4EB2F165667C5

/-- Turn a word left by `n` bits, `0 < n < 64`. -/
def rotate (x n : UInt64) : UInt64 :=
  (x <<< n) ||| (x >>> (64 - n))

/-- The word with the given bytes, least significant first. -/
def ofBytes (bytes : List UInt8) : UInt64 :=
  bytes.foldr (fun b word => (word <<< 8) ||| b.toUInt64) 0

/-- A lane takes in a word. -/
def round (lane word : UInt64) : UInt64 :=
  rotate (lane + word * prime2) 31 * prime1

/-- The result takes in a lane. -/
def mergeLane (hash lane : UInt64) : UInt64 :=
  (hash ^^^ round 0 lane) * prime1 + prime4

/-- The four lanes. -/
structure Lanes where
  a : UInt64
  b : UInt64
  c : UInt64
  d : UInt64

/-- The lanes before the first stripe. -/
def Lanes.start : Lanes :=
  ⟨prime1 + prime2, prime2, 0, 0 - prime1⟩

/-- The lanes take in `n` stripes of 32 bytes. -/
def Lanes.stripes : Nat → List UInt8 → Lanes → Lanes
  | 0, _, v => v
  | n + 1, bytes, v =>
    let word (i : Nat) := ofBytes ((bytes.drop (8 * i)).take 8)
    stripes n (bytes.drop 32)
      ⟨round v.a (word 0), round v.b (word 1), round v.c (word 2), round v.d (word 3)⟩

/-- The lanes mixed into one word. -/
def Lanes.mix (v : Lanes) : UInt64 :=
  let sum := rotate v.a 1 + rotate v.b 7 + rotate v.c 12 + rotate v.d 18
  mergeLane (mergeLane (mergeLane (mergeLane sum v.a) v.b) v.c) v.d

/-- Take in `n` words of eight bytes. -/
def longWords : Nat → List UInt8 → UInt64 → UInt64
  | 0, _, hash => hash
  | n + 1, bytes, hash =>
    longWords n (bytes.drop 8)
      (rotate (hash ^^^ round 0 (ofBytes (bytes.take 8))) 27 * prime1 + prime4)

/-- Take in `n` words of four bytes. -/
def shortWords : Nat → List UInt8 → UInt64 → UInt64
  | 0, _, hash => hash
  | n + 1, bytes, hash =>
    shortWords n (bytes.drop 4)
      (rotate (hash ^^^ (ofBytes (bytes.take 4) * prime1)) 23 * prime2 + prime3)

/-- Take in single bytes. -/
def singleBytes (bytes : List UInt8) (hash : UInt64) : UInt64 :=
  bytes.foldl (fun hash b => rotate (hash ^^^ (b.toUInt64 * prime5)) 11 * prime1) hash

/-- Let every bit of the result depend on every bit. -/
def avalanche (hash : UInt64) : UInt64 :=
  let hash := (hash ^^^ (hash >>> 33)) * prime2
  let hash := (hash ^^^ (hash >>> 29)) * prime3
  hash ^^^ (hash >>> 32)

/-- The 64-bit hash of a list of bytes. -/
def digest (bytes : List UInt8) : UInt64 :=
  let length := bytes.length
  let stripes := length / 32
  let start := if stripes = 0 then prime5 else (Lanes.start.stripes stripes bytes).mix
  let tail := bytes.drop (32 * stripes)
  let longs := tail.length / 8
  let hash := longWords longs tail (start + length.toUInt64)
  let tail := tail.drop (8 * longs)
  let shorts := tail.length / 4
  let hash := shortWords shorts tail hash
  avalanche (singleBytes (tail.drop (4 * shorts)) hash)

/-- The bytes of a text in UTF-8. -/
def bytesOf (s : String) : List UInt8 :=
  s.toList.flatMap String.utf8EncodeChar

/-- A word in sixteen hexadecimal digits. -/
def hex (word : UInt64) : String :=
  let digits := Nat.toDigits 16 word.toNat
  "0x" ++ String.ofList (List.replicate (16 - digits.length) '0' ++ digits)

end Hash

/-- The identity of a declared type. -/
structure TypeId where
  value : UInt64
deriving DecidableEq, Repr

namespace TypeId

/-- The identity of the type with this full metadata name, in a namespace. -/
def ofName (qualified : String) : TypeId :=
  ⟨0x2fac10b63a6cc57c ^^^ Hash.digest (Hash.bytesOf qualified)⟩

/-- The identity of the type with this metadata name nested in another one. -/
def nested (containing : TypeId) (name : String) : TypeId :=
  ⟨containing.value * 0x4bc94d6bd06053ad + Hash.digest (Hash.bytesOf name)⟩

/-- The identity as it is shown. -/
def text (id : TypeId) : String :=
  Hash.hex id.value

end TypeId

end CommandModules
