import TwoTier.Text.Quoted

/-! # Digests

The SHA-256 digest of a text's UTF-8 bytes, as 64 lower-case hexadecimal digits.
-/

namespace TwoTier.Digest

def roundConstants : List UInt32 := [
  0x428a2f98, 0x71374491, 0xb5c0fbcf, 0xe9b5dba5, 0x3956c25b, 0x59f111f1, 0x923f82a4, 0xab1c5ed5,
  0xd807aa98, 0x12835b01, 0x243185be, 0x550c7dc3, 0x72be5d74, 0x80deb1fe, 0x9bdc06a7, 0xc19bf174,
  0xe49b69c1, 0xefbe4786, 0x0fc19dc6, 0x240ca1cc, 0x2de92c6f, 0x4a7484aa, 0x5cb0a9dc, 0x76f988da,
  0x983e5152, 0xa831c66d, 0xb00327c8, 0xbf597fc7, 0xc6e00bf3, 0xd5a79147, 0x06ca6351, 0x14292967,
  0x27b70a85, 0x2e1b2138, 0x4d2c6dfc, 0x53380d13, 0x650a7354, 0x766a0abb, 0x81c2c92e, 0x92722c85,
  0xa2bfe8a1, 0xa81a664b, 0xc24b8b70, 0xc76c51a3, 0xd192e819, 0xd6990624, 0xf40e3585, 0x106aa070,
  0x19a4c116, 0x1e376c08, 0x2748774c, 0x34b0bcb5, 0x391c0cb3, 0x4ed8aa4a, 0x5b9cca4f, 0x682e6ff3,
  0x748f82ee, 0x78a5636f, 0x84c87814, 0x8cc70208, 0x90befffa, 0xa4506ceb, 0xbef9a3f7, 0xc67178f2]

structure State where
  a : UInt32
  b : UInt32
  c : UInt32
  d : UInt32
  e : UInt32
  f : UInt32
  g : UInt32
  h : UInt32

def State.start : State where
  a := 0x6a09e667
  b := 0xbb67ae85
  c := 0x3c6ef372
  d := 0xa54ff53a
  e := 0x510e527f
  f := 0x9b05688c
  g := 0x1f83d9ab
  h := 0x5be0cd19

def State.words (s : State) : List UInt32 :=
  [s.a, s.b, s.c, s.d, s.e, s.f, s.g, s.h]

def State.add (s t : State) : State :=
  ⟨s.a + t.a, s.b + t.b, s.c + t.c, s.d + t.d, s.e + t.e, s.f + t.f, s.g + t.g, s.h + t.h⟩

def rotateRight (x : UInt32) (n : UInt32) : UInt32 :=
  (x >>> n) ||| (x <<< (32 - n))

def State.step (s : State) (constant word : UInt32) : State :=
  let s1 := rotateRight s.e 6 ^^^ rotateRight s.e 11 ^^^ rotateRight s.e 25
  let choice := (s.e &&& s.f) ^^^ (~~~s.e &&& s.g)
  let t1 := s.h + s1 + choice + constant + word
  let s0 := rotateRight s.a 2 ^^^ rotateRight s.a 13 ^^^ rotateRight s.a 22
  let majority := (s.a &&& s.b) ^^^ (s.a &&& s.c) ^^^ (s.b &&& s.c)
  ⟨t1 + (s0 + majority), s.a, s.b, s.c, s.d + t1, s.e, s.f, s.g⟩

def extendSchedule : Nat → Array UInt32 → Array UInt32
  | 0, ws => ws
  | n + 1, ws =>
    let word := fun back => ws.getD (ws.size - back) 0
    let s0 := rotateRight (word 15) 7 ^^^ rotateRight (word 15) 18 ^^^ (word 15 >>> 3)
    let s1 := rotateRight (word 2) 17 ^^^ rotateRight (word 2) 19 ^^^ (word 2 >>> 10)
    extendSchedule n (ws.push (word 16 + s0 + word 7 + s1))

def State.compress (s : State) (block : Array UInt32) : State :=
  let schedule := (extendSchedule 48 block).toList
  s.add ((roundConstants.zip schedule).foldl (fun t kw => t.step kw.1 kw.2) s)

/-- The message closed by a one bit, zeros, and its length in bits as eight bytes. -/
def padded (message : List UInt8) : List UInt8 :=
  let size := message.length
  let zeros := (119 - size % 64) % 64
  let bits := 8 * size
  let length := (List.range 8).map fun i => UInt8.ofNat (bits / Nat.pow 256 (7 - i) % 256)
  message ++ 0x80 :: List.replicate zeros 0 ++ length

/-- Big-endian words; a last group of fewer than four bytes is left out. -/
def wordsOf : List UInt8 → List UInt32
  | w :: x :: y :: z :: rest =>
    (w.toUInt32 <<< 24 ||| x.toUInt32 <<< 16 ||| y.toUInt32 <<< 8 ||| z.toUInt32) :: wordsOf rest
  | _ => []

def absorb : Nat → State → List UInt32 → State
  | 0, s, _ => s
  | n + 1, s, ws =>
    if ws.isEmpty then s else absorb n (s.compress (ws.take 16).toArray) (ws.drop 16)

def hexByte (n : Nat) : List Char :=
  [Text.hexDigit (n / 16 % 16), Text.hexDigit (n % 16)]

def hexWord (w : UInt32) : List Char :=
  let n := w.toNat
  hexByte (n / Nat.pow 2 24) ++ hexByte (n / Nat.pow 2 16) ++ hexByte (n / Nat.pow 2 8) ++ hexByte n

def sha256 (text : String) : String :=
  let words := wordsOf (padded text.toUTF8.toList)
  String.ofList ((absorb words.length State.start words).words.flatMap hexWord)

end TwoTier.Digest
