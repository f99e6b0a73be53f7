/-!
# Bytes to code points

Source files are bytes. `decode` reads them as UTF-8: a well-formed sequence
(shortest form, no surrogate, nothing above U+10FFFF) gives its code point, and
every byte that starts no such sequence gives one replacement character, after
which reading goes on at the very next byte.
-/

namespace Locomotive.Text

/-- U+FFFD, which stands for a byte that is not part of any code point. -/
def replacement : Char := Char.ofNat 0xFFFD

/-- A continuation byte. -/
def isTail (b : UInt8) : Bool := 0x80 ≤ b && b ≤ 0xBF

/-- `a b` is a two-byte sequence. -/
def isPair (a b : UInt8) : Bool := 0xC2 ≤ a && a ≤ 0xDF && isTail b

/-- `a b c` is a three-byte sequence: not overlong, and not a surrogate. -/
def isTriple (a b c : UInt8) : Bool :=
  0xE0 ≤ a && a ≤ 0xEF && isTail b && isTail c &&
    (a != 0xE0 || 0xA0 ≤ b) && (a != 0xED || b ≤ 0x9F)

/-- `a b c d` is a four-byte sequence: not overlong, and at most U+10FFFF. -/
def isQuad (a b c d : UInt8) : Bool :=
  0xF0 ≤ a && a ≤ 0xF4 && isTail b && isTail c && isTail d &&
    (a != 0xF0 || 0x90 ≤ b) && (a != 0xF4 || b ≤ 0x8F)

/-- The six payload bits of a continuation byte. -/
def payload (b : UInt8) : Nat := b.toNat % 64

/-- The code point that starts with byte `a`, and how many of the bytes `r` after it
belong to it. -/
def front (a : UInt8) (r : List UInt8) : Char × Nat :=
  let b := r.getD 0 0
  let c := r.getD 1 0
  let d := r.getD 2 0
  if a < 0x80 then (Char.ofNat a.toNat, 0)
  else if isPair a b then (Char.ofNat (a.toNat % 32 * 64 + payload b), 1)
  else if isTriple a b c then
    (Char.ofNat ((a.toNat % 16 * 64 + payload b) * 64 + payload c), 2)
  else if isQuad a b c d then
    (Char.ofNat (((a.toNat % 8 * 64 + payload b) * 64 + payload c) * 64 + payload d), 3)
  else (replacement, 0)

/-- The code points of the bytes after the first `skip` ones. -/
def decodeFrom : Nat → List UInt8 → List Char
  | _, [] => []
  | skip + 1, _ :: r => decodeFrom skip r
  | 0, a :: r => (front a r).1 :: decodeFrom (front a r).2 r

/-- The code points of a byte sequence, with one `replacement` for each byte that
belongs to none. -/
def decode (bytes : List UInt8) : List Char := decodeFrom 0 bytes

end Locomotive.Text
