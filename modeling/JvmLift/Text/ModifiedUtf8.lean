/-!
Modified UTF-8, the text encoding of class files: UTF-16 code units written in one, two or three
bytes, with NUL in two. Decoding never fails; what it cannot read becomes U+FFFD.
-/
namespace JvmLift.ModifiedUtf8

def unitsOf (c : Char) : List Nat :=
  if c.toNat < 0x10000 then [c.toNat]
  else [0xD800 + (c.toNat - 0x10000) / 0x400, 0xDC00 + (c.toNat - 0x10000) % 0x400]

/-- Shortest form of a code unit; zero takes the two-byte form. -/
def encodeUnit (u : Nat) : List UInt8 :=
  if 0 < u ∧ u < 0x80 then [UInt8.ofNat u]
  else if u < 0x800 then [UInt8.ofNat (0xC0 + u / 64), UInt8.ofNat (0x80 + u % 64)]
  else [UInt8.ofNat (0xE0 + u / 4096), UInt8.ofNat (0x80 + u / 64 % 64), UInt8.ofNat (0x80 + u % 64)]

def encode (s : String) : List UInt8 :=
  (s.toList.flatMap unitsOf).flatMap encodeUnit

/-- Code units of a byte string. The lead byte alone decides the form; what it cannot read is U+FFFD.
-/
def decodeUnits : List UInt8 → List Nat
  | [] => []
  | b :: rest =>
      if b.toNat < 0x80 then b.toNat :: decodeUnits rest
      else if b.toNat / 32 = 6 then
        match rest with
        | c :: rest => (b.toNat % 32 * 64 + c.toNat % 64) :: decodeUnits rest
        | [] => [0xFFFD]
      else if b.toNat / 16 = 14 then
        match rest with
        | c :: d :: rest =>
            (b.toNat % 16 * 4096 + c.toNat % 64 * 64 + d.toNat % 64) :: decodeUnits rest
        | rest => 0xFFFD :: decodeUnits rest
      else 0xFFFD :: decodeUnits rest

def isHigh (u : Nat) : Bool := 0xD800 ≤ u && u < 0xDC00

def isLow (u : Nat) : Bool := 0xDC00 ≤ u && u < 0xE000

def replacement : Char := '�'

/-- Characters of a sequence of UTF-16 code units; an unpaired surrogate becomes U+FFFD. -/
def ofUnits : List Nat → List Char
  | [] => []
  | u :: rest =>
      if isHigh u then
        match rest with
        | v :: tail =>
            if isLow v then
              Char.ofNat (0x10000 + (u - 0xD800) * 0x400 + (v - 0xDC00)) :: ofUnits tail
            else replacement :: ofUnits (v :: tail)
        | [] => [replacement]
      else if isLow u then replacement :: ofUnits rest
      else Char.ofNat u :: ofUnits rest

def decode (bytes : List UInt8) : String :=
  String.ofList (ofUnits (decodeUnits bytes))

end JvmLift.ModifiedUtf8
