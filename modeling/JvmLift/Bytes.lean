/-!
Big-endian byte reading. A reader takes a prefix of the bytes and gives back the rest; running out
of bytes is its only failure.
-/
namespace JvmLift

abbrev Bytes := List UInt8

abbrev Reader := StateT Bytes Option

namespace Reader

def u8 : Reader UInt8
  | [] => none
  | b :: rest => some (b, rest)

def u16 : Reader UInt16 := do
  let hi ← u8
  let lo ← u8
  return UInt16.ofNat (hi.toNat * 256 + lo.toNat)

def u32 : Reader UInt32 := do
  let hi ← u16
  let lo ← u16
  return UInt32.ofNat (hi.toNat * 65536 + lo.toNat)

def u64 : Reader UInt64 := do
  let hi ← u32
  let lo ← u32
  return UInt64.ofNat (hi.toNat * 4294967296 + lo.toNat)

def take (n : Nat) : Reader Bytes := fun bytes =>
  if n ≤ bytes.length then some (bytes.take n, bytes.drop n) else none

def times {α : Type} : Nat → Reader α → Reader (List α)
  | 0, _ => return []
  | n + 1, r => do
      let x ← r
      let xs ← times n r
      return x :: xs

end Reader

end JvmLift
