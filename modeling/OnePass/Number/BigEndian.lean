import OnePass.Text.Bytes

/-!
# Big-endian numbers

Numbers as their base-256 digits, the most significant first.
-/

namespace OnePass

/-- The last `width` base-256 digits of a number, the most significant first. -/
def bigEndian : Nat → Nat → Bytes
  | 0, _ => []
  | width + 1, n => bigEndian width (n / 256) ++ [UInt8.ofNat (n % 256)]

/-- The number whose base-256 digits are given, the most significant first. -/
def ofBigEndian (b : Bytes) : Nat := b.foldl (fun n d => n * 256 + d.toNat) 0

end OnePass
