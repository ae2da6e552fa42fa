/-!
# Hexadecimal text

Offsets and sizes are written in base sixteen with the digits they need, byte values always with
two digits. Both start with `0x` and use lower-case letters.
-/

namespace Recast.Text

def hex (n : Nat) : String :=
  "0x" ++ String.ofList (Nat.toDigits 16 n)

def hexByte (byte : UInt8) : String :=
  "0x" ++ String.ofList [Nat.digitChar (byte.toNat / 16), Nat.digitChar (byte.toNat % 16)]

end Recast.Text
