import M740.Word

/-!
# Hexadecimal text

Bytes are written with two upper-case digits, words with four.
-/

namespace M740.Hex

/-- The digit for a value below sixteen. -/
def digit (n : Nat) : Char :=
  if n < 10 then Char.ofNat ('0'.toNat + n) else Char.ofNat ('A'.toNat + (n - 10))

def byte (b : Byte) : String :=
  String.ofList [digit (b.toNat / 16), digit (b.toNat % 16)]

def word (w : Word) : String := byte (Word.high w) ++ byte (Word.low w)

end M740.Hex
