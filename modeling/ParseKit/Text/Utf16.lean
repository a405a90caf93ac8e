/-!
The UTF-16 code units of characters. A character up to U+FFFF is one unit; any other is a lead
and a trail surrogate, which hold ten bits each of its distance from U+10000.
-/

namespace ParseKit

inductive Units where
  | single (unit : UInt16)
  | pair (lead trail : UInt16)
deriving DecidableEq

namespace Units

def ofChar (c : Char) : Units :=
  if c.toNat < 0x10000 then .single (.ofNat c.toNat)
  else
    let distance := c.toNat - 0x10000
    .pair (.ofNat (0xD800 + distance / 0x400)) (.ofNat (0xDC00 + distance % 0x400))

def toList : Units → List UInt16
  | single unit => [unit]
  | pair lead trail => [lead, trail]

end Units

def utf16 (chars : List Char) : List UInt16 := chars.flatMap fun c => (Units.ofChar c).toList

end ParseKit
