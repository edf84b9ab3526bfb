import ClassAtlas.Yaml.Fault
/-!
# Bytes in base 64

Characters that are no digits of base 64 are passed over. Padding ends the text once it completes a
group of four.
-/
namespace ClassAtlas.Yaml.Binary

def digit? (c : Char) : Option Nat :=
  let n := c.toNat
  if 65 ≤ n ∧ n ≤ 90 then some (n - 65)
  else if 97 ≤ n ∧ n ≤ 122 then some (n - 71)
  else if 48 ≤ n ∧ n ≤ 57 then some (n + 4)
  else if c = '+' then some 62
  else if c = '/' then some 63
  else none

/-- The bytes of the digits of one group that need no more digits. -/
def bytesOf : List Nat → List UInt8
  | [a, b] => [UInt8.ofNat (a * 4 + b / 16)]
  | [a, b, c] => [UInt8.ofNat (a * 4 + b / 16), UInt8.ofNat (b * 16 + c / 4)]
  | [a, b, c, d] =>
    [UInt8.ofNat (a * 4 + b / 16), UInt8.ofNat (b * 16 + c / 4), UInt8.ofNat (c * 64 + d)]
  | _ => []

/-- Decodes a text; `group` holds the digits of the group begun, and `pads` counts the padding since
the last of them. -/
def decodeFrom (group : List Nat) (pads : Nat) : List Char → Option (List UInt8)
  | [] => if group.isEmpty then some [] else none
  | c :: cs =>
    if c = '=' then
      if 2 ≤ group.length ∧ 4 ≤ group.length + pads + 1 then some (bytesOf group)
      else decodeFrom group (if 2 ≤ group.length then pads + 1 else pads) cs
    else
      match digit? c with
      | none => decodeFrom group pads cs
      | some d =>
        if group.length = 3 then (decodeFrom [] 0 cs).map (bytesOf (group ++ [d]) ++ ·)
        else decodeFrom (group ++ [d]) 0 cs

/-- The bytes that an ASCII text writes. -/
def decode (text : List Char) : Reading (List UInt8) :=
  if text.all (·.toNat < 128) then
    match decodeFrom [] 0 text with
    | some bytes => .ok bytes
    | none => refuse .binary
  else refuse .binary

end ClassAtlas.Yaml.Binary
