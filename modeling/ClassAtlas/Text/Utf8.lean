import ClassAtlas.Text.Quoted
/-!
# UTF-8

Text as bytes and back. Bytes that are no text are refused at the first sequence that rules them
out; the fault names the bytes that belong to it.
-/
namespace ClassAtlas.Utf8

inductive Reason where
  | startByte
  | continuationByte
  | unexpectedEnd
deriving DecidableEq, Repr

def Reason.message : Reason → String
  | startByte => "invalid start byte"
  | continuationByte => "invalid continuation byte"
  | unexpectedEnd => "unexpected end of data"

/-- A fault of `length` bytes, the first of which is `byte` at `position`. -/
structure Fault where
  reason : Reason
  position : Nat
  length : Nat
  byte : UInt8
deriving DecidableEq, Repr

def Fault.message (f : Fault) : String :=
  let bytes :=
    if f.length = 1 then
      "byte 0x" ++ String.ofList (Text.hexDigits 2 f.byte.toNat) ++ " in position " ++
        Nat.repr f.position
    else "bytes in position " ++ Nat.repr f.position ++ "-" ++ Nat.repr (f.position + f.length - 1)
  "'utf-8' codec can't decode " ++ bytes ++ ": " ++ f.reason.message

/-- What a first byte asks for: how many more bytes, the bounds of the next one, and the high bits
that it gives. -/
structure Lead where
  more : Nat
  low : Nat
  high : Nat
  bits : Nat

def lead? (b : Nat) : Option Lead :=
  if b < 0xC2 then none
  else if b < 0xE0 then some ⟨1, 0x80, 0xBF, b - 0xC0⟩
  else if b < 0xF0 then
    some ⟨2, if b = 0xE0 then 0xA0 else 0x80, if b = 0xED then 0x9F else 0xBF, b - 0xE0⟩
  else if b < 0xF5 then
    some ⟨3, if b = 0xF0 then 0x90 else 0x80, if b = 0xF4 then 0x8F else 0xBF, b - 0xF0⟩
  else none

/-- Reads `more` bytes of a sequence, `seen` of which came before; gives the number that they
spell with the bytes left. -/
def readMore (low high : Nat) : Nat → Nat → Nat → List UInt8 → Except (Reason × Nat) (Nat × List UInt8)
  | 0, _, n, bs => .ok (n, bs)
  | _ + 1, seen, _, [] => .error (.unexpectedEnd, seen)
  | more + 1, seen, n, b :: bs =>
    if low ≤ b.toNat ∧ b.toNat ≤ high then readMore 0x80 0xBF more (seen + 1) (n * 64 + (b.toNat - 0x80)) bs
    else .error (.continuationByte, seen)

/-- Reads one character; `b` is its first byte. -/
def readChar (b : UInt8) (bs : List UInt8) : Except (Reason × Nat) (Char × List UInt8) :=
  if b.toNat < 0x80 then .ok (Char.ofNat b.toNat, bs)
  else
    match lead? b.toNat with
    | none => .error (.startByte, 1)
    | some l => (readMore l.low l.high l.more 1 l.bits bs).map fun (n, rest) => (Char.ofNat n, rest)

def decodeFrom (position : Nat) : Nat → List UInt8 → Except Fault (List Char)
  | _, [] => .ok []
  | 0, _ => .ok []
  | fuel + 1, b :: bs =>
    match readChar b bs with
    | .error (reason, length) => .error ⟨reason, position, length, b⟩
    | .ok (c, rest) =>
      (decodeFrom (position + (bs.length + 1 - rest.length)) fuel rest).map (c :: ·)

/-- The text of the bytes. Each character takes a byte at least, so the length bounds the steps. -/
def decode (bs : List UInt8) : Except Fault (List Char) := decodeFrom 0 bs.length bs

def encode (cs : List Char) : List UInt8 := cs.flatMap String.utf8EncodeChar

end ClassAtlas.Utf8
