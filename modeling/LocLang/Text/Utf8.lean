namespace LocLang.Text.Utf8

/-- The character shown for a byte that is not part of a well-formed sequence. -/
def replacement : Char := '�'

/-- Whether `b` can follow the first byte of a sequence. -/
def isTail (b : UInt8) : Bool :=
  0x80 ≤ b.toNat && b.toNat ≤ 0xBF

/-- The six bits that a following byte adds to the code point `n`. -/
def addTail (n : Nat) (b : UInt8) : Nat :=
  n * 64 + (b.toNat - 0x80)

/-- The character that starts with byte `a`, and how many of the following bytes belong to it. Overlong
    forms, surrogates and code points above the last plane are not well formed. -/
def first (a : UInt8) (following : List UInt8) : Char × Nat :=
  let n := a.toNat
  if n < 0x80 then (Char.ofNat n, 0)
  else if 0xC2 ≤ n && n ≤ 0xDF then
    match following with
    | b :: _ =>
      if isTail b then (Char.ofNat (addTail (n - 0xC0) b), 1) else (replacement, 0)
    | [] => (replacement, 0)
  else if 0xE0 ≤ n && n ≤ 0xEF then
    match following with
    | b :: c :: _ =>
      let code := addTail (addTail (n - 0xE0) b) c
      if isTail b && isTail c && 0x800 ≤ code && !(0xD800 ≤ code && code ≤ 0xDFFF) then
        (Char.ofNat code, 2)
      else (replacement, 0)
    | _ => (replacement, 0)
  else if 0xF0 ≤ n && n ≤ 0xF4 then
    match following with
    | b :: c :: d :: _ =>
      let code := addTail (addTail (addTail (n - 0xF0) b) c) d
      if isTail b && isTail c && isTail d && 0x10000 ≤ code && code ≤ 0x10FFFF then
        (Char.ofNat code, 3)
      else (replacement, 0)
    | _ => (replacement, 0)
  else (replacement, 0)

/-- Reads on after skipping `owed` bytes of a character that was already read. -/
def decodeAfter : Nat → List UInt8 → List Char
  | _, [] => []
  | owed + 1, _ :: bytes => decodeAfter owed bytes
  | 0, a :: bytes =>
    let (c, owed) := first a bytes
    c :: decodeAfter owed bytes

def decode (bytes : List UInt8) : List Char :=
  decodeAfter 0 bytes

def text (bytes : List UInt8) : String :=
  String.ofList (decode bytes)

def encode (s : String) : List UInt8 :=
  s.toUTF8.toList

end LocLang.Text.Utf8
