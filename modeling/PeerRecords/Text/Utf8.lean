/-
  UTF-8 over lists of bytes.
  `symbols` reads any bytes at all: a byte that belongs to no well-formed sequence becomes the
  symbol `none` and reading goes on at the next byte. So ASCII bytes always stand for themselves,
  and bytes are well-formed text exactly when no symbol is `none` (`decode?`).
-/

namespace PeerRecords.Utf8

/-- The bytes of one character, shortest form. -/
def encodeChar (c : Char) : List UInt8 :=
  let n := c.toNat
  if n < 0x80 then [.ofNat n]
  else if n < 0x800 then [.ofNat (0xC0 + n / 64), .ofNat (0x80 + n % 64)]
  else if n < 0x10000 then
    [.ofNat (0xE0 + n / 4096), .ofNat (0x80 + n / 64 % 64), .ofNat (0x80 + n % 64)]
  else
    [.ofNat (0xF0 + n / 262144), .ofNat (0x80 + n / 4096 % 64), .ofNat (0x80 + n / 64 % 64),
      .ofNat (0x80 + n % 64)]

/-- The bytes of a text. -/
def encode (cs : List Char) : List UInt8 := cs.flatMap encodeChar

/-- The six bits of a continuation byte. -/
def continuation? (b : UInt8) : Option Nat :=
  if 0x80 ≤ b.toNat ∧ b.toNat < 0xC0 then some (b.toNat - 0x80) else none

/-- The character of a code point that needs a sequence this long: at least `least`, and no
surrogate. -/
def scalar? (least n : Nat) : Option Char :=
  if least ≤ n ∧ n.isValidChar then some (Char.ofNat n) else none

/-- The first character and the number of bytes after its first. -/
def first? : List UInt8 → Option (Char × Nat)
  | [] => none
  | b :: rest =>
    let lead := b.toNat
    if lead < 0x80 then some (Char.ofNat lead, 0)
    else if lead < 0xC0 then none
    else if lead < 0xE0 then
      match rest with
      | b₁ :: _ => do
        let x ← continuation? b₁
        let c ← scalar? 0x80 ((lead - 0xC0) * 64 + x)
        some (c, 1)
      | _ => none
    else if lead < 0xF0 then
      match rest with
      | b₁ :: b₂ :: _ => do
        let x ← continuation? b₁
        let y ← continuation? b₂
        let c ← scalar? 0x800 ((lead - 0xE0) * 4096 + x * 64 + y)
        some (c, 2)
      | _ => none
    else if lead < 0xF8 then
      match rest with
      | b₁ :: b₂ :: b₃ :: _ => do
        let x ← continuation? b₁
        let y ← continuation? b₂
        let z ← continuation? b₃
        let c ← scalar? 0x10000 ((lead - 0xF0) * 262144 + x * 4096 + y * 64 + z)
        some (c, 3)
      | _ => none
    else none

/-- The symbols after passing over `skip` bytes. -/
def symbolsFrom : Nat → List UInt8 → List (Option Char)
  | _, [] => []
  | skip + 1, _ :: rest => symbolsFrom skip rest
  | 0, b :: rest =>
    match first? (b :: rest) with
    | some (c, more) => some c :: symbolsFrom more rest
    | none => none :: symbolsFrom 0 rest

/-- The symbols of a list of bytes: characters, and `none` for each byte that is part of none. -/
def symbols (bytes : List UInt8) : List (Option Char) := symbolsFrom 0 bytes

/-- The text of well-formed bytes. -/
def decode? (bytes : List UInt8) : Option (List Char) := (symbols bytes).mapM id

/-- The bytes of a string. -/
def bytes (s : String) : List UInt8 := encode s.toList

/-- The string of well-formed bytes. -/
def text? (bs : List UInt8) : Option String := (decode? bs).map String.ofList

end PeerRecords.Utf8
