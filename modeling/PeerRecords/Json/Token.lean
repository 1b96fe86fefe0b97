import PeerRecords.Json.Basic
import PeerRecords.Bytes

/-
  JSON text as tokens.
  Text is a list of symbols: characters, and `none` for a byte that belongs to none. Every token
  starts at its first character and ends before a character that cannot continue it; blanks lie
  between tokens only. A string token is first a list of pieces, each a character or the number
  of a `\u` escape, and then the string that these decode to, if any.
-/

namespace PeerRecords.Json

/-- A character, or a byte that is part of none. -/
abbrev Symbol := Option Char

/-- The smallest parts of JSON text that have a meaning. -/
inductive Token where
  | openArray
  | closeArray
  | openObject
  | closeObject
  | comma
  | colon
  | null
  | bool (b : Bool)
  | number (x : Number)
  | string (s : Option String)
deriving DecidableEq, Repr

/-! ## Strings -/

/-- A part of a string: a character, the number of a `\u` escape, or a byte that is no character. -/
inductive Piece where
  | char (c : Char)
  | code (n : Nat)
  | bad
deriving DecidableEq, Repr

/-- The character of a one-letter escape. -/
def shortEscape? (c : Char) : Option Char :=
  if c = '"' ∨ c = '\\' ∨ c = '/' then some c
  else if c = 'b' then some '\x08'
  else if c = 'f' then some '\x0c'
  else if c = 'n' then some '\n'
  else if c = 'r' then some '\r'
  else if c = 't' then some '\t'
  else none

/-- The number of four hexadecimal digits. -/
def fourDigits? (a b c d : Symbol) : Option Nat := do
  Hex.number? [← a, ← b, ← c, ← d]

/-- The pieces up to the closing quote, and the symbols after it. -/
def readPieces : List Symbol → Option (List Piece × List Symbol)
  | [] => none
  | none :: rest => (readPieces rest).map fun r => (.bad :: r.1, r.2)
  | some c :: rest =>
    if c = '"' then some ([], rest)
    else if c = '\\' then
      match rest with
      | some 'u' :: x :: y :: z :: w :: rest' =>
        match fourDigits? x y z w with
        | some n => (readPieces rest').map fun r => (.code n :: r.1, r.2)
        | none => none
      | some e :: rest' =>
        match shortEscape? e with
        | some d => (readPieces rest').map fun r => (.char d :: r.1, r.2)
        | none => none
      | _ => none
    else if c.toNat < 0x20 then none
    else (readPieces rest).map fun r => (.char c :: r.1, r.2)

/-- Whether a number is the first of a surrogate pair. -/
def isHighSurrogate (n : Nat) : Bool := decide (0xD800 ≤ n ∧ n < 0xDC00)

/-- Whether a number is the second of a surrogate pair. -/
def isLowSurrogate (n : Nat) : Bool := decide (0xDC00 ≤ n ∧ n < 0xE000)

/-- The characters that pieces stand for; surrogates count only in pairs. -/
def decodePieces : List Piece → Option (List Char)
  | [] => some []
  | .char c :: ps => (decodePieces ps).map (c :: ·)
  | .bad :: _ => none
  | .code n :: ps =>
    if isHighSurrogate n then
      match ps with
      | .code m :: ps' =>
        if isLowSurrogate m then
          (decodePieces ps').map
            (Char.ofNat (0x10000 + (n - 0xD800) * 0x400 + (m - 0xDC00)) :: ·)
        else none
      | _ => none
    else if isLowSurrogate n then none
    else (decodePieces ps).map (Char.ofNat n :: ·)

/-! ## Numbers -/

/-- The digits at the front, and the symbols after them. -/
def digitRun : List Symbol → List Char × List Symbol
  | some c :: rest =>
    if c.isDigit then
      let r := digitRun rest
      (c :: r.1, r.2)
    else ([], some c :: rest)
  | rest => ([], rest)

/-- The digits after a point, at least one; none without a point. -/
def readFraction : List Symbol → Option (List Char × List Symbol)
  | some '.' :: rest =>
    let r := digitRun rest
    if r.1.isEmpty then none else some r
  | rest => some ([], rest)

/-- The sign and the digits, at least one, after the letter of an exponent. -/
def readSigned : List Symbol → Option ((Bool × List Char) × List Symbol)
  | some '-' :: rest =>
    let r := digitRun rest
    if r.1.isEmpty then none else some ((true, r.1), r.2)
  | some '+' :: rest =>
    let r := digitRun rest
    if r.1.isEmpty then none else some ((false, r.1), r.2)
  | rest =>
    let r := digitRun rest
    if r.1.isEmpty then none else some ((false, r.1), r.2)

/-- The exponent, if there is one. -/
def readExponent : List Symbol → Option (Option (Bool × List Char) × List Symbol)
  | some 'e' :: rest => (readSigned rest).map fun r => (some r.1, r.2)
  | some 'E' :: rest => (readSigned rest).map fun r => (some r.1, r.2)
  | rest => some (none, rest)

/-- A number after its sign: no digit before the point but a zero that stands alone. -/
def readUnsigned (negative : Bool) (symbols : List Symbol) : Option (Number × List Symbol) := do
  let whole := digitRun symbols
  if whole.1.isEmpty || (whole.1.head? == some '0' && whole.1.length != 1) then none
  else
    let fraction ← readFraction whole.2
    let exponent ← readExponent fraction.2
    some (⟨negative, whole.1, fraction.1, exponent.1⟩, exponent.2)

/-- A number. -/
def readNumber : List Symbol → Option (Number × List Symbol)
  | some '-' :: rest => readUnsigned true rest
  | symbols => readUnsigned false symbols

/-! ## Tokens -/

/-- Space, tab, line feed and carriage return. -/
def isBlank (c : Char) : Bool := c == ' ' || c == '\t' || c == '\n' || c == '\r'

/-- The symbols after a word. -/
def dropWord : List Char → List Symbol → Option (List Symbol)
  | [], rest => some rest
  | c :: cs, some d :: rest => if c = d then dropWord cs rest else none
  | _ :: _, _ => none

/-- The token that starts with the character `c`, and the symbols after it. -/
def readToken (c : Char) (rest : List Symbol) : Option (Token × List Symbol) :=
  if c = '[' then some (.openArray, rest)
  else if c = ']' then some (.closeArray, rest)
  else if c = '\x7b' then some (.openObject, rest)
  else if c = '\x7d' then some (.closeObject, rest)
  else if c = ',' then some (.comma, rest)
  else if c = ':' then some (.colon, rest)
  else if c = '"' then
    (readPieces rest).map fun r => (.string ((decodePieces r.1).map String.ofList), r.2)
  else if c = 'n' then (dropWord ['u', 'l', 'l'] rest).map fun r => (.null, r)
  else if c = 't' then (dropWord ['r', 'u', 'e'] rest).map fun r => (.bool true, r)
  else if c = 'f' then (dropWord ['a', 'l', 's', 'e'] rest).map fun r => (.bool false, r)
  else (readNumber (some c :: rest)).map fun r => (.number r.1, r.2)

/-- The tokens of a text with at most `fuel` tokens and blanks. -/
def tokensUpTo : Nat → List Symbol → Option (List Token)
  | _, [] => some []
  | 0, _ :: _ => none
  | _ + 1, none :: _ => none
  | fuel + 1, some c :: rest =>
    if isBlank c then tokensUpTo fuel rest
    else match readToken c rest with
      | some (t, rest') => (tokensUpTo fuel rest').map (t :: ·)
      | none => none

/-- The tokens of a text. -/
def tokens (symbols : List Symbol) : Option (List Token) := tokensUpTo symbols.length symbols

end PeerRecords.Json
