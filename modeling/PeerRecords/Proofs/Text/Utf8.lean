import PeerRecords.Text.Utf8

/-
  Encoded text is read back.
  The bytes of a character start with a byte that says how many follow, so reading finds the
  character at the front of any list that its bytes start (`first?_encodeChar`), and the symbols of
  an encoded text are its characters (`symbols_encode`).
-/

namespace PeerRecords.Utf8

theorem toNat_ofNat {n : Nat} (h : n < 256) : (UInt8.ofNat n).toNat = n := by
  rw [UInt8.toNat_ofNat']
  exact Nat.mod_eq_of_lt h

theorem continuation?_ofNat {n : Nat} (h : n < 64) :
    continuation? (.ofNat (0x80 + n)) = some n := by
  have hn : (UInt8.ofNat (0x80 + n)).toNat = 0x80 + n := toNat_ofNat (by omega)
  rw [continuation?, hn, if_pos (by omega), Nat.add_sub_cancel_left]

theorem isValidChar_toNat (c : Char) : c.toNat.isValidChar := c.valid

theorem toNat_lt (c : Char) : c.toNat < 0x110000 := by
  have h := isValidChar_toNat c
  unfold Nat.isValidChar at h
  omega

theorem scalar?_toNat {least n : Nat} {c : Char} (hn : n = c.toNat) (h : least ≤ n) :
    scalar? least n = some c := by
  subst hn
  rw [scalar?, if_pos ⟨h, isValidChar_toNat c⟩, Char.ofNat_toNat]

/-! ## One character

The bytes of a character are read as that character, whatever follows. -/

theorem first?_one {n : Nat} (h : n < 0x80) (rest : List UInt8) :
    first? (.ofNat n :: rest) = some (Char.ofNat n, 0) := by
  have hlead := toNat_ofNat (n := n) (by omega)
  simp only [first?, hlead, if_pos h]

theorem first?_two {u x : Nat} {c : Char} (hu : u < 32) (hx : x < 64)
    (hc : scalar? 0x80 (u * 64 + x) = some c) (rest : List UInt8) :
    first? (.ofNat (0xC0 + u) :: .ofNat (0x80 + x) :: rest) = some (c, 1) := by
  have hlead := toNat_ofNat (n := 0xC0 + u) (by omega)
  simp only [first?, hlead, continuation?_ofNat hx, Nat.add_sub_cancel_left]
  rw [if_neg (by omega), if_neg (by omega), if_pos (by omega)]
  rw [Option.bind_eq_bind, Option.bind_some, hc]
  rfl

theorem first?_three {u x y : Nat} {c : Char} (hu : u < 16) (hx : x < 64) (hy : y < 64)
    (hc : scalar? 0x800 (u * 4096 + x * 64 + y) = some c) (rest : List UInt8) :
    first? (.ofNat (0xE0 + u) :: .ofNat (0x80 + x) :: .ofNat (0x80 + y) :: rest) =
      some (c, 2) := by
  have hlead := toNat_ofNat (n := 0xE0 + u) (by omega)
  simp only [first?, hlead, continuation?_ofNat hx, continuation?_ofNat hy,
    Nat.add_sub_cancel_left]
  rw [if_neg (by omega), if_neg (by omega), if_neg (by omega), if_pos (by omega)]
  rw [Option.bind_eq_bind, Option.bind_some, Option.bind_some, hc]
  rfl

theorem first?_four {u x y z : Nat} {c : Char} (hu : u < 8) (hx : x < 64) (hy : y < 64)
    (hz : z < 64) (hc : scalar? 0x10000 (u * 262144 + x * 4096 + y * 64 + z) = some c)
    (rest : List UInt8) :
    first? (.ofNat (0xF0 + u) :: .ofNat (0x80 + x) :: .ofNat (0x80 + y) :: .ofNat (0x80 + z)
      :: rest) = some (c, 3) := by
  have hlead := toNat_ofNat (n := 0xF0 + u) (by omega)
  simp only [first?, hlead, continuation?_ofNat hx, continuation?_ofNat hy,
    continuation?_ofNat hz, Nat.add_sub_cancel_left]
  rw [if_neg (by omega), if_neg (by omega), if_neg (by omega), if_neg (by omega),
    if_pos (by omega)]
  rw [Option.bind_eq_bind, Option.bind_some, Option.bind_some, Option.bind_some, hc]
  rfl

theorem first?_encodeChar (c : Char) (rest : List UInt8) :
    first? (encodeChar c ++ rest) = some (c, (encodeChar c).length - 1) := by
  have hc := toNat_lt c
  have hlast : c.toNat % 64 < 64 := Nat.mod_lt _ (by decide)
  have hmiddle : c.toNat / 64 % 64 < 64 := Nat.mod_lt _ (by decide)
  unfold encodeChar
  dsimp only
  split
  · rename_i h
    exact (first?_one h rest).trans (by rw [Char.ofNat_toNat]; rfl)
  · rename_i hone
    split
    · rename_i h
      exact first?_two (by omega) hlast (scalar?_toNat (by omega) (by omega)) rest
    · rename_i htwo
      split
      · rename_i h
        exact first?_three (by omega) hmiddle hlast (scalar?_toNat (by omega) (by omega)) rest
      · rename_i hthree
        exact first?_four (by omega) (Nat.mod_lt _ (by decide)) hmiddle hlast
          (scalar?_toNat (by omega) (by omega)) rest

theorem encodeChar_ne_nil (c : Char) : encodeChar c ≠ [] := by
  unfold encodeChar
  dsimp only
  repeat' split
  all_goals exact List.cons_ne_nil _ _

theorem symbolsFrom_length (skipped rest : List UInt8) :
    symbolsFrom skipped.length (skipped ++ rest) = symbolsFrom 0 rest := by
  induction skipped with
  | nil => rfl
  | cons b skipped ih => exact ih

/-! ## Texts -/

/-- A character's bytes are one symbol. -/
theorem symbolsFrom_encodeChar (c : Char) (rest : List UInt8) :
    symbolsFrom 0 (encodeChar c ++ rest) = some c :: symbolsFrom 0 rest := by
  have hfirst := first?_encodeChar c rest
  obtain ⟨b, bs, hb⟩ := List.exists_cons_of_ne_nil (encodeChar_ne_nil c)
  rw [hb, List.cons_append] at hfirst ⊢
  rw [symbolsFrom, hfirst]
  exact congrArg _ (symbolsFrom_length bs rest)

/-- The symbols of an encoded text are its characters. -/
theorem symbols_encode (cs : List Char) : symbols (encode cs) = cs.map some := by
  induction cs with
  | nil => rfl
  | cons c cs ih =>
    rw [symbols, encode, List.flatMap_cons, symbolsFrom_encodeChar, List.map_cons]
    exact congrArg _ ih

theorem decode?_encode (cs : List Char) : decode? (encode cs) = some cs := by
  rw [decode?, symbols_encode]
  induction cs with
  | nil => rfl
  | cons c cs ih => simp only [List.map_cons, List.mapM_cons, ih]; rfl

/-- Texts with the same bytes are the same. -/
theorem encode_inj {cs ds : List Char} (h : encode cs = encode ds) : cs = ds := by
  have hdecode := congrArg decode? h
  rw [decode?_encode, decode?_encode] at hdecode
  exact Option.some.inj hdecode

/-- The bytes of a string are read as that string. -/
@[simp] theorem text?_bytes (s : String) : text? (bytes s) = some s := by
  rw [text?, bytes, decode?_encode, Option.map_some, String.ofList_toList]

theorem bytes_inj {s t : String} (h : bytes s = bytes t) : s = t :=
  String.toList_injective (encode_inj h)

end PeerRecords.Utf8
