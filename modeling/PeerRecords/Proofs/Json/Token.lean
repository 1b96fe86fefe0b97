import PeerRecords.Json.Token
import PeerRecords.Json.Printer
import PeerRecords.Proofs.Numeral

/-
  The tokens of printed text.
  A text spells tokens when reading it yields them and goes on with what follows (`Spells`), as long
  as that cannot continue a number (`Ends`). Marks, words, strings (`spells_string`) and numbers in
  plain digits (`spells_nat`) spell themselves; `Spells.append` puts texts together.
-/

namespace PeerRecords

theorem Hex.value?_digit {n : Nat} (h : n < 16) : Hex.value? (Hex.digit n) = some n := by
  have hall : ∀ n < 16, Hex.value? (Hex.digit n) = some n := by decide
  exact hall n h

namespace Json

/-! ## Strings -/

theorem readPieces_quote (rest : List Symbol) :
    readPieces (some '"' :: rest) = some ([], rest) := by
  rw [readPieces.eq_def]
  rfl

/-- A character that is neither a quote, nor a backslash, nor a control stands for itself. -/
theorem readPieces_plain {c : Char} (hquote : c ≠ '"') (hslash : c ≠ '\\') (hc : ¬ c.toNat < 0x20)
    (rest : List Symbol) :
    readPieces (some c :: rest) = (readPieces rest).map fun r => (.char c :: r.1, r.2) := by
  rw [readPieces.eq_def]
  simp only [if_neg hquote, if_neg hslash, if_neg hc]

/-- A one-letter escape stands for its character. -/
theorem readPieces_short {e d : Char} (he : e ≠ 'u') (hd : shortEscape? e = some d)
    (rest : List Symbol) :
    readPieces (some '\\' :: some e :: rest) =
      (readPieces rest).map fun r => (.char d :: r.1, r.2) := by
  rw [readPieces.eq_def]
  simp only [Char.reduceEq, if_false, if_true]
  split
  · rename_i h
    cases h
    exact absurd rfl he
  · rename_i h
    cases h
    rw [hd]
  · rename_i _ h
    exact absurd rfl (h _ _)

/-- Four digits of a number below 256, written as controls are. -/
theorem fourDigits?_control {n : Nat} (h : n < 256) :
    fourDigits? (some '0') (some '0') (some (Hex.digit (n / 16))) (some (Hex.digit (n % 16)))
      = some n := by
  have hhigh := Hex.value?_digit (n := n / 16) (by omega)
  have hlow := Hex.value?_digit (n := n % 16) (by omega)
  have hzero : Hex.value? '0' = some 0 := by decide
  simp only [fourDigits?, Hex.number?, List.foldlM_cons, List.foldlM_nil, hzero, hhigh, hlow,
    Option.bind_eq_bind, Option.bind_some, Option.map_some, Option.pure_def]
  exact congrArg some (by omega)

/-- A character is printed as a one-letter escape, as the number of a control, or as itself. -/
theorem escapedChar_cases (c : Char) :
    (∃ e, e ≠ 'u' ∧ shortEscape? e = some c ∧ escapedChar c = ['\\', e]) ∨
    (c.toNat < 0x20 ∧ escapedChar c =
      ['\\', 'u', '0', '0', Hex.digit (c.toNat / 16), Hex.digit (c.toNat % 16)]) ∨
    (c ≠ '"' ∧ c ≠ '\\' ∧ ¬ c.toNat < 0x20 ∧ escapedChar c = [c]) := by
  have hshort : ∀ d e, c = d → e ≠ 'u' → shortEscape? e = some d → escapedChar d = ['\\', e] →
      ∃ e, e ≠ 'u' ∧ shortEscape? e = some c ∧ escapedChar c = ['\\', e] := by
    rintro d e rfl he hd hc
    exact ⟨e, he, hd, hc⟩
  by_cases hquote : c = '"'
  · exact .inl (hshort _ '"' hquote (by decide) rfl rfl)
  by_cases hslash : c = '\\'
  · exact .inl (hshort _ '\\' hslash (by decide) rfl rfl)
  by_cases hb : c = '\x08'
  · exact .inl (hshort _ 'b' hb (by decide) rfl rfl)
  by_cases hf : c = '\x0c'
  · exact .inl (hshort _ 'f' hf (by decide) rfl rfl)
  by_cases hn : c = '\n'
  · exact .inl (hshort _ 'n' hn (by decide) rfl rfl)
  by_cases hr : c = '\r'
  · exact .inl (hshort _ 'r' hr (by decide) rfl rfl)
  by_cases ht : c = '\t'
  · exact .inl (hshort _ 't' ht (by decide) rfl rfl)
  simp only [escapedChar, hquote, hslash, hb, hf, hn, hr, ht, if_false]
  by_cases hcontrol : c.toNat < 0x20
  · exact .inr (.inl ⟨hcontrol, if_pos hcontrol⟩)
  · exact .inr (.inr ⟨hquote, hslash, hcontrol, if_neg hcontrol⟩)

/-- What a printed character is read as: itself, or the number of its escape. -/
theorem exists_piece (c : Char) : ∃ p : Piece,
    (∀ rest, readPieces ((escapedChar c).map some ++ rest) =
      (readPieces rest).map fun r => (p :: r.1, r.2)) ∧
    ∀ ps, decodePieces (p :: ps) = (decodePieces ps).map (c :: ·) := by
  obtain ⟨e, he, hshort, hc⟩ | ⟨hcontrol, hc⟩ | ⟨hquote, hslash, hcontrol, hc⟩ :=
    escapedChar_cases c
  · rw [hc]
    exact ⟨.char c, fun rest => readPieces_short he hshort rest, fun ps => rfl⟩
  · rw [hc]
    refine ⟨.code c.toNat, fun rest => ?_, fun ps => ?_⟩
    · have hfour := fourDigits?_control (n := c.toNat) (by omega)
      simp only [List.map_cons, List.map_nil, List.cons_append, List.nil_append, readPieces, hfour]
      rfl
    · -- a control is no surrogate
      have hhigh : isHighSurrogate c.toNat = false := by
        rw [isHighSurrogate, decide_eq_false_iff_not]
        omega
      have hlow : isLowSurrogate c.toNat = false := by
        rw [isLowSurrogate, decide_eq_false_iff_not]
        omega
      rw [decodePieces.eq_def]
      simp only [hhigh, hlow, Bool.false_eq_true, if_false, Char.ofNat_toNat]
  · rw [hc]
    exact ⟨.char c, fun rest => readPieces_plain hquote hslash hcontrol rest, fun ps => rfl⟩

/-- A printed string is read up to its closing quote, and decodes to itself. -/
theorem exists_pieces (cs : List Char) (rest : List Symbol) : ∃ ps,
    readPieces ((cs.flatMap escapedChar ++ ['"']).map some ++ rest) = some (ps, rest) ∧
      decodePieces ps = some cs := by
  induction cs with
  | nil => exact ⟨[], readPieces_quote rest, rfl⟩
  | cons c cs ih =>
    obtain ⟨ps, hread, hdecode⟩ := ih
    obtain ⟨p, hp, hc⟩ := exists_piece c
    refine ⟨p :: ps, ?_, by rw [hc, hdecode]; rfl⟩
    rw [List.flatMap_cons, List.append_assoc, List.map_append, List.append_assoc, hp, hread]
    rfl

theorem readToken_quote (cs : List Char) (rest : List Symbol) :
    readToken '"' ((cs.flatMap escapedChar ++ ['"']).map some ++ rest) =
      some (.string (some (String.ofList cs)), rest) := by
  obtain ⟨ps, hread, hdecode⟩ := exists_pieces cs rest
  simp only [readToken, Char.reduceEq, if_false, if_true, hread, Option.map_some, hdecode]

/-! ## Numbers -/

/-- What cannot continue a number. -/
def Ends (rest : List Symbol) : Prop :=
  ∀ c, rest.head? = some (some c) → c.isDigit = false ∧ c ≠ '.' ∧ c ≠ 'e' ∧ c ≠ 'E'

theorem ends_nil : Ends [] := by
  intro c h
  cases h

theorem ends_cons {c : Char} {rest : List Symbol}
    (h : c.isDigit = false ∧ c ≠ '.' ∧ c ≠ 'e' ∧ c ≠ 'E') : Ends (some c :: rest) := by
  intro d hd
  cases hd
  exact h

theorem digitRun_ends {rest : List Symbol} (h : Ends rest) : digitRun rest = ([], rest) := by
  match rest with
  | [] => rfl
  | none :: rest => rfl
  | some c :: rest =>
    rw [digitRun, (h c rfl).1]
    rfl

theorem digitRun_append {cs : List Char} {rest : List Symbol} (hcs : ∀ c ∈ cs, c.isDigit = true)
    (h : Ends rest) : digitRun (cs.map some ++ rest) = (cs, rest) := by
  induction cs with
  | nil => exact digitRun_ends h
  | cons c cs ih =>
    rw [List.map_cons, List.cons_append, digitRun, if_pos (hcs c List.mem_cons_self),
      ih fun d hd => hcs d (List.mem_cons_of_mem _ hd)]

theorem readFraction_ends {rest : List Symbol} (h : Ends rest) :
    readFraction rest = some ([], rest) := by
  unfold readFraction
  split
  · exact absurd rfl (h '.' rfl).2.1
  · rfl

theorem readExponent_ends {rest : List Symbol} (h : Ends rest) :
    readExponent rest = some (none, rest) := by
  unfold readExponent
  split
  · exact absurd rfl (h 'e' rfl).2.2.1
  · exact absurd rfl (h 'E' rfl).2.2.2
  · rfl

/-- The digits of a number are read as that number. -/
theorem readNumber_digits (n : Nat) {rest : List Symbol} (h : Ends rest) :
    readNumber ((Numeral.digits n).map some ++ rest) = some (.ofNat n, rest) := by
  have hrun := digitRun_append (fun _ => Numeral.isDigit_of_mem_digits (n := n)) h
  have hsome : (Numeral.digits n).isEmpty = false := by
    rw [List.isEmpty_eq_false_iff]
    exact Numeral.digits_ne_nil n
  have hzero :
      ((Numeral.digits n).head? == some '0' && (Numeral.digits n).length != 1) = false := by
    rw [Bool.and_eq_false_imp, beq_iff_eq]
    intro hhead
    rw [Numeral.length_digits_of_head? hhead]
    rfl
  have hunsigned : readUnsigned false ((Numeral.digits n).map some ++ rest) =
      some (.ofNat n, rest) := by
    simp only [readUnsigned, hrun, hsome, hzero, Bool.or_self, Bool.false_eq_true, if_false,
      readFraction_ends h, readExponent_ends h, Option.bind_eq_bind, Option.bind_some]
    rfl
  unfold readNumber
  split
  · rename_i rest' he
    -- digits do not start with a minus sign
    obtain ⟨c, cs, hcs⟩ := List.exists_cons_of_ne_nil (Numeral.digits_ne_nil n)
    rw [hcs] at he
    cases he
    have hc : '-' ∈ Numeral.digits n := hcs ▸ List.mem_cons_self
    exact absurd hc (Numeral.not_mem_digits (by decide))
  · exact hunsigned

theorem readToken_digits (n : Nat) {c : Char} {cs : List Char} (hcs : Numeral.digits n = c :: cs)
    {rest : List Symbol} (h : Ends rest) :
    readToken c (cs.map some ++ rest) = some (.number (.ofNat n), rest) := by
  have hread := readNumber_digits n h
  have hc : ∀ d : Char, d.isDigit = false → c ≠ d := by
    rintro d hd rfl
    exact Numeral.not_mem_digits hd (hcs ▸ List.mem_cons_self)
  rw [hcs, List.map_cons, List.cons_append] at hread
  rw [readToken, if_neg (hc _ (by decide)), if_neg (hc _ (by decide)), if_neg (hc _ (by decide)),
    if_neg (hc _ (by decide)), if_neg (hc _ (by decide)), if_neg (hc _ (by decide)),
    if_neg (hc _ (by decide)), if_neg (hc _ (by decide)), if_neg (hc _ (by decide)),
    if_neg (hc _ (by decide)), hread]
  rfl

/-! ## Texts and their tokens -/

/-- Reading the text yields the tokens, whatever follows and however much fuel is left. -/
structure Spells (cs : List Char) (ts : List Token) : Prop where
  length_le : ts.length ≤ cs.length
  read : ∀ fuel rest, Ends rest →
    tokensUpTo (fuel + ts.length) (cs.map some ++ rest) = (tokensUpTo fuel rest).map (ts ++ ·)

theorem tokensUpTo_cons {fuel : Nat} {c : Char} {rest rest' : List Symbol} {t : Token}
    (hblank : isBlank c = false) (h : readToken c rest = some (t, rest')) :
    tokensUpTo (fuel + 1) (some c :: rest) = (tokensUpTo fuel rest').map (t :: ·) := by
  rw [tokensUpTo, hblank, h]
  rfl

/-- A text whose first character starts a token spells it. -/
theorem spells_of_readToken {c : Char} {cs : List Char} {t : Token} (hblank : isBlank c = false)
    (h : ∀ rest, Ends rest → readToken c (cs.map some ++ rest) = some (t, rest)) :
    Spells (c :: cs) [t] where
  length_le := Nat.le_add_left _ _
  read _ rest hrest := tokensUpTo_cons hblank (h rest hrest)

/-- Two texts spell the tokens of both, if the second cannot continue the first. -/
theorem Spells.append {cs ds : List Char} {ts us : List Token} (hcs : Spells cs ts)
    (hds : Spells ds us) (h : ∀ rest, Ends rest → Ends (ds.map some ++ rest)) :
    Spells (cs ++ ds) (ts ++ us) where
  length_le := by
    rw [List.length_append, List.length_append]
    exact Nat.add_le_add hcs.length_le hds.length_le
  read fuel rest hrest := by
    rw [List.length_append, Nat.add_comm ts.length, ← Nat.add_assoc, List.map_append,
      List.append_assoc, hcs.read _ _ (h rest hrest), hds.read _ _ hrest, Option.map_map]
    refine congrArg (Option.map · _) (funext fun vs => ?_)
    exact (List.append_assoc ts us vs).symm

/-- A mark before a text spells itself. -/
theorem Spells.mark {c : Char} {t : Token} {ds : List Char} {us : List Token}
    (hds : Spells ds us) (hblank : isBlank c = false)
    (h : ∀ rest, readToken c rest = some (t, rest)) : Spells (c :: ds) (t :: us) where
  length_le := Nat.succ_le_succ hds.length_le
  read fuel rest hrest := by
    rw [List.map_cons, List.cons_append, List.length_cons, ← Nat.add_assoc,
      tokensUpTo_cons hblank (h _), hds.read _ _ hrest, Option.map_map]
    rfl

/-- A string before a text spells itself, whatever the text. -/
theorem Spells.string {s : String} {ds : List Char} {us : List Token} (hds : Spells ds us) :
    Spells (optionText (some s) ++ ds) (.string (some s) :: us) where
  length_le := by
    rw [List.length_append, List.length_cons]
    have h : 1 ≤ (optionText (some s)).length := Nat.le_add_left _ _
    have hlen := hds.length_le
    omega
  read fuel rest hrest := by
    have hquote := readToken_quote s.toList (ds.map some ++ rest)
    rw [String.ofList_toList] at hquote
    rw [List.length_cons, ← Nat.add_assoc, List.map_append, List.append_assoc]
    rw [optionText, stringText, Option.getD_some, List.map_cons, List.cons_append,
      tokensUpTo_cons (by decide) hquote, hds.read _ _ hrest, Option.map_map]
    rfl

theorem spells_nil : Spells [] [] where
  length_le := Nat.le_refl _
  read fuel rest _ := by
    show tokensUpTo fuel rest = (tokensUpTo fuel rest).map id
    rw [Option.map_id, id]

theorem spells_string (s : String) : Spells (optionText (some s)) [.string (some s)] := by
  have h := Spells.string (s := s) spells_nil
  rwa [List.append_nil] at h

theorem spells_nat (n : Nat) : Spells (numberText (.ofNat n)) [.number (.ofNat n)] := by
  obtain ⟨c, cs, hcs⟩ := List.exists_cons_of_ne_nil (Numeral.digits_ne_nil n)
  have htext : numberText (.ofNat n) = c :: cs := by
    rw [← hcs]
    simp [numberText, Number.ofNat]
  have hc : ∀ d : Char, d.isDigit = false → c ≠ d := by
    rintro d hd rfl
    exact Numeral.not_mem_digits hd (hcs ▸ List.mem_cons_self)
  have hblank : isBlank c = false := by
    simp only [isBlank, Bool.or_eq_false_iff, beq_eq_false_iff_ne]
    exact ⟨⟨⟨hc _ (by decide), hc _ (by decide)⟩, hc _ (by decide)⟩, hc _ (by decide)⟩
  rw [htext]
  exact spells_of_readToken hblank fun rest hrest => readToken_digits n hcs hrest

/-- Printed text is read in as many steps as it has characters. -/
theorem tokens_of_spells {cs : List Char} {ts : List Token} (h : Spells cs ts) :
    tokens (cs.map some) = some ts := by
  have hread := h.read (cs.length - ts.length) [] ends_nil
  rw [Nat.sub_add_cancel h.length_le, List.append_nil] at hread
  rw [tokens, List.length_map, hread]
  cases cs.length - ts.length <;> simp [tokensUpTo]

end Json

end PeerRecords
