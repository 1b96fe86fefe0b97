import PeerRecords.Decimal

/-
  Whole numbers are read back from their text.
  The digits of a number are digits, there is one, and none but zero starts with a zero; so every
  reader takes them: a literal (`literal?_text`) as well as an exponent after its sign.
-/

namespace PeerRecords.Numeral

/-! ## Digits -/

theorem isDigit_of_mem_digits {n : Nat} {c : Char} (h : c ∈ digits n) : c.isDigit = true :=
  Nat.isDigit_of_mem_toDigits (by decide : 0 < 10) (by decide) h

theorem digits_ne_nil (n : Nat) : digits n ≠ [] := Nat.toDigits_ne_nil

theorem ofDigitChars_digits (n : Nat) : Nat.ofDigitChars 10 (digits n) 0 = n :=
  Nat.ofDigitChars_ten_toDigits

/-- The digits of a number other than zero do not start with a zero. -/
theorem head?_digits {n : Nat} (h : n ≠ 0) : (digits n).head? ≠ some '0' := by
  induction n using Nat.strongRecOn with
  | ind n ih =>
    unfold digits
    by_cases hn : n < 10
    · rw [Nat.toDigits_of_lt_base hn, List.head?_cons]
      simpa using h
    · have hq := ih (n / 10) (by omega) (by omega)
      rw [Nat.toDigits_of_base_le (by decide) (by omega), List.head?_append]
      obtain ⟨c, cs, hcs⟩ :=
        List.exists_cons_of_ne_nil (Nat.toDigits_ne_nil (n := n / 10) (b := 10))
      rw [digits, hcs] at hq
      rw [hcs]
      exact hq

/-- A zero stands alone at the front of the digits of a number. -/
theorem length_digits_of_head? {n : Nat} (h : (digits n).head? = some '0') :
    (digits n).length = 1 := by
  have hn : n = 0 := Decidable.byContradiction fun hn => head?_digits hn h
  rw [hn]
  rfl

theorem ne_of_isDigit {c m : Char} (hc : c.isDigit = true) (hm : m.isDigit = false) : c ≠ m := by
  rintro rfl
  rw [hc] at hm
  cases hm

/-- A character that is no digit is not among the digits of a number. -/
theorem not_mem_digits {n : Nat} {c : Char} (hc : c.isDigit = false) : c ∉ digits n :=
  fun h => ne_of_isDigit (isDigit_of_mem_digits h) hc rfl

/-! ## Literals -/

/-- Grouped digits without underscores are digits. -/
theorem grouped?_of_digits {cs : List Char} (hne : cs ≠ []) (h : ∀ c ∈ cs, c.isDigit = true) :
    grouped? cs = some (Nat.ofDigitChars 10 cs 0) := by
  obtain ⟨c, cs, rfl⟩ := List.exists_cons_of_ne_nil hne
  have hne' : ∀ d ∈ c :: cs, d ≠ '_' := fun d hd => ne_of_isDigit (h d hd) rfl
  have hall : ((c :: cs).all fun d => d.isDigit || d == '_') = true := by
    rw [List.all_eq_true]
    intro d hd
    rw [h d hd, Bool.true_or]
  have hfilter : (c :: cs).filter (· != '_') = c :: cs := by
    rw [List.filter_eq_self]
    intro d hd
    exact bne_iff_ne.2 (hne' d hd)
  rw [grouped?, if_pos ⟨hne' c List.mem_cons_self, hall⟩, hfilter]

/-- Digits without a sign are a literal. -/
theorem literal?_of_digits {cs : List Char} (hne : cs ≠ []) (h : ∀ c ∈ cs, c.isDigit = true) :
    literal? cs = some (Nat.ofDigitChars 10 cs 0 : Int) := by
  have hgroup := grouped?_of_digits hne h
  obtain ⟨c, cs, rfl⟩ := List.exists_cons_of_ne_nil hne
  have hc := h c List.mem_cons_self
  unfold literal?
  split
  · rename_i he
    cases he
    exact absurd hc (by decide)
  · rename_i he
    cases he
    exact absurd hc (by decide)
  · rw [hgroup]
    rfl

/-- Digits with a minus sign before them if the number is negative. -/
def withSign (i : Int) (cs : List Char) : List Char := if i < 0 then '-' :: cs else cs

theorem withSign_append (i : Int) (cs ds : List Char) :
    withSign i (cs ++ ds) = withSign i cs ++ ds := by
  unfold withSign
  split <;> rfl

theorem mem_withSign {i : Int} {cs : List Char} {c : Char} (h : c ∈ withSign i cs) :
    c = '-' ∨ c ∈ cs := by
  unfold withSign at h
  split at h
  · exact List.mem_cons.1 h
  · exact .inr h

/-- Digits of the size of a number, with its sign, are a literal of the number. -/
theorem literal?_withSign {i : Int} {cs : List Char} (hne : cs ≠ [])
    (h : ∀ c ∈ cs, c.isDigit = true) (hvalue : Nat.ofDigitChars 10 cs 0 = i.natAbs) :
    literal? (withSign i cs) = some i := by
  unfold withSign
  split
  · have hneg : -(i.natAbs : Int) = i := by omega
    rw [literal?, grouped?_of_digits hne h, hvalue]
    exact congrArg some hneg
  · rw [literal?_of_digits hne h, hvalue]
    exact congrArg some (by omega)

/-- An integer is read back from its text. -/
@[simp] theorem literal?_text (i : Int) : literal? (text i) = some i :=
  literal?_withSign (digits_ne_nil _) (fun _ => isDigit_of_mem_digits) (ofDigitChars_digits _)

/-! ## Exponents -/

theorem signed?_minus_digits (n : Nat) : signed? ('-' :: digits n) = some (-(n : Int)) := by
  rw [signed?, nat?_digits]
  rfl

theorem signed?_plus_digits (n : Nat) : signed? ('+' :: digits n) = some (n : Int) := by
  rw [signed?, nat?_digits]
  rfl

end PeerRecords.Numeral
