import PeerRecords.Decimal
import PeerRecords.Proofs.Numeral
import Mathlib.Algebra.Ring.Int.Defs
import Mathlib.Algebra.Ring.Nat
import Mathlib.Data.List.TakeWhile
import Mathlib.Tactic.Tauto

/-
  Decimal numbers are read back from their text.
  `spelled?` is the number that a text spells, whatever its scale, and reading is that number if
  its scale fits. Three of the four layouts spell the digits and the scale that were written; the
  plain layout writes trailing zeros out, so what is read has more digits, and is the same number
  (`spelled?_text`). So a number is read back from its text (`parse?_text`), and numbers with one
  text are equal (`normal_eq_of_text_eq`).
-/

namespace PeerRecords

theorem mul_pow_succ_mod (n k : Nat) : n * 10 ^ (k + 1) % 10 = 0 := by
  rw [Nat.pow_succ, ← Nat.mul_assoc]
  exact Nat.mul_mod_left _ 10

theorem mul_pow_succ_div (n k : Nat) : n * 10 ^ (k + 1) / 10 = n * 10 ^ k := by
  rw [Nat.pow_succ, ← Nat.mul_assoc]
  exact Nat.mul_div_cancel _ (by decide)

/-- A power of ten adds zeros to the digits of a number. -/
theorem Numeral.digits_mul_pow {n : Nat} (hn : n ≠ 0) (k : Nat) :
    digits (n * 10 ^ k) = digits n ++ List.replicate k '0' := by
  induction k with
  | zero => simp
  | succ k ih =>
    have hdiv := mul_pow_succ_div n k
    have hpos : 0 < n * 10 ^ k := Nat.mul_pos (Nat.pos_of_ne_zero hn) (Nat.pow_pos (by decide))
    have hbase : 10 ≤ n * 10 ^ (k + 1) := by omega
    rw [digits, Nat.toDigits_of_base_le (by decide) hbase, hdiv, mul_pow_succ_mod, ← digits, ih,
      List.append_assoc, List.replicate_succ']
    rfl

namespace Scaled

/-! ## Normal forms -/

/-- Each of the zeros at the end of a number is taken off for one of its fuel. -/
theorem dropZeros_mul_pow (fuel n k : Nat) (s : Int) :
    dropZeros (fuel + k) (n * 10 ^ k) s = dropZeros fuel n (s - k) := by
  induction k generalizing s with
  | zero => rw [Nat.pow_zero, Nat.mul_one, Nat.add_zero, Int.natCast_zero, Int.sub_zero]
  | succ k ih =>
    rw [← Nat.add_assoc, dropZeros, if_pos (mul_pow_succ_mod n k), mul_pow_succ_div, ih]
    congr 1
    omega

/-- More fuel than the number changes nothing. -/
theorem dropZeros_fuel {fuel n : Nat} (hn : 0 < n) (h : n ≤ fuel) (s : Int) :
    dropZeros fuel n s = dropZeros n n s := by
  induction n using Nat.strongRecOn generalizing fuel s with
  | ind n ih =>
    obtain ⟨m, rfl⟩ : ∃ m, n = m + 1 := ⟨n - 1, by omega⟩
    obtain ⟨f, rfl⟩ : ∃ f, fuel = f + 1 := ⟨fuel - 1, by omega⟩
    rw [dropZeros, dropZeros]
    split
    · have hpos : 0 < (m + 1) / 10 := by omega
      have hlt : (m + 1) / 10 < m + 1 := by omega
      exact (ih _ hlt hpos (by omega) _).trans (ih _ hlt hpos (by omega) _).symm
    · rfl

theorem le_mul_ten_pow {n : Nat} (hn : 0 < n) (k : Nat) : n + k ≤ n * 10 ^ k := by
  have hpow : k + 1 ≤ 10 ^ k := Nat.lt_pow_self (by decide)
  calc n + k ≤ n * (k + 1) := by
        rw [Nat.mul_succ]
        have hk : 1 * k ≤ n * k := Nat.mul_le_mul_right k hn
        omega
    _ ≤ n * 10 ^ k := Nat.mul_le_mul_left n hpow

/-- Zeros at the end of a number are a negative scale written out. -/
theorem normal_mul_pow {u : Int} (hu : u ≠ 0) (k : Nat) :
    normal ⟨u * 10 ^ k, 0⟩ = normal ⟨u, -k⟩ := by
  have hpos : 0 < u.natAbs := Int.natAbs_pos.2 hu
  have hne : u * 10 ^ k ≠ 0 := Int.mul_ne_zero hu (Int.pow_ne_zero (by decide))
  have habs : (u * 10 ^ k).natAbs = u.natAbs * 10 ^ k := by
    rw [Int.natAbs_mul, Int.natAbs_pow]
    rfl
  have hsign : (u * 10 ^ k).sign = u.sign := by
    have hten : (10 ^ k : Int).sign = 1 := Int.sign_eq_one_of_pos (Int.pow_pos (by decide))
    rw [Int.sign_mul, hten, Int.mul_one]
  have hle := le_mul_ten_pow hpos k
  have hzeros : dropZeros (u.natAbs * 10 ^ k) (u.natAbs * 10 ^ k) 0 =
      dropZeros u.natAbs u.natAbs (-k) := by
    obtain ⟨f, hf⟩ : ∃ f, u.natAbs * 10 ^ k = f + k := ⟨u.natAbs * 10 ^ k - k, by omega⟩
    calc dropZeros (u.natAbs * 10 ^ k) (u.natAbs * 10 ^ k) 0
        = dropZeros (f + k) (u.natAbs * 10 ^ k) 0 := by rw [← hf]
      _ = dropZeros f u.natAbs (0 - k) := dropZeros_mul_pow f u.natAbs k 0
      _ = dropZeros u.natAbs u.natAbs (-k) := by
        rw [dropZeros_fuel hpos (by omega), Int.zero_sub]
  simp only [normal, if_neg hne, if_neg hu, habs, hsign, hzeros]

theorem dropZeros_of_mod {n : Nat} (h : n % 10 ≠ 0) (fuel : Nat) (s : Int) :
    dropZeros fuel n s = (n, s) := by
  cases fuel with
  | zero => rfl
  | succ fuel => rw [dropZeros, if_neg h]

/-- With enough fuel no zero is left at the end. -/
theorem dropZeros_mod {fuel n : Nat} (hn : 0 < n) (h : n ≤ fuel) (s : Int) :
    (dropZeros fuel n s).1 % 10 ≠ 0 := by
  induction fuel generalizing n s with
  | zero => omega
  | succ fuel ih =>
    rw [dropZeros]
    split
    · exact ih (by omega) (by omega) _
    · assumption

/-- The normal form has no zeros to take off. -/
@[simp] theorem normal_normal (d : Scaled) : d.normal.normal = d.normal := by
  by_cases hzero : d.unscaled = 0
  · simp [normal, hzero]
  · have hpos : 0 < d.unscaled.natAbs := Int.natAbs_pos.2 hzero
    have hmod := dropZeros_mod hpos (Nat.le_refl _) d.scale
    rcases hdrop : dropZeros d.unscaled.natAbs d.unscaled.natAbs d.scale with ⟨n, s⟩
    have hnormal : d.normal = ⟨d.unscaled.sign * n, s⟩ := by
      rw [normal, if_neg hzero, hdrop]
    rw [hdrop] at hmod
    rw [hnormal]
    have hn : n ≠ 0 := by
      rintro rfl
      exact hmod rfl
    have hne : d.unscaled.sign * n ≠ 0 :=
      Int.mul_ne_zero (mt Int.sign_eq_zero_iff_zero.1 hzero) (Int.natCast_ne_zero.2 hn)
    have habs : (d.unscaled.sign * n).natAbs = n := by
      rw [Int.natAbs_mul, Int.natAbs_sign_of_ne_zero hzero, Int.natAbs_natCast, Nat.one_mul]
    have hsign : (d.unscaled.sign * n).sign = d.unscaled.sign := by
      rw [Int.sign_mul, Int.sign_sign, Int.sign_natCast_of_ne_zero hn, Int.mul_one]
    rw [normal, if_neg hne, habs, dropZeros_of_mod hmod, hsign]

/-! ## Reading a layout -/

open Numeral

/-- The number that a text spells: digits with at most one point, and after a mark an exponent,
which `exponent?` reads. -/
def spelled? (exponent? : List Char → Option Int) (cs : List Char) : Option Scaled := do
  let isMark (c : Char) : Bool := c == 'e' || c == 'E'
  let mantissa := cs.takeWhile fun c => !isMark c
  let exponent ← exponent? (cs.dropWhile fun c => !isMark c)
  let whole := mantissa.takeWhile (· != '.')
  let fraction := (mantissa.dropWhile (· != '.')).drop 1
  let unscaled ← Numeral.literal? (whole ++ fraction)
  some ⟨unscaled, (fraction.filter (· != '_')).length - exponent⟩

/-- No exponent is read as zero, and one after a mark as it is, up to a bound. -/
structure ReadsExponents (exponent? : List Char → Option Int) (bound : Nat) : Prop where
  none : exponent? [] = some 0
  marked : ∀ {c : Char} {cs : List Char} {e : Int}, Numeral.signed? cs = some e →
    e.natAbs ≤ bound → exponent? (c :: cs) = some e

section Layouts

variable {exponent? : List Char → Option Int} {d : Scaled} {e : Int}

/-- A sign, digits and a point, and after them nothing or a mark and an exponent, are the number
that they spell. -/
theorem spelled?_append {mantissa tail : List Char} (whole fraction : List Char)
    (hmark : ∀ c ∈ mantissa, c ≠ 'e' ∧ c ≠ 'E')
    (htail : ∀ c, tail.head? = some c → c = 'e' ∨ c = 'E')
    (hwhole : mantissa.takeWhile (· != '.') = whole)
    (hfraction : (mantissa.dropWhile (· != '.')).drop 1 = fraction)
    (hdigits : ∀ c ∈ fraction, c.isDigit = true) (he : exponent? tail = some e)
    (hunscaled : literal? (whole ++ fraction) = some d.unscaled)
    (hscale : (fraction.length : Int) - e = d.scale) :
    spelled? exponent? (mantissa ++ tail) = some d := by
  have hall : ∀ c ∈ mantissa, (!(c == 'e' || c == 'E')) = true := by
    intro c hc
    simpa using hmark c hc
  have htake : tail.takeWhile (fun c => !(c == 'e' || c == 'E')) = [] := by
    cases tail with
    | nil => rfl
    | cons c cs => obtain rfl | rfl := htail c rfl <;> rfl
  have hdrop : tail.dropWhile (fun c => !(c == 'e' || c == 'E')) = tail := by
    cases tail with
    | nil => rfl
    | cons c cs => obtain rfl | rfl := htail c rfl <;> rfl
  have hgroups : fraction.filter (· != '_') = fraction := by
    rw [List.filter_eq_self]
    exact fun c hc => bne_iff_ne.2 (ne_of_isDigit (hdigits c hc) rfl)
  simp only [spelled?, List.takeWhile_append_of_pos hall, List.dropWhile_append_of_pos hall, htake,
    hdrop, List.append_nil, he, hwhole, hfraction, hunscaled, hgroups, hscale,
    Option.bind_eq_bind, Option.bind_some]

/-- A sign and digits without a point. -/
theorem spelled?_digits (cs tail : List Char) (hne : cs ≠ [])
    (hdigits : ∀ c ∈ cs, c.isDigit = true) (hvalue : Nat.ofDigitChars 10 cs 0 = d.unscaled.natAbs)
    (htail : ∀ c, tail.head? = some c → c = 'e' ∨ c = 'E') (he : exponent? tail = some e)
    (hscale : -e = d.scale) : spelled? exponent? (withSign d.unscaled (cs ++ tail)) = some d := by
  have hchar : ∀ c ∈ withSign d.unscaled cs, c ≠ 'e' ∧ c ≠ 'E' ∧ c ≠ '.' := by
    intro c hc
    obtain rfl | hc := mem_withSign hc
    · decide
    · have hne := fun m => ne_of_isDigit (m := m) (hdigits c hc)
      exact ⟨hne 'e' rfl, hne 'E' rfl, hne '.' rfl⟩
  have hpoint : ∀ c ∈ withSign d.unscaled cs, (c != '.') = true :=
    fun c hc => bne_iff_ne.2 (hchar c hc).2.2
  rw [withSign_append]
  refine spelled?_append (withSign d.unscaled cs) [] ?_ htail ?_ ?_
    (fun c hc => by cases hc) he ?_ ?_
  · exact fun c hc => ⟨(hchar c hc).1, (hchar c hc).2.1⟩
  · exact List.takeWhile_eq_self_iff.2 hpoint
  · rw [List.dropWhile_eq_nil_iff.2 hpoint, List.drop_nil]
  · rw [List.append_nil]
    exact literal?_withSign hne hdigits hvalue
  · rw [List.length_nil, Int.natCast_zero, Int.zero_sub]
    exact hscale

/-- A sign and digits with a point between them. -/
theorem spelled?_pointed (whole fraction tail : List Char)
    (hne : whole ≠ []) (hdigits : ∀ c ∈ whole ++ fraction, c.isDigit = true)
    (hvalue : Nat.ofDigitChars 10 (whole ++ fraction) 0 = d.unscaled.natAbs)
    (htail : ∀ c, tail.head? = some c → c = 'e' ∨ c = 'E') (he : exponent? tail = some e)
    (hscale : (fraction.length : Int) - e = d.scale) :
    spelled? exponent? (withSign d.unscaled (whole ++ '.' :: fraction ++ tail)) = some d := by
  have hmark : ∀ c ∈ withSign d.unscaled (whole ++ '.' :: fraction), c ≠ 'e' ∧ c ≠ 'E' := by
    intro c hc
    have hcases : c = '-' ∨ c = '.' ∨ c ∈ whole ++ fraction := by
      obtain hc | hc := mem_withSign hc
      · exact .inl hc
      · simp only [List.mem_append, List.mem_cons] at hc ⊢
        tauto
    obtain rfl | rfl | hc := hcases
    · decide
    · decide
    · exact ⟨ne_of_isDigit (hdigits c hc) rfl, ne_of_isDigit (hdigits c hc) rfl⟩
  have hpoint : ∀ c ∈ withSign d.unscaled whole, (c != '.') = true := by
    intro c hc
    obtain rfl | hc := mem_withSign hc
    · decide
    · exact bne_iff_ne.2 (ne_of_isDigit (hdigits c (List.mem_append_left _ hc)) rfl)
  have hsplit : withSign d.unscaled (whole ++ '.' :: fraction) =
      withSign d.unscaled whole ++ '.' :: fraction := withSign_append _ _ _
  rw [withSign_append]
  refine spelled?_append (withSign d.unscaled whole) fraction hmark htail
    ?_ ?_ (fun c hc => hdigits c (List.mem_append_right _ hc)) he ?_ hscale
  · rw [hsplit, List.takeWhile_append_of_pos hpoint]
    exact List.append_nil _
  · rw [hsplit, List.dropWhile_append_of_pos hpoint]
    rfl
  · rw [← withSign_append]
    exact literal?_withSign (by simp [hne]) hdigits hvalue

/-! ## The layouts -/

/-- The text of a number other than zero. -/
theorem text_eq (h : d.unscaled ≠ 0) :
    d.text = withSign d.unscaled (magnitudeText (digits d.unscaled.natAbs) d.scale) := by
  rw [text, if_neg h]
  rfl

theorem spelled?_scientific (hread : ReadsExponents exponent? d.scale.natAbs)
    (h : leadingZeros < d.scale - (digits d.unscaled.natAbs).length) :
    spelled? exponent? (withSign d.unscaled (scientific (digits d.unscaled.natAbs)
      (d.scale - (digits d.unscaled.natAbs).length + 1).toNat)) = some d := by
  have hvalue := ofDigitChars_digits d.unscaled.natAbs
  have hdigits : ∀ c ∈ digits d.unscaled.natAbs, c.isDigit = true :=
    fun _ => isDigit_of_mem_digits
  have hne := digits_ne_nil d.unscaled.natAbs
  have hlength := List.length_pos_iff.2 hne
  unfold leadingZeros at h
  have he : ∀ x : Int, x = d.scale - (digits d.unscaled.natAbs).length + 1 →
      exponent? ('E' :: '-' :: digits x.toNat) = some (-x) := by
    intro x hx
    have hcast : -(x.toNat : Int) = -x := by omega
    exact hread.marked (by rw [signed?_minus_digits, hcast]) (by omega)
  have htail : ∀ (n : Nat) (c : Char), ('E' :: '-' :: digits n).head? = some c →
      c = 'e' ∨ c = 'E' := by
    intro n c hc
    cases hc
    exact .inr rfl
  generalize digits d.unscaled.natAbs = ds at *
  match ds with
  | [] => exact absurd rfl hne
  | [x] =>
    refine spelled?_digits [x] _ hne hdigits hvalue (htail _) (he _ rfl) ?_
    simp only [List.length_singleton]
    omega
  | x :: y :: rest =>
    have htext : ∀ n, scientific (x :: y :: rest) n =
        [x] ++ '.' :: (y :: rest) ++ 'E' :: '-' :: digits n := by
      intro n
      simp [scientific]
    rw [htext]
    refine spelled?_pointed [x] (y :: rest) _ (List.cons_ne_nil _ _) hdigits hvalue (htail _)
      (he _ rfl) ?_
    simp only [List.length_cons]
    omega

theorem spelled?_trailing (hread : ReadsExponents exponent? d.scale.natAbs)
    (h : trailingZeros < -d.scale) :
    spelled? exponent? (withSign d.unscaled (digits d.unscaled.natAbs ++ ['e', '+']
      ++ digits (-d.scale).toNat)) = some d := by
  unfold trailingZeros at h
  have hcast : ((-d.scale).toNat : Int) = -d.scale := by omega
  have he : exponent? ('e' :: '+' :: digits (-d.scale).toNat) = some (-d.scale) :=
    hread.marked (by rw [signed?_plus_digits, hcast]) (by omega)
  rw [List.append_assoc]
  refine spelled?_digits _ _ (digits_ne_nil _) (fun _ => isDigit_of_mem_digits)
    (ofDigitChars_digits _) (fun c hc => ?_) he (Int.neg_neg _)
  cases hc
  exact .inl rfl

theorem spelled?_fraction (hread : exponent? [] = some 0) (h : 0 < d.scale) :
    spelled? exponent? (withSign d.unscaled
      (pointed (digits d.unscaled.natAbs) d.scale.toNat)) = some d := by
  unfold pointed
  dsimp only
  generalize hpadded : List.replicate (d.scale.toNat + 1 - (digits d.unscaled.natAbs).length) '0'
    ++ digits d.unscaled.natAbs = padded
  have hlength : d.scale.toNat + 1 ≤ padded.length := by
    rw [← hpadded, List.length_append, List.length_replicate]
    omega
  have hdigits : ∀ c ∈ padded, c.isDigit = true := by
    intro c hc
    rw [← hpadded] at hc
    obtain hc | hc := List.mem_append.1 hc
    · rw [List.eq_of_mem_replicate hc]
      decide
    · exact isDigit_of_mem_digits hc
  have hvalue : Nat.ofDigitChars 10 padded 0 = d.unscaled.natAbs := by
    rw [← hpadded, Nat.ofDigitChars_append, Nat.ofDigitChars_replicate_zero, Nat.mul_zero,
      ofDigitChars_digits]
  have hspelled := spelled?_pointed (padded.take (padded.length - d.scale.toNat))
    (padded.drop (padded.length - d.scale.toNat)) [] (d := d)
    ?_ ?_ ?_ (fun c hc => by cases hc) hread ?_
  · rwa [List.append_nil] at hspelled
  · rw [← List.length_pos_iff, List.length_take]
    omega
  · rwa [List.take_append_drop]
  · rwa [List.take_append_drop]
  · rw [List.length_drop]
    omega

/-- The plain layout spells the same number, its zeros written out, which has the same text. -/
theorem spelled?_plain (hread : exponent? [] = some 0) (hne : d.unscaled ≠ 0)
    (h : ¬ 0 < d.scale) :
    ∃ d' : Scaled, spelled? exponent? (withSign d.unscaled (digits d.unscaled.natAbs
      ++ List.replicate (-d.scale).toNat '0')) = some d' ∧ d'.normal = d.normal ∧ d'.scale = 0 ∧
      d'.text = withSign d.unscaled (digits d.unscaled.natAbs
        ++ List.replicate (-d.scale).toNat '0') := by
  have hpos : (0 : Int) < 10 ^ (-d.scale).toNat := Int.pow_pos (by decide)
  have hsign : ∀ cs, withSign (d.unscaled * 10 ^ (-d.scale).toNat) cs = withSign d.unscaled cs := by
    intro cs
    have hiff : d.unscaled * 10 ^ (-d.scale).toNat < 0 ↔ d.unscaled < 0 := by
      constructor
      · intro hneg
        by_contra hn
        exact absurd (Int.mul_nonneg (Int.not_lt.1 hn) (Int.le_of_lt hpos)) (Int.not_le.2 hneg)
      · exact fun hneg => Int.mul_neg_of_neg_of_pos hneg hpos
    unfold withSign
    simp only [hiff]
  have habs : (d.unscaled * 10 ^ (-d.scale).toNat).natAbs =
      d.unscaled.natAbs * 10 ^ (-d.scale).toNat := by
    rw [Int.natAbs_mul, Int.natAbs_pow]
    rfl
  refine ⟨⟨d.unscaled * 10 ^ (-d.scale).toNat, 0⟩, ?_, ?_, rfl, ?_⟩
  · rw [← hsign]
    have hspelled := spelled?_digits
      (digits d.unscaled.natAbs ++ List.replicate (-d.scale).toNat '0') []
      (d := ⟨d.unscaled * 10 ^ (-d.scale).toNat, 0⟩) (by simp [digits_ne_nil]) (fun c hc => ?_) ?_
      (fun c hc => by cases hc) hread rfl
    · rwa [List.append_nil] at hspelled
    · obtain hc | hc := List.mem_append.1 hc
      · exact isDigit_of_mem_digits hc
      · rw [List.eq_of_mem_replicate hc]
        decide
    · rw [Nat.ofDigitChars_append, ofDigitChars_digits, Nat.ofDigitChars_replicate_zero, habs,
        Nat.mul_comm]
  · have hscale : -((-d.scale).toNat : Int) = d.scale := by omega
    have hnormal := normal_mul_pow hne (-d.scale).toNat
    rwa [hscale] at hnormal
  · have hlayout : ∀ cs, magnitudeText cs 0 = cs := by
      intro cs
      have hlength : ¬ (0 - (cs.length : Int) > leadingZeros) := by
        unfold leadingZeros
        omega
      rw [magnitudeText, if_neg hlength, if_neg (by decide), if_neg (by decide)]
      exact List.append_nil cs
    rw [text_eq (Int.mul_ne_zero hne (Int.ne_of_gt hpos)), hlayout, hsign, habs,
      digits_mul_pow (Int.natAbs_ne_zero.2 hne)]

/-- A number's text spells the number as it is, or with its zeros written out; what it spells has
the same text. -/
theorem spelled?_text (hread : ReadsExponents exponent? d.scale.natAbs) :
    ∃ d', spelled? exponent? d.text = some d' ∧ d'.normal = d.normal ∧
      (d'.scale = d.scale ∨ d'.scale = 0) ∧ d'.text = d.text := by
  by_cases hzero : d.unscaled = 0
  · have htext : d.text = ['0'] := by rw [text, if_pos hzero]
    refine ⟨⟨0, 0⟩, ?_, ?_, .inr rfl, htext.symm⟩
    · have hdigit : ∀ c ∈ ['0'], c.isDigit = true := by
        intro c hc
        rw [List.mem_singleton.1 hc]
        rfl
      rw [htext]
      exact spelled?_digits ['0'] [] (d := ⟨0, 0⟩) (List.cons_ne_nil _ _) hdigit rfl
        (fun c hc => by cases hc) hread.none rfl
    · simp only [normal, hzero, if_true]
  · have htext := text_eq hzero
    rw [magnitudeText] at htext
    split at htext
    · rename_i h
      exact ⟨d, htext ▸ spelled?_scientific hread h, rfl, .inl rfl, rfl⟩
    · split at htext
      · rename_i h
        exact ⟨d, htext ▸ spelled?_trailing hread h, rfl, .inl rfl, rfl⟩
      · split at htext
        · rename_i h
          exact ⟨d, htext ▸ spelled?_fraction hread.none h, rfl, .inl rfl, rfl⟩
        · rename_i h
          obtain ⟨d', hspelled, hnormal, hscale, htext'⟩ := spelled?_plain hread.none hzero h
          exact ⟨d', htext ▸ hspelled, hnormal, .inr hscale, htext'.trans htext.symm⟩

end Layouts

/-! ## Numbers with one text -/

/-- An exponent of any size. -/
def exponent? : List Char → Option Int
  | [] => some 0
  | _ :: cs => Numeral.signed? cs

theorem readsExponents (bound : Nat) : ReadsExponents exponent? bound := ⟨rfl, fun h _ => h⟩

/-- Numbers with one text are equal. -/
theorem normal_eq_of_text_eq {a b : Scaled} (h : a.text = b.text) : a.normal = b.normal := by
  obtain ⟨a', ha, hnormal, _⟩ := spelled?_text (readsExponents a.scale.natAbs)
  obtain ⟨b', hb, hnormal', _⟩ := spelled?_text (readsExponents b.scale.natAbs)
  rw [h, hb] at ha
  rw [← hnormal, ← hnormal', Option.some.inj ha]

end Scaled

namespace Decimal

/-! ## Reading with bounds -/

/-- A text is read as the number that it spells, if its scale fits. -/
theorem parse?_of_spelled? {cs : List Char} {d : Decimal}
    (h : Scaled.spelled? exponent? cs = some d.toScaled) : parse? cs = some d := by
  simp only [Scaled.spelled?, Option.bind_eq_bind, Option.bind_eq_some_iff, Option.some.injEq] at h
  obtain ⟨e, he, u, hu, hd⟩ := h
  have hscale := d.scale_fits
  simp only [← hd] at hscale
  simp only [parse?, he, hu, Option.bind_eq_bind, Option.bind_some]
  rw [dif_pos hscale]
  obtain ⟨d, hfits⟩ := d
  subst hd
  rfl

/-- Every exponent that the text of a number may hold is read. -/
theorem readsExponents (d : Decimal) : Scaled.ReadsExponents exponent? d.scale.natAbs := by
  refine ⟨rfl, fun h hbound => ?_⟩
  have hfits := d.scale_fits
  unfold Scaled.scaleBound at hfits
  rw [exponent?, h, Option.filter_some, if_pos]
  apply decide_eq_true
  unfold exponentBound
  omega

/-- A decimal number's text spells that number, though perhaps with more digits; what it spells has
the same text. -/
theorem parse?_text (d : Decimal) :
    ∃ d', parse? d.text = some d' ∧ d'.alike d = true ∧ d'.text = d.text := by
  obtain ⟨d', hspelled, hnormal, hscale, htext⟩ := Scaled.spelled?_text d.readsExponents
  have hfits : -Scaled.scaleBound ≤ d'.scale ∧ d'.scale < Scaled.scaleBound := by
    obtain hscale | hscale := hscale <;> rw [hscale]
    · exact d.scale_fits
    · decide
  exact ⟨⟨d', hfits⟩, parse?_of_spelled? hspelled, decide_eq_true hnormal, htext⟩

end Decimal

end PeerRecords
