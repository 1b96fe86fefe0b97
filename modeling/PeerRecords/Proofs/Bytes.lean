import PeerRecords.Bytes
import Mathlib.Algebra.Ring.Nat
import Mathlib.Data.List.Basic

/-
  Numbers are determined by their bytes.
  Bytes spell a number (`value`), and what is written in enough of them spells what was written
  (`value_bigEndian`). So two lengths below the size of a word have different bytes, and two
  integers too: the bytes of an integer are as many as its size takes, and the first bit of the
  first one is its sign (`signed_injective`).
-/

namespace PeerRecords.Bytes

/-! ## Unsigned numbers -/

/-- The number that bytes spell, most significant first. -/
def value (bytes : List UInt8) : Nat := bytes.foldl (fun n b => n * 256 + b.toNat) 0

theorem value_append_singleton (bytes : List UInt8) (b : UInt8) :
    value (bytes ++ [b]) = value bytes * 256 + b.toNat := by
  rw [value, List.foldl_append]
  rfl

/-- What is written in `n` bytes, but for what does not fit. -/
theorem value_bigEndian (n v : Nat) : value (bigEndian n v) = v % 256 ^ n := by
  induction n generalizing v with
  | zero => rw [Nat.pow_zero, Nat.mod_one]; rfl
  | succ n ih =>
    have hlast : (UInt8.ofNat v).toNat = v % 256 := UInt8.toNat_ofNat'
    have hsplit : v % (256 * 256 ^ n) = v % 256 + 256 * (v / 256 % 256 ^ n) := Nat.mod_mul
    rw [bigEndian, value_append_singleton, ih, hlast, Nat.pow_succ', hsplit]
    omega

theorem bigEndian_inj {n v w : Nat} (hv : v < 256 ^ n) (hw : w < 256 ^ n)
    (h : bigEndian n v = bigEndian n w) : v = w := by
  have hvalue := congrArg value h
  rwa [value_bigEndian, value_bigEndian, Nat.mod_eq_of_lt hv, Nat.mod_eq_of_lt hw] at hvalue

/-- Lengths that fit a word have bytes of their own. -/
theorem length_inj {n m : Nat} (hn : n < UInt64.size) (hm : m < UInt64.size)
    (h : length n = length m) : n = m := bigEndian_inj hn hm h

/-! ## Signed numbers -/

theorem lt_two_pow_bitLength (n : Nat) : n < 2 ^ bitLength n := by
  unfold bitLength
  split
  · rename_i h
    rw [h]
    decide
  · exact Nat.lt_log2_self

/-- The bytes of a number leave its first bit unset. -/
theorem lt_half_capacity (n : Nat) : n < 128 * 256 ^ (bitLength n / 8) := by
  have hpow : (128 * 256 ^ (bitLength n / 8) : Nat) = 2 ^ (7 + 8 * (bitLength n / 8)) := by
    rw [Nat.pow_add, Nat.pow_mul]
  rw [hpow]
  exact Nat.lt_of_lt_of_le (lt_two_pow_bitLength n) (Nat.pow_le_pow_right (by decide) (by omega))

theorem value_unsignedBytes (n : Nat) : value (unsignedBytes n) = n := by
  have hlt := lt_half_capacity n
  rw [unsignedBytes, value_bigEndian]
  apply Nat.mod_eq_of_lt
  rw [Nat.pow_succ']
  omega

theorem head?_bigEndian (n v : Nat) :
    (bigEndian (n + 1) v).head? = some (UInt8.ofNat (v / 256 ^ n)) := by
  induction n generalizing v with
  | zero => rw [Nat.pow_zero, Nat.div_one]; rfl
  | succ n ih =>
    rw [bigEndian, List.head?_append, ih, Nat.div_div_eq_div_mul, ← Nat.pow_succ']
    rfl

/-- The first byte of a number has its first bit unset. -/
theorem unsignedBytes_eq_cons (n : Nat) : ∃ b bs, unsignedBytes n = b :: bs ∧ b.toNat < 128 := by
  have hhead := head?_bigEndian (bitLength n / 8) n
  obtain ⟨bs, hbs⟩ := List.head?_eq_some_iff.1 hhead
  refine ⟨_, bs, hbs, ?_⟩
  have hlt : n / 256 ^ (bitLength n / 8) < 128 :=
    Nat.div_lt_of_lt_mul (Nat.mul_comm _ _ ▸ lt_half_capacity n)
  rw [UInt8.toNat_ofNat_of_lt' (Nat.lt_trans hlt (by decide))]
  exact hlt

/-- A number that is not negative and one that is differ in the first bit. -/
theorem unsignedBytes_ne_complement (n m : Nat) :
    unsignedBytes n ≠ (unsignedBytes m).map (~~~ ·) := by
  obtain ⟨b, bs, hn, hb⟩ := unsignedBytes_eq_cons n
  obtain ⟨c, cs, hm, hc⟩ := unsignedBytes_eq_cons m
  rw [hn, hm, List.map_cons]
  intro h
  have hbc := congrArg UInt8.toNat (List.cons.inj h).1
  rw [UInt8.toNat_not] at hbc
  have hsize : UInt8.size = 256 := rfl
  omega

theorem signed_injective {i j : Int} (h : signed i = signed j) : i = j := by
  cases i with
  | ofNat n =>
    cases j with
    | ofNat m =>
      have hvalue := congrArg value h
      rw [signed, signed, value_unsignedBytes, value_unsignedBytes] at hvalue
      rw [hvalue]
    | negSucc m => exact absurd h (unsignedBytes_ne_complement n m)
  | negSucc n =>
    cases j with
    | ofNat m => exact absurd h.symm (unsignedBytes_ne_complement m n)
    | negSucc m =>
      have hbytes : unsignedBytes n = unsignedBytes m :=
        List.map_injective_iff.2 (fun _ _ => UInt8.not_inj.1) h
      have hvalue := congrArg value hbytes
      rw [value_unsignedBytes, value_unsignedBytes] at hvalue
      rw [hvalue]

end PeerRecords.Bytes
