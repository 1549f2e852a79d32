import Mathlib.Data.List.DropRight
import Mathlib.Data.Nat.Digits.Lemmas
import Mathlib.Tactic.FieldSimp
import Mathlib.Tactic.Linarith

/-!
# Decimal text

Digits as lists of characters, with the value `Nat.ofDigitChars` of the standard library, and
numerals: text `[-]digits[.digits]` with its exact value.
-/

namespace BitShares.Decimal

abbrev value (l : List Char) : ℕ := Nat.ofDigitChars 10 l 0

variable {l m : List Char}

theorem value_append : value (l ++ m) = 10 ^ m.length * value l + value m := by
  rw [value, Nat.ofDigitChars_append, Nat.ofDigitChars_eq_ofDigitChars_zero]

theorem value_cons {c : Char} :
    value (c :: l) = 10 ^ l.length * (c.toNat - '0'.toNat) + value l := by
  rw [value, Nat.ofDigitChars_cons, Nat.ofDigitChars_eq_ofDigitChars_zero, mul_zero, zero_add]

theorem value_replicate_zero {k : ℕ} : value (List.replicate k '0') = 0 := by
  rw [value, Nat.ofDigitChars_replicate_zero, mul_zero]

theorem digit_le_nine {c : Char} (h : c.isDigit) : c.toNat - '0'.toNat ≤ 9 := by
  have : c.toNat ≤ 57 := by
    simp only [Char.isDigit, Bool.and_eq_true, decide_eq_true_eq] at h
    exact UInt32.le_iff_toNat_le.1 h.2
  have : '0'.toNat = 48 := rfl
  omega

theorem value_lt (h : ∀ c ∈ l, c.isDigit) : value l < 10 ^ l.length := by
  induction l with
  | nil => decide
  | cons c l ih =>
    have hc := digit_le_nine (h c List.mem_cons_self)
    have hl := ih fun d hd => h d (List.mem_cons_of_mem _ hd)
    rw [value_cons, List.length_cons, pow_succ]
    nlinarith

theorem padded {n k : ℕ} (h : n < 10 ^ k) :
    ((Nat.toDigits 10 (n + 10 ^ k)).drop 1).length = k ∧
      value ((Nat.toDigits 10 (n + 10 ^ k)).drop 1) = n := by
  have hlen : (Nat.toDigits 10 (n + 10 ^ k)).length = k + 1 := by
    have hle : (Nat.toDigits 10 (n + 10 ^ k)).length ≤ k + 1 :=
      (Nat.length_toDigits_le_iff (by decide) k.succ_pos).2 (by rw [pow_succ]; omega)
    rcases Nat.eq_zero_or_pos k with rfl | hk
    · have := List.length_pos_iff.2 (Nat.toDigits_ne_nil (b := 10) (n := n + 10 ^ 0))
      omega
    · have := mt (Nat.length_toDigits_le_iff (n := n + 10 ^ k) (b := 10) (by decide) hk).1
        (by omega)
      omega
  have hdigits : ∀ c ∈ Nat.toDigits 10 (n + 10 ^ k), c.isDigit := fun _ hc =>
    Nat.isDigit_of_mem_toDigits (by decide) (by decide) hc
  have hvalue : value (Nat.toDigits 10 (n + 10 ^ k)) = n + 10 ^ k := Nat.ofDigitChars_ten_toDigits
  generalize Nat.toDigits 10 (n + 10 ^ k) = l at hlen hdigits hvalue
  cases l with
  | nil => simp at hlen
  | cons c l =>
    have hl : l.length = k := by simpa using hlen
    have hlt := value_lt fun d hd => hdigits d (List.mem_cons_of_mem _ hd)
    rw [value_cons, hl] at hvalue
    rw [hl] at hlt
    refine ⟨hl, ?_⟩
    -- the leading digit is one
    have hone : c.toNat - '0'.toNat = 1 := by
      generalize c.toNat - '0'.toNat = d at hvalue
      rcases d with _ | _ | d
      · omega
      · rfl
      · have : 10 ^ k * (d + 1 + 1) = 10 ^ k * d + 10 ^ k + 10 ^ k := by ring
        have := Nat.zero_le (10 ^ k * d)
        omega
    rw [hone] at hvalue
    exact (by omega : value l = n)

/-! ## Trailing zeros -/

theorem exists_zeros (l : List Char) :
    ∃ k, l = l.rdropWhile (· = '0') ++ List.replicate k '0' := by
  induction l using List.reverseRecOn with
  | nil => exact ⟨0, rfl⟩
  | append_singleton l c ih =>
    rw [List.rdropWhile_concat]
    by_cases hc : c = '0'
    · obtain ⟨k, hk⟩ := ih
      refine ⟨k + 1, ?_⟩
      rw [if_pos (by simpa using hc), List.replicate_succ', ← List.append_assoc, ← hk, hc]
    · exact ⟨0, by rw [if_neg (by simpa using hc)]; simp⟩

theorem rdropWhile_append_cons {α : Type*} {p : α → Bool} {a l : List α} {c : α} (hc : ¬ p c) :
    (a ++ c :: l).rdropWhile p = a ++ c :: l.rdropWhile p := by
  induction l using List.reverseRecOn with
  | nil => exact List.rdropWhile_concat_neg p a c hc
  | append_singleton l d ih =>
    rw [← List.cons_append, ← List.append_assoc, List.rdropWhile_concat, List.rdropWhile_concat, ih]
    split <;> simp

theorem value_rdropWhile (l : List Char) :
    value (l.rdropWhile (· = '0')) * 10 ^ (l.length - (l.rdropWhile (· = '0')).length) =
      value l := by
  obtain ⟨k, hk⟩ := exists_zeros l
  have hlen : l.length = (l.rdropWhile (· = '0')).length + k := by
    simpa using congrArg List.length hk
  have hvalue := congrArg value hk
  rw [value_append, value_replicate_zero, List.length_replicate, add_zero] at hvalue
  rw [hlen, Nat.add_sub_cancel_left, hvalue, mul_comm]

/-! ## Digits before other text -/

def Ends (rest : List Char) : Prop := ∀ c ∈ rest.head?, ¬ c.isDigit

theorem takeWhile_digits {rest : List Char} (hl : ∀ c ∈ l, c.isDigit) (hrest : Ends rest) :
    (l ++ rest).takeWhile Char.isDigit = l := by
  rw [List.takeWhile_append_of_pos hl]
  cases rest with
  | nil => simp
  | cons c rest => rw [List.takeWhile_cons_of_neg (hrest c rfl), List.append_nil]

theorem exists_digits (text : List Char) :
    ∃ l rest, text = l ++ rest ∧ (∀ c ∈ l, c.isDigit) ∧ Ends rest := by
  refine ⟨text.takeWhile Char.isDigit, text.dropWhile Char.isDigit,
    List.takeWhile_append_dropWhile.symm, fun c hc => List.mem_takeWhile_imp hc, ?_⟩
  intro c hc hdigit
  have := List.head?_dropWhile_not Char.isDigit text
  rw [Option.mem_def.1 hc] at this
  simp [hdigit] at this

/-! ## Numerals -/

/-- Text `[-]digits[.digits]`. -/
@[ext]
structure Numeral where
  negative : Bool
  whole : List Char
  fraction : Option (List Char)
  whole_digits : ∀ c ∈ whole, c.isDigit
  fraction_digits : ∀ c ∈ fraction.getD [], c.isDigit

namespace Numeral

variable (n : Numeral)

def point : List Char := n.fraction.elim [] ('.' :: ·)

def text : List Char := (if n.negative then ['-'] else []) ++ (n.whole ++ n.point)

def digits : List Char := n.whole ++ n.fraction.getD []

def places : ℕ := (n.fraction.getD []).length

def value : ℚ :=
  (if n.negative then -1 else 1) *
    (Decimal.value n.whole + Decimal.value (n.fraction.getD []) / 10 ^ n.places)

/-- The value without its sign in units of `10 ^ -k`. -/
def scaled (k : ℕ) : ℕ :=
  Decimal.value n.whole * 10 ^ k + Decimal.value (n.fraction.getD []) * 10 ^ (k - n.places)

variable {n}

theorem value_eq_iff {k : ℕ} (hk : n.places ≤ k) {v : ℤ} :
    n.value = v / 10 ^ k ↔ v = if n.negative then -(n.scaled k : ℤ) else n.scaled k := by
  have hscaled : (n.scaled k : ℚ) =
      (Decimal.value n.whole + Decimal.value (n.fraction.getD []) / 10 ^ n.places) * 10 ^ k := by
    have hpow : (10 : ℚ) ^ k = 10 ^ n.places * 10 ^ (k - n.places) := by
      rw [← pow_add, Nat.add_sub_cancel' hk]
    rw [scaled]
    push_cast
    rw [add_mul, div_mul_eq_mul_div, hpow]
    field_simp
  have hpos : (10 : ℚ) ^ k ≠ 0 := by positivity
  rw [value, eq_div_iff hpos, mul_assoc, ← hscaled]
  split
  · rw [neg_one_mul, ← Int.cast_natCast, ← Int.cast_neg, Int.cast_inj, eq_comm]
  · rw [one_mul, ← Int.cast_natCast, Int.cast_inj, eq_comm]

theorem ends_point : Ends n.point := by
  intro c hc
  cases h : n.fraction <;> simp_all [point]
  subst hc
  decide

theorem minus_notMem_body : '-' ∉ n.whole ++ n.point := by
  intro h
  rcases List.mem_append.1 h with h | h
  · exact absurd (n.whole_digits _ h) (by decide)
  · have hdigits := n.fraction_digits
    cases hf : n.fraction with
    | none => simp [point, hf] at h
    | some f =>
      simp only [point, hf, Option.elim_some, List.mem_cons] at h
      rw [hf] at hdigits
      rcases h with h | h
      · exact absurd h (by decide)
      · exact absurd (hdigits _ h) (by decide)

theorem minus_notMem_tail : '-' ∉ n.text.tail := by
  rw [text]
  split
  · exact minus_notMem_body
  · exact fun h => minus_notMem_body (List.mem_of_mem_tail h)

theorem text_injective : Function.Injective text := by
  intro n m h
  have hminus : ∀ n : Numeral, n.negative ↔ '-' ∈ n.text := by
    intro n
    rw [text]
    cases n.negative
    · simpa using minus_notMem_body (n := n)
    · simp
  have hnegative : n.negative = m.negative := by
    rw [Bool.eq_iff_iff, hminus, hminus, h]
  have hbody : n.whole ++ n.point = m.whole ++ m.point := by
    rw [text, text, hnegative] at h
    exact List.append_cancel_left h
  have hwhole : n.whole = m.whole := by
    rw [← takeWhile_digits n.whole_digits n.ends_point, hbody,
      takeWhile_digits m.whole_digits m.ends_point]
  have hpoint : n.point = m.point := by
    rw [hwhole] at hbody
    exact List.append_cancel_left hbody
  refine Numeral.ext hnegative hwhole ?_
  rw [point, point] at hpoint
  cases hn : n.fraction <;> cases hm : m.fraction <;> simp_all

end Numeral

end BitShares.Decimal
