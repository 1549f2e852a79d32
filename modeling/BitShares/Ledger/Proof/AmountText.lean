import BitShares.Ledger.AmountText
import BitShares.Lib.Int64
import BitShares.Lib.Outcome

/-!
# The text of an amount

* `shareStringToSatoshi_iff`: when `share_string_to_satoshi` returns an amount exactly for the texts
  `[-]digits[.digits]` of an amount, and otherwise throws.  It does but for the texts of `Misread`.
* `eval_numeral`, `eval_sign`, `eval_signAfterPoint`: what it returns, by the shape of the text.
-/

namespace BitShares

open Decimal

/-! ## What a text means -/

/-- The text is that of the amount `v`, in units of `10 ^ -k`. -/
def IsAmount (s : List Char) (k : ℕ) (v : ShareType) : Prop :=
  ∃ n : Numeral, n.text = s ∧ n.digits ≠ [] ∧ n.places ≤ k ∧ n.value = v.toInt / 10 ^ k ∧
    |v.toInt| ≤ MAX_SHARES.toInt

/-- The integer a text begins with, if it is one of 64 bits; no text stands for zero. -/
inductive Leading : List Char → ℤ → Prop
  | none : Leading [] 0
  | digits {l rest : List Char} : l ≠ [] → (∀ c ∈ l, c.isDigit) → Ends rest → value l < 2 ^ 63 →
    Leading (l ++ rest) (value l)
  | minus {l rest : List Char} : l ≠ [] → (∀ c ∈ l, c.isDigit) → Ends rest → value l ≤ 2 ^ 63 →
    Leading ('-' :: (l ++ rest)) (-value l)

/-- What 64 bits leave of the number passes the only check there is, that from above. -/
def Passes (z : ℤ) : Prop := z.bmod (2 ^ 64) ≤ 10 ^ 15

inductive Misread (k : ℕ) : List Char → Prop
  /-- The precision is not among the powers of ten that are known. -/
  | precision {s : List Char} {v : ShareType} : 15 < k → IsAmount s k v → Misread k s
  /-- A text without a digit is read as zero. -/
  | blank {s : List Char} : k ≤ 15 → s = [] ∨ s = ['.'] ∨ s = ['-'] → Misread k s
  /-- After a sign the digits before the point are taken with the point, and there are none. -/
  | point (n : Numeral) : k ≤ 15 → n.negative → n.whole = [] → 0 < n.places → n.places ≤ k →
    Misread k n.text
  /-- The amount does not fit 64 bits, but what is left of it is low. -/
  | wrapped (n : Numeral) : k ≤ 15 → value n.whole < 2 ^ 63 → n.places ≤ k →
    2 ^ 63 ≤ n.scaled k → Passes (n.scaled k) → Misread k n.text
  /-- A sign after the digits `l`: without the first of them, an integer is still read. -/
  | sign (l : List Char) (n : Numeral) (whole : ℤ) : k ≤ 15 → l ≠ [] → (∀ c ∈ l, c.isDigit) →
    n.negative → n.places ≤ k → Leading (l.tail ++ '-' :: n.whole) whole →
    Passes (whole * 10 ^ k + value (n.fraction.getD []) * 10 ^ (k - n.places)) →
    Misread k (l ++ n.text)
  /-- A sign after the point. -/
  | signAfterPoint (l a b : List Char) (whole fraction : ℤ) : k ≤ 15 → l.length ≠ 1 →
    (∀ c ∈ l, c.isDigit) → (∀ c ∈ a, c.isDigit) → (∀ c ∈ b, c.isDigit) →
    (a ++ '-' :: b).length ≤ k → Leading l.tail whole →
    Leading ((a ++ '-' :: b).rightpad k '0') fraction → Passes (whole * 10 ^ k + fraction) →
    Misread k (l ++ '.' :: (a ++ '-' :: b))

/-! ## Reading an integer -/

section Reading

variable {l rest text : List Char} {z : ℤ}

theorem stoll_digits (hne : l ≠ []) (hl : ∀ c ∈ l, c.isDigit) (hrest : Ends rest) :
    stoll (l ++ rest) = .ok z ↔ value l < 2 ^ 63 ∧ z = value l := by
  have hhead : (l ++ rest).head? ≠ some '-' := by
    cases l with
    | nil => exact absurd rfl hne
    | cons c l =>
      have := hl c List.mem_cons_self
      rintro ⟨rfl⟩
      exact absurd this (by decide)
  simp only [stoll, hhead, if_false, takeWhile_digits hl hrest, bind_eq_ok, require_eq_ok,
    pure_eq_ok]
  constructor
  · rintro ⟨-, -, -, hfits, rfl⟩
    exact ⟨by omega, rfl⟩
  · rintro ⟨hfits, rfl⟩
    exact ⟨(), hne, (), by omega, rfl⟩

theorem stoll_minus (hl : ∀ c ∈ l, c.isDigit) (hrest : Ends rest) :
    stoll ('-' :: (l ++ rest)) = .ok z ↔ l ≠ [] ∧ value l ≤ 2 ^ 63 ∧ z = -value l := by
  simp only [stoll, List.head?_cons, if_true, List.tail_cons, takeWhile_digits hl hrest,
    bind_eq_ok, require_eq_ok, pure_eq_ok]
  constructor
  · rintro ⟨-, hne, -, hfits, rfl⟩
    exact ⟨hne, by omega, rfl⟩
  · rintro ⟨hne, hfits, rfl⟩
    exact ⟨(), hne, (), by omega, rfl⟩

theorem stoll_append_point (ht : text ≠ []) : stoll (text ++ '.' :: rest) = stoll text := by
  have htake : ∀ t : List Char,
      (t ++ '.' :: rest).takeWhile Char.isDigit = t.takeWhile Char.isDigit := by
    intro t
    obtain ⟨l, m, rfl, hl, hm⟩ := exists_digits t
    rw [takeWhile_digits hl hm, List.append_assoc, takeWhile_digits hl]
    cases m with
    | nil => exact fun c hc => by cases hc; decide
    | cons c m => exact hm
  cases text with
  | nil => exact absurd rfl ht
  | cons c t =>
    have hboth := htake (c :: t)
    rw [List.cons_append] at hboth
    by_cases hc : some c = some '-'
    · simp only [stoll, List.cons_append, List.head?_cons, List.tail_cons, hc, if_true, htake]
    · simp only [stoll, List.cons_append, List.head?_cons, hc, if_false, hboth]

def readInt (text : List Char) : Except Error ℤ := if text = [] then .ok 0 else stoll text

theorem readInt_eq_ok : readInt text = .ok z ↔ Leading text z := by
  constructor
  · intro h
    obtain ⟨l, rest, rfl, hl, hrest⟩ := exists_digits text
    cases l with
    | cons c l =>
      rw [readInt, if_neg (by simp), stoll_digits (by simp) hl hrest] at h
      exact h.2 ▸ .digits (by simp) hl hrest h.1
    | nil =>
      cases rest with
      | nil =>
        cases h
        exact .none
      | cons c rest =>
        by_cases hc : c = '-'
        · subst hc
          obtain ⟨m, rest, rfl, hm, hrest⟩ := exists_digits rest
          rw [List.nil_append, readInt, if_neg (by simp), stoll_minus hm hrest] at h
          exact h.2.2 ▸ .minus h.1 hm hrest h.2.1
        · have htake := List.takeWhile_cons_of_neg (l := rest) (hrest c rfl)
          simp only [readInt, List.nil_append, reduceCtorEq, if_false, stoll, List.head?_cons,
            Option.some.injEq, hc, htake, bind_eq_ok, require_eq_ok] at h
          exact absurd rfl h.choose_spec.1
  · intro h
    cases h with
    | none => rfl
    | digits hne hl hrest hfits =>
      rw [readInt, if_neg (by simp [hne]), stoll_digits hne hl hrest]
      exact ⟨hfits, rfl⟩
    | minus hne hl hrest hfits =>
      rw [readInt, if_neg (by simp), stoll_minus hl hrest]
      exact ⟨hne, hfits, rfl⟩

/-! ## What a text begins with -/

theorem leading_unique {z' : ℤ} (h : Leading text z) (h' : Leading text z') : z = z' := by
  rw [← readInt_eq_ok] at h h'
  exact Except.ok.inj (h.symm.trans h')

theorem leading_append_point (ht : text ≠ []) :
    Leading (text ++ '.' :: rest) z ↔ Leading text z := by
  rw [← readInt_eq_ok, ← readInt_eq_ok, readInt, readInt, if_neg (by simp), if_neg ht,
    stoll_append_point ht]

theorem not_leading_point : ¬ Leading ('.' :: rest) z := by
  have htake : ('.' :: rest).takeWhile Char.isDigit = [] := List.takeWhile_cons_of_neg (by decide)
  intro h
  simp only [← readInt_eq_ok, readInt, reduceCtorEq, if_false, stoll, List.head?_cons,
    Option.some.injEq, Char.reduceEq, htake, bind_eq_ok, require_eq_ok] at h
  exact h.choose_spec.1 rfl

theorem leading_digits (hl : ∀ c ∈ l, c.isDigit) :
    Leading l z ↔ value l < 2 ^ 63 ∧ z = value l := by
  by_cases hne : l = []
  · subst hne
    constructor
    · intro h
      cases leading_unique h .none
      exact ⟨by decide, rfl⟩
    · rintro ⟨-, rfl⟩
      exact .none
  · have hends : Ends [] := fun c hc => by cases hc
    rw [← readInt_eq_ok, readInt, if_neg hne, ← stoll_digits hne hl hends, List.append_nil]

theorem leading_rightpad {k : ℕ} (hk : k ≤ 15) (hl : ∀ c ∈ l, c.isDigit) (hlen : l.length ≤ k) :
    Leading (l.rightpad k '0') z ↔ z = (value l * 10 ^ (k - l.length) : ℕ) := by
  have hdigits : ∀ c ∈ l.rightpad k '0', c.isDigit := by
    intro c hc
    rcases List.mem_append.1 hc with hc | hc
    · exact hl c hc
    · rw [List.eq_of_mem_replicate hc]
      decide
  have hvalue : value (l.rightpad k '0') = value l * 10 ^ (k - l.length) := by
    rw [List.rightpad, value_append, List.length_replicate, value_replicate_zero, add_zero, mul_comm]
  have hfits : value (l.rightpad k '0') < 2 ^ 63 := by
    have hlt := value_lt hdigits
    rw [List.length_rightpad, Nat.max_eq_left hlen] at hlt
    exact hlt.trans ((Nat.pow_le_pow_right (by decide) hk).trans_lt (by decide))
  rw [leading_digits hdigits, hvalue] at *
  exact and_iff_right hfits

end Reading

/-! ## The characters of the text -/

section Scanning

variable {l rest s : List Char} {neg dec neg' dec' : Bool}

theorem scanAmount_digits (hl : ∀ c ∈ l, c.isDigit) :
    scanAmount (l ++ rest) neg dec = scanAmount rest neg dec := by
  induction l with
  | nil => rfl
  | cons c l ih =>
    rw [List.cons_append, scanAmount, if_pos (hl c List.mem_cons_self)]
    exact ih fun d hd => hl d (List.mem_cons_of_mem _ hd)

@[simp]
theorem scanAmount_minus : scanAmount ('-' :: rest) false dec = scanAmount rest true dec := rfl

@[simp]
theorem scanAmount_point : scanAmount ('.' :: rest) neg false = scanAmount rest neg true := rfl

theorem scanAmount_cases (h : scanAmount s neg dec = .ok (neg', dec')) :
    ∃ l, (∀ c ∈ l, c.isDigit) ∧
      ((s = l ∧ neg' = neg ∧ dec' = dec) ∨
        (∃ rest, s = l ++ '-' :: rest ∧ neg = false ∧ scanAmount rest true dec = .ok (neg', dec')) ∨
        (∃ rest, s = l ++ '.' :: rest ∧ dec = false ∧
          scanAmount rest neg true = .ok (neg', dec'))) := by
  obtain ⟨l, rest, rfl, hl, hrest⟩ := exists_digits s
  rw [scanAmount_digits hl] at h
  refine ⟨l, hl, ?_⟩
  cases rest with
  | nil =>
    cases h
    exact .inl ⟨List.append_nil l, rfl, rfl⟩
  | cons c rest =>
    rw [scanAmount, if_neg (hrest c rfl)] at h
    split at h
    · rename_i hc
      obtain ⟨rfl, hneg⟩ := hc
      exact .inr (.inl ⟨rest, rfl, by simpa using hneg, h⟩)
    · split at h
      · rename_i hc
        obtain ⟨rfl, hdec⟩ := hc
        exact .inr (.inr ⟨rest, rfl, by simpa using hdec, h⟩)
      · cases h

theorem scanAmount_sign (h : scanAmount s true false = .ok (neg', dec')) :
    ∃ n : Numeral, '-' :: s = n.text ∧ n.negative := by
  obtain ⟨a, ha, h⟩ := scanAmount_cases h
  rcases h with ⟨rfl, -⟩ | ⟨_, _, ⟨⟩, _⟩ | ⟨t, rfl, -, h⟩
  · exact ⟨⟨true, s, none, ha, by simp⟩, by simp [Numeral.text, Numeral.point], rfl⟩
  · obtain ⟨b, hb, h⟩ := scanAmount_cases h
    rcases h with ⟨rfl, -⟩ | ⟨_, _, ⟨⟩, _⟩ | ⟨_, _, ⟨⟩, _⟩
    exact ⟨⟨true, a, some t, ha, hb⟩, by simp [Numeral.text, Numeral.point], rfl⟩

theorem scanAmount_shapes (h : scanAmount s false false = .ok (neg, dec)) :
    (∃ n : Numeral, s = n.text) ∨
    (∃ l, ∃ n : Numeral, s = l ++ n.text ∧ l ≠ [] ∧ (∀ c ∈ l, c.isDigit) ∧ n.negative) ∨
    (∃ l a b : List Char, s = l ++ '.' :: (a ++ '-' :: b) ∧ (∀ c ∈ l, c.isDigit) ∧
      (∀ c ∈ a, c.isDigit) ∧ ∀ c ∈ b, c.isDigit) := by
  obtain ⟨l, hl, h⟩ := scanAmount_cases h
  rcases h with ⟨rfl, -⟩ | ⟨t, rfl, -, h⟩ | ⟨t, rfl, -, h⟩
  · exact .inl ⟨⟨false, s, none, hl, by simp⟩, by simp [Numeral.text, Numeral.point]⟩
  · obtain ⟨n, hn, hneg⟩ := scanAmount_sign h
    rw [hn]
    by_cases hne : l = []
    · exact .inl ⟨n, by rw [hne, List.nil_append]⟩
    · exact .inr (.inl ⟨l, n, rfl, hne, hl, hneg⟩)
  · obtain ⟨a, ha, h⟩ := scanAmount_cases h
    rcases h with ⟨rfl, -⟩ | ⟨t, rfl, -, h⟩ | ⟨_, _, ⟨⟩, _⟩
    · exact .inl ⟨⟨false, l, some t, hl, ha⟩, by simp [Numeral.text, Numeral.point]⟩
    · obtain ⟨b, hb, h⟩ := scanAmount_cases h
      rcases h with ⟨rfl, -⟩ | ⟨_, _, ⟨⟩, _⟩ | ⟨_, _, ⟨⟩, _⟩
      exact .inr (.inr ⟨l, a, t, rfl, hl, ha, hb⟩)

theorem scanAmount_of_digits (hl : ∀ c ∈ l, c.isDigit) : scanAmount l neg dec = .ok (neg, dec) := by
  rw [← List.append_nil l, scanAmount_digits hl]
  rfl

theorem scanAmount_body (n : Numeral) :
    scanAmount (n.whole ++ n.point) neg false = .ok (neg, n.fraction.isSome) := by
  have hend := n.fraction_digits
  rw [scanAmount_digits n.whole_digits, Numeral.point]
  cases hf : n.fraction with
  | none => rfl
  | some f =>
    rw [hf] at hend
    exact scanAmount_of_digits hend

theorem scanAmount_text (n : Numeral) :
    scanAmount n.text false false = .ok (n.negative, n.fraction.isSome) := by
  rw [Numeral.text]
  cases n.negative with
  | false => exact scanAmount_body n
  | true => exact scanAmount_body n

end Scanning

/-! ## What is returned -/

section Evaluation

variable {k : ℕ} {s : List Char} {neg dec : Bool} {v : ShareType}

def wrapAmount (neg : Bool) (z : ℤ) : ShareType :=
  if neg then Int64.ofInt z * -1 else Int64.ofInt z

theorem passes_iff {z : ℤ} : Passes z ↔ Int64.ofInt z ≤ MAX_SHARES := by
  rw [Int64.le_iff_toInt_le, Int64.toInt_ofInt]
  rfl

theorem isPowerOfTen_pow : isPowerOfTen (10 ^ k) ↔ k ≤ 15 := by
  simp only [isPowerOfTen, List.any_eq_true, List.mem_range, decide_eq_true_eq]
  constructor
  · rintro ⟨i, hi, h⟩
    rw [Nat.pow_right_injective (by decide) h]
    omega
  · exact fun h => ⟨k, by omega, rfl⟩

theorem part_eq_ok {text : List Char} {g : ℤ → ShareType} (hg : g 0 = 0) :
    (if text = [] then pure 0 else do return g (← stoll text) : Except Error ShareType) = .ok v ↔
      ∃ z, Leading text z ∧ v = g z := by
  simp only [← readInt_eq_ok, readInt]
  split
  · simp only [pure_eq_ok, Except.ok.injEq, exists_eq_left', hg]
    exact eq_comm
  · simp only [bind_eq_ok, pure_eq_ok]
    exact exists_congr fun z => and_congr_right' eq_comm

theorem le_of_eq_ok (h : shareStringToSatoshi s (10 ^ k) = .ok v) : k ≤ 15 := by
  simp only [shareStringToSatoshi, bind_eq_ok, require_eq_ok, isPowerOfTen_pow] at h
  obtain ⟨_, _, _, hle, _⟩ := h
  exact hle

theorem wholeSatoshis_eq_ok {lhs : List Char} :
    wholeSatoshis lhs (10 ^ k) = .ok v ↔ ∃ z, Leading lhs z ∧ v = Int64.ofInt (z * 10 ^ k) := by
  have hpow : Int64.ofNat (10 ^ k) = Int64.ofInt (10 ^ k) := by
    rw [← Int64.ofInt_eq_ofNat]
    norm_cast
  simp only [Int64.ofInt_mul, ← hpow]
  exact part_eq_ok (Int64.zero_mul)

theorem fractionSatoshis_eq_ok {rhs : List Char} :
    fractionSatoshis rhs (10 ^ k) = .ok v ↔
      rhs.length ≤ k ∧ ∃ z, Leading (rhs.rightpad k '0') z ∧ v = Int64.ofInt z := by
  have hsize : ((Nat.toDigits 10 (10 ^ k)).drop 1).length = k := by
    simpa using (padded (n := 0) (k := k) (by positivity)).1
  simp only [fractionSatoshis, hsize, bind_eq_ok, require_eq_ok]
  rw [← part_eq_ok (v := v) (g := Int64.ofInt) rfl]
  exact ⟨fun ⟨_, h⟩ => h, fun h => ⟨(), h⟩⟩

theorem shareStringToSatoshi_eq_ok (hk : k ≤ 15)
    (hscan : scanAmount s false false = .ok (neg, dec)) :
    shareStringToSatoshi s (10 ^ k) = .ok v ↔
      ∃ whole fraction, Leading ((s.drop neg.toNat).take (s.idxOf '.')) whole ∧
        (if dec then (s.drop (s.idxOf '.' + 1)).length ≤ k ∧
            Leading ((s.drop (s.idxOf '.' + 1)).rightpad k '0') fraction
          else fraction = 0) ∧
        Passes (whole * 10 ^ k + fraction) ∧ v = wrapAmount neg (whole * 10 ^ k + fraction) := by
  have hpow : isPowerOfTen (10 ^ k) := isPowerOfTen_pow.2 hk
  cases dec with
  | false =>
    simp only [shareStringToSatoshi, hscan, bind_eq_ok, Except.ok.injEq, Prod.exists, Prod.mk.injEq,
      require_eq_ok, wholeSatoshis_eq_ok, passes_iff, wrapAmount]
    constructor
    · rintro ⟨neg, dec, ⟨rfl, rfl⟩, -, -, _, ⟨whole, hwhole, rfl⟩, hrest⟩
      simp only [Bool.false_eq_true, if_false, bind_eq_ok, pure_eq_ok, require_eq_ok] at hrest
      obtain ⟨_, rfl, -, hmax, rfl⟩ := hrest
      exact ⟨whole, 0, hwhole, rfl, by simpa using hmax, by simp⟩
    · rintro ⟨whole, fraction, hwhole, hfraction, hmax, rfl⟩
      cases hfraction
      refine ⟨neg, false, ⟨rfl, rfl⟩, (), hpow, _, ⟨whole, hwhole, rfl⟩, ?_⟩
      simp only [Bool.false_eq_true, if_false, bind_eq_ok, pure_eq_ok, require_eq_ok]
      exact ⟨0, rfl, (), by simpa using hmax, by simp⟩
  | true =>
    simp only [shareStringToSatoshi, hscan, bind_eq_ok, Except.ok.injEq, Prod.exists, Prod.mk.injEq,
      require_eq_ok, wholeSatoshis_eq_ok, passes_iff, wrapAmount, Int64.ofInt_add, if_true]
    constructor
    · rintro ⟨neg, dec, ⟨rfl, rfl⟩, -, -, _, ⟨whole, hwhole, rfl⟩, hrest⟩
      simp only [if_true, bind_eq_ok, pure_eq_ok, require_eq_ok, fractionSatoshis_eq_ok] at hrest
      obtain ⟨_, ⟨hlen, fraction, hfraction, rfl⟩, -, hmax, rfl⟩ := hrest
      exact ⟨whole, fraction, hwhole, ⟨hlen, hfraction⟩, hmax, rfl⟩
    · rintro ⟨whole, fraction, hwhole, ⟨hlen, hfraction⟩, hmax, rfl⟩
      refine ⟨neg, true, ⟨rfl, rfl⟩, (), hpow, _, ⟨whole, hwhole, rfl⟩, ?_⟩
      simp only [if_true, bind_eq_ok, pure_eq_ok, require_eq_ok, fractionSatoshis_eq_ok]
      exact ⟨_, ⟨hlen, fraction, hfraction, rfl⟩, (), hmax, rfl⟩

/-- The text before the point, without its first character if there is a sign: what is taken
instead is the point. -/
theorem leading_before_point {pre : List Char} {tail : Option (List Char)} {z : ℤ} :
    Leading (((pre ++ tail.elim [] ('.' :: ·)).drop neg.toNat).take pre.length) z ↔
      Leading (pre.drop neg.toNat) z ∧ ¬ (neg ∧ pre.length = 1 ∧ tail.isSome) := by
  cases neg with
  | false => simp
  | true =>
    cases pre with
    | nil => simp
    | cons c pre =>
      have htake : (pre ++ tail.elim [] ('.' :: ·)).take (pre.length + 1) =
          pre ++ (tail.elim [] ('.' :: ·)).take 1 := List.take_length_add_append 1
      simp only [Bool.toNat_true, List.cons_append, List.drop_succ_cons, List.drop_zero,
        List.length_cons, htake]
      cases tail with
      | none => simp
      | some t =>
        by_cases hpre : pre = []
        · simp [hpre, not_leading_point]
        · simp [leading_append_point hpre, hpre]

theorem eval_parts {pre : List Char} {tail : Option (List Char)} (hk : k ≤ 15) (hpre : '.' ∉ pre)
    (hscan : scanAmount (pre ++ tail.elim [] ('.' :: ·)) false false = .ok (neg, tail.isSome)) :
    shareStringToSatoshi (pre ++ tail.elim [] ('.' :: ·)) (10 ^ k) = .ok v ↔
      ∃ whole fraction, Leading (pre.drop neg.toNat) whole ∧
        ¬ (neg ∧ pre.length = 1 ∧ tail.isSome) ∧ (tail.getD []).length ≤ k ∧
        Leading ((tail.getD []).rightpad k '0') fraction ∧
        Passes (whole * 10 ^ k + fraction) ∧ v = wrapAmount neg (whole * 10 ^ k + fraction) := by
  have hpos : (pre ++ tail.elim [] ('.' :: ·)).idxOf '.' = pre.length := by
    rw [List.idxOf_append_of_notMem hpre]
    cases tail <;> simp
  rw [shareStringToSatoshi_eq_ok hk hscan, hpos]
  simp only [leading_before_point, and_assoc]
  refine exists_congr fun whole => exists_congr fun fraction => and_congr_right' <|
    and_congr_right' ?_
  cases tail with
  | none =>
    have hzero : Leading (List.replicate k '0') fraction ↔ fraction = 0 := by
      simpa using leading_rightpad (l := []) (z := fraction) hk (by simp) (Nat.zero_le k)
    simp [hzero]
  | some t =>
    have hdrop : (pre ++ '.' :: t).drop (pre.length + 1) = t := by simp
    simp [hdrop, and_assoc]

theorem digits_notMem {l : List Char} {c : Char} (hl : ∀ c ∈ l, c.isDigit) (hc : ¬ c.isDigit) :
    c ∉ l := fun h => hc (hl c h)

theorem eval_numeral {n : Numeral} (hk : k ≤ 15) :
    shareStringToSatoshi n.text (10 ^ k) = .ok v ↔
      ¬ (n.negative ∧ n.whole = [] ∧ n.fraction.isSome) ∧ n.places ≤ k ∧ value n.whole < 2 ^ 63 ∧
        Passes (n.scaled k) ∧ v = wrapAmount n.negative (n.scaled k) := by
  have hscan := scanAmount_text n
  have htext : n.text = ((if n.negative then ['-'] else []) ++ n.whole) ++
      n.fraction.elim [] ('.' :: ·) := by
    rw [Numeral.text, Numeral.point, List.append_assoc]
  have hpre : '.' ∉ (if n.negative then ['-'] else []) ++ n.whole := by
    have := digits_notMem n.whole_digits (c := '.') (by decide)
    cases n.negative <;> simpa
  have hdrop : ((if n.negative then ['-'] else []) ++ n.whole).drop n.negative.toNat = n.whole := by
    cases n.negative <;> rfl
  have hlen : (n.negative ∧ ((if n.negative then ['-'] else []) ++ n.whole).length = 1 ∧
      n.fraction.isSome) ↔ n.negative ∧ n.whole = [] ∧ n.fraction.isSome := by
    cases n.negative <;> simp
  have hsum : (value n.whole : ℤ) * 10 ^ k +
      (value (n.fraction.getD []) * 10 ^ (k - n.places) : ℕ) = n.scaled k := by
    rw [Numeral.scaled]
    push_cast
    rfl
  rw [htext] at hscan ⊢
  rw [eval_parts hk hpre hscan, hdrop, hlen, ← hsum]
  constructor
  · rintro ⟨whole, fraction, hwhole, hpoint, hplaces, hfraction, hpasses, rfl⟩
    obtain ⟨hfits, rfl⟩ := (leading_digits n.whole_digits).1 hwhole
    obtain rfl := (leading_rightpad hk n.fraction_digits hplaces).1 hfraction
    exact ⟨hpoint, hplaces, hfits, hpasses, rfl⟩
  · rintro ⟨hpoint, hplaces, hfits, hpasses, rfl⟩
    exact ⟨_, _, (leading_digits n.whole_digits).2 ⟨hfits, rfl⟩, hpoint, hplaces,
      (leading_rightpad hk n.fraction_digits hplaces).2 rfl, hpasses, rfl⟩

theorem eval_sign {l : List Char} {n : Numeral} (hk : k ≤ 15) (hne : l ≠ [])
    (hl : ∀ c ∈ l, c.isDigit) (hneg : n.negative) :
    shareStringToSatoshi (l ++ n.text) (10 ^ k) = .ok v ↔
      ∃ whole, Leading (l.tail ++ '-' :: n.whole) whole ∧ n.places ≤ k ∧
        Passes (whole * 10 ^ k + value (n.fraction.getD []) * 10 ^ (k - n.places)) ∧
        v = wrapAmount true
          (whole * 10 ^ k + value (n.fraction.getD []) * 10 ^ (k - n.places)) := by
  have htext : l ++ n.text = (l ++ '-' :: n.whole) ++ n.fraction.elim [] ('.' :: ·) := by
    rw [Numeral.text, Numeral.point, hneg]
    simp
  have hscan : scanAmount (l ++ n.text) false false = .ok (true, n.fraction.isSome) := by
    rw [scanAmount_digits hl, scanAmount_text, hneg]
  have hpre : '.' ∉ l ++ '-' :: n.whole := by
    have := digits_notMem n.whole_digits (c := '.') (by decide)
    have := digits_notMem hl (c := '.') (by decide)
    simp_all
  have hdrop : (l ++ '-' :: n.whole).drop 1 = l.tail ++ '-' :: n.whole := by
    cases l with
    | nil => exact absurd rfl hne
    | cons c l => rfl
  have hlen : (l ++ '-' :: n.whole).length ≠ 1 := by
    have := List.length_pos_iff.2 hne
    simp only [List.length_append, List.length_cons]
    omega
  rw [htext] at hscan ⊢
  rw [eval_parts hk hpre hscan, Bool.toNat_true, hdrop]
  constructor
  · rintro ⟨whole, fraction, hwhole, -, hplaces, hfraction, hpasses, rfl⟩
    obtain rfl := (leading_rightpad hk n.fraction_digits hplaces).1 hfraction
    push_cast at hpasses ⊢
    exact ⟨whole, hwhole, hplaces, hpasses, rfl⟩
  · rintro ⟨whole, hwhole, hplaces, hpasses, rfl⟩
    refine ⟨whole, _, hwhole, fun h => hlen h.2.1, hplaces,
      (leading_rightpad hk n.fraction_digits hplaces).2 rfl, ?_⟩
    push_cast
    exact ⟨hpasses, rfl⟩

theorem eval_signAfterPoint {l a b : List Char} (hk : k ≤ 15) (hl : ∀ c ∈ l, c.isDigit)
    (ha : ∀ c ∈ a, c.isDigit) (hb : ∀ c ∈ b, c.isDigit) :
    shareStringToSatoshi (l ++ '.' :: (a ++ '-' :: b)) (10 ^ k) = .ok v ↔
      ∃ whole fraction, Leading l.tail whole ∧ l.length ≠ 1 ∧ (a ++ '-' :: b).length ≤ k ∧
        Leading ((a ++ '-' :: b).rightpad k '0') fraction ∧ Passes (whole * 10 ^ k + fraction) ∧
        v = wrapAmount true (whole * 10 ^ k + fraction) := by
  have hscan : scanAmount (l ++ '.' :: (a ++ '-' :: b)) false false = .ok (true, true) := by
    rw [scanAmount_digits hl, scanAmount_point, scanAmount_digits ha, scanAmount_minus,
      scanAmount_of_digits hb]
  have hparts := @eval_parts _ _ v _ (some (a ++ '-' :: b)) hk (digits_notMem hl (by decide)) hscan
  simpa using hparts

end Evaluation

/-! ## Amounts -/

section Amounts

variable {k : ℕ} {s : List Char} {v : ShareType} {n : Numeral}

theorem passes_of_fits {m : ℕ} (h : m < 2 ^ 63) : Passes m ↔ m ≤ 10 ^ 15 := by
  rw [Passes, Int.bmod_eq_of_le (by omega) (by omega)]
  omega

theorem toInt_wrapAmount {neg : Bool} {m : ℕ} (h : m ≤ 10 ^ 15) :
    (wrapAmount neg m).toInt = if neg then -(m : ℤ) else m := by
  have hm : (Int64.ofInt m).toInt = m := Int64.toInt_ofInt_of_le (by omega) (by omega)
  cases neg with
  | false => exact hm
  | true =>
    have hminus : (-1 : Int64).toInt = -1 := by decide
    simp only [wrapAmount, if_true]
    rw [Int64.toInt_mul, hm, hminus, mul_neg_one]
    exact Int.bmod_eq_of_le (by omega) (by omega)

theorem isAmount_text :
    IsAmount n.text k v ↔ n.digits ≠ [] ∧ n.places ≤ k ∧ n.scaled k ≤ 10 ^ 15 ∧
      v = wrapAmount n.negative (n.scaled k) := by
  have hmax : MAX_SHARES.toInt = 10 ^ 15 := by decide
  constructor
  · rintro ⟨m, hm, hdigits, hplaces, hvalue, hle⟩
    obtain rfl := Numeral.text_injective hm
    rw [Numeral.value_eq_iff hplaces] at hvalue
    have hscaled : m.scaled k ≤ 10 ^ 15 := by
      rw [hvalue, hmax] at hle
      split at hle <;> simp only [abs_neg, Nat.abs_cast] at hle <;> omega
    exact ⟨hdigits, hplaces, hscaled,
      Int64.toInt_inj.1 (hvalue.trans (toInt_wrapAmount hscaled).symm)⟩
  · rintro ⟨hdigits, hplaces, hscaled, rfl⟩
    refine ⟨n, rfl, hdigits, hplaces, (Numeral.value_eq_iff hplaces).2 (toInt_wrapAmount hscaled), ?_⟩
    rw [toInt_wrapAmount hscaled, hmax]
    split <;> simp only [abs_neg, Nat.abs_cast] <;> omega

theorem not_isAmount_of_minus (h : '-' ∈ s.tail) : ¬ IsAmount s k v := by
  rintro ⟨n, rfl, -⟩
  exact n.minus_notMem_tail h

theorem digits_eq_nil : n.digits = [] ↔ n.whole = [] ∧ n.places = 0 := by
  rw [Numeral.digits, Numeral.places, List.append_eq_nil_iff, List.length_eq_zero_iff]

theorem blank_text (hdigits : n.digits = [])
    (hpoint : ¬ (n.negative ∧ n.whole = [] ∧ n.fraction.isSome)) :
    n.text = [] ∨ n.text = ['.'] ∨ n.text = ['-'] := by
  obtain ⟨hwhole, hplaces⟩ := digits_eq_nil.1 hdigits
  rw [Numeral.places, List.length_eq_zero_iff] at hplaces
  rw [Numeral.text, Numeral.point, hwhole]
  cases hneg : n.negative <;> cases hf : n.fraction <;> simp_all

theorem eval_iff_of_not_misread (hk : k ≤ 15) (hread : ¬ Misread k n.text) :
    shareStringToSatoshi n.text (10 ^ k) = .ok v ↔ IsAmount n.text k v := by
  rw [eval_numeral hk, isAmount_text]
  constructor
  · rintro ⟨hpoint, hplaces, hwhole, hpasses, rfl⟩
    have hfits : n.scaled k < 2 ^ 63 := by
      by_contra hwrap
      exact hread (.wrapped n hk hwhole hplaces (not_lt.1 hwrap) hpasses)
    exact ⟨fun hdigits => hread (.blank hk (blank_text hdigits hpoint)), hplaces,
      (passes_of_fits hfits).1 hpasses, rfl⟩
  · rintro ⟨hdigits, hplaces, hscaled, rfl⟩
    have hwhole : value n.whole ≤ n.scaled k :=
      (Nat.le_mul_of_pos_right _ (by positivity)).trans (Nat.le_add_right _ _)
    refine ⟨?_, hplaces, by omega, (passes_of_fits (by omega)).2 hscaled, rfl⟩
    rintro ⟨hneg, hempty, -⟩
    have hpos : 0 < n.places := Nat.pos_of_ne_zero fun hzero =>
      hdigits (digits_eq_nil.2 ⟨hempty, hzero⟩)
    exact hread (.point n hk hneg hempty hpos hplaces)

theorem scaled_le_of_whole_eq_nil (hk : k ≤ 15) (hwhole : n.whole = []) (hplaces : n.places ≤ k) :
    n.scaled k ≤ 10 ^ 15 := by
  have hlt := value_lt n.fraction_digits
  have hpow : 10 ^ n.places * 10 ^ (k - n.places) = 10 ^ k := by
    rw [← pow_add, Nat.add_sub_cancel' hplaces]
  have hle : 10 ^ k ≤ 10 ^ 15 := Nat.pow_le_pow_right (by decide) hk
  calc n.scaled k = value (n.fraction.getD []) * 10 ^ (k - n.places) := by
        rw [Numeral.scaled, hwhole]
        simp [value]
    _ ≤ 10 ^ n.places * 10 ^ (k - n.places) := Nat.mul_le_mul_right _ hlt.le
    _ ≤ 10 ^ 15 := hpow ▸ hle

theorem Misread.disagrees (h : Misread k s) :
    ¬ ∀ v, shareStringToSatoshi s (10 ^ k) = .ok v ↔ IsAmount s k v := by
  intro hread
  cases h with
  | precision hk hamount =>
    exact hk.not_ge (le_of_eq_ok ((hread _).2 hamount))
  | blank hk hblank =>
    have hzero : ∀ n : Numeral, n.digits = [] → s = n.text →
        ¬ (n.negative ∧ n.whole = [] ∧ n.fraction.isSome) → False := by
      rintro n hdigits rfl hpoint
      obtain ⟨hwhole, hplaces⟩ := digits_eq_nil.1 hdigits
      have hscaled := scaled_le_of_whole_eq_nil hk hwhole (by omega)
      have hok := (hread _).1 ((eval_numeral hk).2 ⟨hpoint, by omega, by simp [hwhole, value],
        (passes_of_fits (by omega)).2 hscaled, rfl⟩)
      exact (isAmount_text.1 hok).1 hdigits
    rcases hblank with rfl | rfl | rfl
    · exact hzero ⟨false, [], none, by simp, by simp⟩ rfl rfl (by simp)
    · exact hzero ⟨false, [], some [], by simp, by simp⟩ rfl rfl (by simp)
    · exact hzero ⟨true, [], none, by simp, by simp⟩ rfl rfl (by simp)
  | point n hk hneg hwhole hpos hplaces =>
    have hdigits : n.digits ≠ [] := fun h => hpos.ne' (digits_eq_nil.1 h).2
    have hsome : n.fraction.isSome := by
      cases hf : n.fraction with
      | none => simp [Numeral.places, hf] at hpos
      | some f => rfl
    have hok := (hread _).2 (isAmount_text.2 ⟨hdigits, hplaces,
      scaled_le_of_whole_eq_nil hk hwhole hplaces, rfl⟩)
    exact ((eval_numeral hk).1 hok).1 ⟨hneg, hwhole, hsome⟩
  | wrapped n hk hwhole hplaces hbig hpasses =>
    have hpoint : ¬ (n.negative ∧ n.whole = [] ∧ n.fraction.isSome) := fun ⟨_, hempty, _⟩ => by
      have := scaled_le_of_whole_eq_nil hk hempty hplaces
      omega
    have hok := (hread _).1 ((eval_numeral hk).2 ⟨hpoint, hplaces, hwhole, hpasses, rfl⟩)
    have hscaled := (isAmount_text.1 hok).2.2.1
    omega
  | sign l n whole hk hne hl hneg hplaces hleading hpasses =>
    have hok := (hread _).1 ((eval_sign hk hne hl hneg).2 ⟨whole, hleading, hplaces, hpasses, rfl⟩)
    refine not_isAmount_of_minus ?_ hok
    cases l with
    | nil => exact absurd rfl hne
    | cons c l => simp [Numeral.text, hneg]
  | signAfterPoint l a b whole fraction hk hlen hl ha hb hplaces hwhole hfraction hpasses =>
    have hok := (hread _).1 ((eval_signAfterPoint hk hl ha hb).2
      ⟨whole, fraction, hwhole, hlen, hplaces, hfraction, hpasses, rfl⟩)
    refine not_isAmount_of_minus ?_ hok
    cases l <;> simp

end Amounts

/-- **Amount parsing.**  `share_string_to_satoshi` returns the amount of a text that is one, and
throws for every other text, exactly if the text is not among the misread ones. -/
theorem shareStringToSatoshi_iff (s : List Char) (k : ℕ) :
    (∀ v, shareStringToSatoshi s (10 ^ k) = .ok v ↔ IsAmount s k v) ↔ ¬ Misread k s := by
  refine ⟨fun hread hmisread => hmisread.disagrees hread, fun hread v => ?_⟩
  rcases le_or_gt k 15 with hk | hk
  · by_cases hnumeral : ∃ n : Numeral, s = n.text
    · obtain ⟨n, rfl⟩ := hnumeral
      exact eval_iff_of_not_misread hk hread
    · refine iff_of_false (fun hok => ?_) fun ⟨n, hn, _⟩ => hnumeral ⟨n, hn.symm⟩
      have hscan := hok
      simp only [shareStringToSatoshi, bind_eq_ok] at hscan
      obtain ⟨⟨neg, dec⟩, hscan, -⟩ := hscan
      rcases scanAmount_shapes hscan with h | ⟨l, n, rfl, hne, hl, hneg⟩ | ⟨l, a, b, rfl, hl, ha, hb⟩
      · exact hnumeral h
      · obtain ⟨whole, hwhole, hplaces, hpasses, -⟩ := (eval_sign hk hne hl hneg).1 hok
        exact hread (.sign l n whole hk hne hl hneg hplaces hwhole hpasses)
      · obtain ⟨whole, fraction, hwhole, hlen, hplaces, hfraction, hpasses, -⟩ :=
          (eval_signAfterPoint hk hl ha hb).1 hok
        exact hread (.signAfterPoint l a b whole fraction hk hlen hl ha hb hplaces hwhole hfraction
          hpasses)
  · exact iff_of_false (fun hok => hk.not_ge (le_of_eq_ok hok)) fun hamount =>
      hread (.precision hk hamount)

/-- An amount of 64 bits and more comes out as nothing. -/
theorem amount_lost :
    shareStringToSatoshi "576460752303423488".toList (10 ^ 5) = .ok 0 ∧
      ¬ IsAmount "576460752303423488".toList 5 0 := by
  refine ⟨by decide +kernel, fun h => ?_⟩
  have hscaled := (isAmount_text (n := ⟨false, "576460752303423488".toList, none,
    List.all_eq_true.1 (by decide +kernel), List.forall_mem_nil _⟩)).1 h
  exact absurd hscaled.2.2.1 (by decide +kernel)

end BitShares
