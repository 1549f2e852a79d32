import Mathlib.Data.Nat.Basic
import Mathlib.Algebra.Order.Group.Nat

/-!
# Byte streams

Two ways in which a stream is handled piece by piece, and the rules that put the pieces together.

* `readExact` asks a source for bytes until it has as many as it wants.  `ServesBlocks` says that the
  source gives what lies ahead of it in pieces of whole blocks; `readExact_ok` is then the rule for
  the whole read.
* `onBlocks` runs a stateful function over the blocks of a text, as a cipher does; `onBlocks_append`
  cuts the text at a block, and `onBlocks_cancel` undoes one function by another.
-/

namespace BitShares

abbrev Byte := UInt8

/-! ## Reading -/

section Reading

variable {ε σ : Type} (readsome : Nat → σ → Except ε (List Byte × σ)) (stalled : ε)

/-- Read until `len` bytes are there.  Every piece has at least one byte, so `len` rounds are
enough; a source that gives nothing would be asked forever, which is `stalled`. -/
def readExact : (rounds len : Nat) → σ → Except ε (List Byte × σ)
  | _, 0, s => .ok ([], s)
  | 0, _ + 1, _ => .error stalled
  | rounds + 1, len + 1, s => do
    let (bytes, s) ← readsome (len + 1) s
    let (rest, s) ← readExact rounds (len + 1 - bytes.length) s
    return (bytes ++ rest, s)

/-- The source gives the bytes ahead of it in pieces of whole blocks of `b` bytes. -/
def ServesBlocks (b : Nat) (Ahead : σ → List Byte → Prop) : Prop :=
  ∀ s l len, Ahead s l → 0 < len → b ∣ len → len ≤ l.length →
    ∃ n s', 0 < n ∧ n ≤ len ∧ b ∣ n ∧ readsome len s = .ok (l.take n, s') ∧ Ahead s' (l.drop n)

variable {readsome stalled}

theorem readExact_ok {b : Nat} {Ahead : σ → List Byte → Prop}
    (hserves : ServesBlocks readsome b Ahead) {rounds len : Nat} {s : σ} {l : List Byte}
    (hs : Ahead s l) (hb : b ∣ len) (hlen : len ≤ l.length) (hrounds : len ≤ rounds) :
    ∃ s', readExact readsome stalled rounds len s = .ok (l.take len, s') ∧
      Ahead s' (l.drop len) := by
  induction rounds generalizing len s l with
  | zero =>
    obtain rfl : len = 0 := by omega
    exact ⟨s, by simp [readExact], hs⟩
  | succ rounds ih =>
    cases len with
    | zero => exact ⟨s, by simp [readExact], hs⟩
    | succ len =>
      obtain ⟨n, s₁, hpos, hle, hbn, hread, hs₁⟩ := hserves s l (len + 1) hs (by omega) hb hlen
      obtain ⟨s₂, hrest, hs₂⟩ := ih hs₁ (Nat.dvd_sub hb hbn) (by rw [List.length_drop]; omega)
        (by omega)
      have hn : (l.take n).length = n := List.length_take_of_le (by omega)
      refine ⟨s₂, ?_, ?_⟩
      · rw [← List.take_append_drop n (l.take (len + 1)), List.take_take, min_eq_left hle,
          List.drop_take]
        simp only [readExact, hread, bind, Except.bind, hn, hrest]
        rfl
      · rwa [List.drop_drop, Nat.add_sub_of_le hle] at hs₂

end Reading

/-! ## Blocks -/

section Blocks

variable {σ τ : Type} (b : Nat) (f : σ → List Byte → σ × List Byte)

/-- Run `f` over the first `n` blocks. -/
def mapBlocks : Nat → σ → List Byte → σ × List Byte
  | 0, s, _ => (s, [])
  | n + 1, s, l =>
    let (s, c) := f s (l.take b)
    let (s, cs) := mapBlocks n s (l.drop b)
    (s, c ++ cs)

def onBlocks (s : σ) (l : List Byte) : σ × List Byte := mapBlocks b f (l.length / b) s l

variable {b f}

theorem mapBlocks_append {m n : Nat} {s : σ} {l l' : List Byte} (hl : l.length = b * m) :
    mapBlocks b f (m + n) s (l ++ l') =
      ((mapBlocks b f n (mapBlocks b f m s l).1 l').1,
        (mapBlocks b f m s l).2 ++ (mapBlocks b f n (mapBlocks b f m s l).1 l').2) := by
  induction m generalizing s l with
  | zero =>
    obtain rfl : l = [] := List.length_eq_zero_iff.1 (by simpa using hl)
    simp [mapBlocks]
  | succ m ih =>
    have hb : b ≤ l.length := by rw [hl]; exact Nat.le_mul_of_pos_right b (Nat.succ_pos m)
    have hdrop : (l.drop b).length = b * m := by
      rw [List.length_drop, hl, Nat.mul_succ, Nat.add_sub_cancel]
    rw [Nat.add_right_comm]
    simp only [mapBlocks, List.take_append_of_le_length hb, List.drop_append_of_le_length hb,
      ih hdrop, List.append_assoc]

theorem onBlocks_append (hb : 0 < b) {s : σ} {l l' : List Byte} (hl : b ∣ l.length) :
    onBlocks b f s (l ++ l') =
      ((onBlocks b f (onBlocks b f s l).1 l').1,
        (onBlocks b f s l).2 ++ (onBlocks b f (onBlocks b f s l).1 l').2) := by
  obtain ⟨m, hm⟩ := hl
  have hlen : (l ++ l').length / b = m + l'.length / b := by
    rw [List.length_append, hm, Nat.mul_add_div hb]
  have hl : l.length / b = m := by rw [hm, Nat.mul_div_cancel_left m hb]
  unfold onBlocks
  rw [hlen, hl, mapBlocks_append hm]

theorem onBlocks_cons (hb : 0 < b) {s : σ} {c l : List Byte} (hc : c.length = b) :
    onBlocks b f s (c ++ l) =
      ((onBlocks b f (f s c).1 l).1, (f s c).2 ++ (onBlocks b f (f s c).1 l).2) := by
  have hone : onBlocks b f s c = f s c := by
    unfold onBlocks
    rw [hc, Nat.div_self hb]
    simp [mapBlocks, List.take_of_length_le hc.le]
  rw [onBlocks_append hb ⟨1, by rw [hc, Nat.mul_one]⟩, hone]

theorem blocks_induction {P : List Byte → Prop} (hnil : P [])
    (hcons : ∀ c l, c.length = b → b ∣ l.length → P l → P (c ++ l)) {l : List Byte}
    (hl : b ∣ l.length) : P l := by
  obtain ⟨m, hm⟩ := hl
  induction m generalizing l with
  | zero =>
    obtain rfl : l = [] := List.length_eq_zero_iff.1 (by simpa using hm)
    exact hnil
  | succ m ih =>
    have htake : (l.take b).length = b :=
      List.length_take_of_le (by rw [hm]; exact Nat.le_mul_of_pos_right b (Nat.succ_pos m))
    have hdrop : (l.drop b).length = b * m := by
      rw [List.length_drop, hm, Nat.mul_succ, Nat.add_sub_cancel]
    rw [← List.take_append_drop b l]
    exact hcons _ _ htake ⟨m, hdrop⟩ (ih hdrop)

theorem length_onBlocks (hb : 0 < b) (hf : ∀ s l, l.length = b → (f s l).2.length = b) {s : σ}
    {l : List Byte} (hl : b ∣ l.length) : (onBlocks b f s l).2.length = l.length := by
  refine blocks_induction (P := fun l => ∀ s, (onBlocks b f s l).2.length = l.length) ?_ ?_ hl s
  · simp [onBlocks, mapBlocks]
  · intro c l hc _ ih s
    rw [onBlocks_cons hb hc, List.length_append, List.length_append, hf s c hc, ih, hc]

theorem onBlocks_cancel {g : τ → List Byte → τ × List Byte} {R : σ → τ → Prop} (hb : 0 < b)
    (hlen : ∀ s l, l.length = b → (f s l).2.length = b)
    (hcancel : ∀ s t l, R s t → l.length = b →
      (g t (f s l).2).2 = l ∧ R (f s l).1 (g t (f s l).2).1)
    {s : σ} {t : τ} {l : List Byte} (hR : R s t) (hl : b ∣ l.length) :
    (onBlocks b g t (onBlocks b f s l).2).2 = l ∧
      R (onBlocks b f s l).1 (onBlocks b g t (onBlocks b f s l).2).1 := by
  refine blocks_induction (P := fun l => ∀ s t, R s t →
    (onBlocks b g t (onBlocks b f s l).2).2 = l ∧
      R (onBlocks b f s l).1 (onBlocks b g t (onBlocks b f s l).2).1) ?_ ?_ hl s t hR
  · intro s t hR
    simpa [onBlocks, mapBlocks] using hR
  · intro c l hc _ ih s t hR
    obtain ⟨hblock, hR⟩ := hcancel s t c hR hc
    obtain ⟨hrest, hR⟩ := ih _ _ hR
    rw [onBlocks_cons hb hc, onBlocks_cons hb (hlen s c hc)]
    exact ⟨congrArg₂ (· ++ ·) hblock hrest, hR⟩

end Blocks

end BitShares
