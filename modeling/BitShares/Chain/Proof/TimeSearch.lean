import BitShares.Chain.Run
import BitShares.Chain.TimeSearch
import Mathlib.Order.Bounds.Basic

/-!
# The time search finds the last block before a time

The search keeps the time between those of its two blocks, and each step takes one of them to a block
strictly between, whatever is guessed.

* `searchBlockNum_spec`: the loop returns the last block before the time.
* `findBlockNum_greatest`: the whole search, on every chain with increasing timestamps.
* `interpolate_between`, `findBlockNum_interpolates`: the places that are computed in doubles, and
  the search that tries them.
-/

namespace BitShares

variable {s : ChainState} {guess : Guess} {time : Time} {times : BlockNum → Time}

def Guess.Between (guess : Guess) : Prop :=
  ∀ time startTime stopTime start stop, start < stop →
    start ≤ guess time startTime stopTime start stop ∧
      guess time startTime stopTime start stop < stop

/-- The blocks of the chain have the given timestamps, one later than the other. -/
structure ChainState.Timed (s : ChainState) (times : BlockNum → Time) : Prop where
  notEmpty : 1 ≤ s.head.blockNum
  blocks : ∀ n, 1 ≤ n → n ≤ s.head.blockNum → s.blockTime n = .ok (times n)
  increasing : ∀ m n, 1 ≤ m → m < n → n ≤ s.head.blockNum → times m < times n

def ChainState.until (s : ChainState) (times : BlockNum → Time) (time : Time) : Set BlockNum :=
  {n | 1 ≤ n ∧ n ≤ s.head.blockNum ∧ times n ≤ time}

theorem ChainState.Timed.isGreatest (h : s.Timed times) {n : BlockNum} (hn : 1 ≤ n)
    (hhead : n < s.head.blockNum) (hle : times n ≤ time) (hlt : time < times (n + 1)) :
    IsGreatest (s.until times time) n := by
  refine ⟨⟨hn, hhead.le, hle⟩, fun m ⟨_, hm, hmle⟩ => ?_⟩
  by_contra hnot
  have hnext : times (n + 1) ≤ times m := by
    rcases Nat.lt_or_ge (n + 1) m with hlt' | hge
    · exact (h.increasing (n + 1) m (Nat.le_add_left 1 n) hlt' hm).le
    · rw [Nat.le_antisymm hge (not_le.1 hnot)]
  exact absurd (hlt.trans_le (hnext.trans hmle)) (lt_irrefl _)

/-- **The loop.**  Each step brings the two blocks closer. -/
theorem searchBlockNum_spec (h : s.Timed times) (hguess : guess.Between) {fuel : ℕ}
    {start stop : BlockNum} (hstart : 1 ≤ start) (hstop : stop ≤ s.head.blockNum)
    (hlt : start < stop) (hle : times start ≤ time) (hlater : time < times stop)
    (hfuel : stop - start ≤ fuel) :
    ∃ n, s.searchBlockNum guess time fuel start (times start) stop (times stop) = .ok (some n) ∧
      IsGreatest (s.until times time) n := by
  induction fuel generalizing start stop with
  | zero => exact absurd (Nat.sub_pos_of_lt hlt) (not_lt.2 hfuel)
  | succ fuel ih =>
    rw [ChainState.searchBlockNum]
    split
    · rename_i hwide
      obtain ⟨hge, hbelow⟩ := hguess time (times start) (times stop) start stop hlt
      generalize guess time (times start) (times stop) start stop = g at hge hbelow
      -- the place that is tried lies strictly between the two blocks
      obtain ⟨mid, hmid, hstart', hstop'⟩ : ∃ mid, (if g = start then g + 1 else g) = mid ∧
          start < mid ∧ mid < stop := by
        refine ⟨_, rfl, ?_⟩
        split
        · rename_i heq
          subst heq
          exact ⟨Nat.lt_succ_self _, hwide⟩
        · rename_i hne
          exact ⟨lt_of_le_of_ne hge (Ne.symm hne), hbelow⟩
      have htime := h.blocks mid (hstart.trans hstart'.le) (hstop'.le.trans hstop)
      simp only [hmid, htime]
      change ∃ n, (if time < times mid then _ else _) = _ ∧ _
      split
      · rename_i hless
        exact ih hstart (hstop'.le.trans hstop) hstart' hle hless
          (Nat.le_of_lt_succ ((Nat.sub_lt_sub_right hstart'.le hstop').trans_le hfuel))
      · rename_i hnot
        exact ih (hstart.trans hstart'.le) hstop hstop' (not_lt.1 hnot) hlater
          (Nat.le_of_lt_succ ((Nat.sub_lt_sub_left hlt hstart').trans_le hfuel))
    · rename_i hnarrow
      obtain rfl : stop = start + 1 := Nat.le_antisymm (not_lt.1 hnarrow) hlt
      exact ⟨start, rfl, h.isGreatest hstart hstop hle hlater⟩

/-- **The time search.**  On every chain of at least one block with increasing timestamps, for every
time and however the places are guessed, the search ends and returns the last block that is not after
the time, or block 1 if there is none. -/
theorem findBlockNum_greatest (h : s.Timed times) (hguess : guess.Between) {fuel : ℕ}
    (hfuel : s.head.blockNum ≤ fuel) (time : Time) :
    ∃ n, s.findBlockNumBy guess fuel time = .ok (some n) ∧
      (IsGreatest (s.until times time) n ∨ s.until times time = ∅ ∧ n = 1) := by
  have hfirst := h.blocks 1 le_rfl h.notEmpty
  have hlast := h.blocks s.head.blockNum h.notEmpty le_rfl
  -- no block is before the first one
  have hmono : ∀ n, 1 ≤ n → n ≤ s.head.blockNum → times 1 ≤ times n := by
    intro n hn hhead
    rcases hn.lt_or_eq with hlt | rfl
    · exact (h.increasing 1 n le_rfl hlt hhead).le
    · exact le_rfl
  have hdef : s.findBlockNumBy guess fuel time =
      if time ≤ times 1 then .ok (some 1)
      else if times s.head.blockNum ≤ time then .ok (some s.head.blockNum)
      else s.searchBlockNum guess time fuel 1 (times 1) s.head.blockNum (times s.head.blockNum) := by
    rw [ChainState.findBlockNumBy, hfirst, hlast]
    rfl
  rw [hdef]
  split_ifs with hbefore hafter
  · refine ⟨1, rfl, ?_⟩
    rcases hbefore.lt_or_eq with hlt | heq
    · refine .inr ⟨Set.eq_empty_of_forall_notMem fun n ⟨hn, hhead, hle⟩ => ?_, rfl⟩
      exact absurd (hlt.trans_le ((hmono n hn hhead).trans hle)) (lt_irrefl _)
    · refine .inl ⟨⟨le_rfl, h.notEmpty, heq.ge⟩, fun n ⟨hn, hhead, hle⟩ => ?_⟩
      by_contra hnot
      have hlt := h.increasing 1 n le_rfl (not_le.1 hnot) hhead
      exact absurd (hlt.trans_le (hle.trans heq.le)) (lt_irrefl _)
  · exact ⟨_, rfl, .inl ⟨⟨h.notEmpty, le_rfl, hafter⟩, fun n hn => hn.2.1⟩⟩
  · have hlt : 1 < s.head.blockNum := by
      refine lt_of_le_of_ne h.notEmpty fun heq => ?_
      rw [← heq] at hafter
      exact hbefore (not_le.1 hafter).le
    obtain ⟨n, hn, hgreatest⟩ := searchBlockNum_spec h hguess le_rfl le_rfl hlt
      (not_le.1 hbefore).le (not_le.1 hafter) ((Nat.sub_le _ _).trans hfuel)
    exact ⟨n, hn, .inl hgreatest⟩

def clockState : ChainState where
  tables := {}
  head := (soloBlock 3 2 40 []).toSignedBlockHeader
  blockNumToId := ((Finmap.singleton 1 1).insert 2 2).insert 3 3
  blocks := ((Finmap.singleton 1 (soloBlock 1 nullId 10 [])).insert 2 (soloBlock 2 1 20 [])).insert 3
    (soloBlock 3 2 40 [])

theorem timed_clockState : clockState.Timed fun n => if n = 3 then 40 else n * 10 := by
  have hblocks : ∀ n < 4, 1 ≤ n →
      clockState.blockTime n = .ok (if n = 3 then 40 else n * 10) := by decide +kernel
  have hincreasing : ∀ n < 4, ∀ m < n, (if m = 3 then 40 else m * 10) <
      if n = 3 then 40 else n * 10 := by decide
  exact ⟨by decide, fun n hn hle => hblocks n (Nat.lt_succ_of_le hle) hn,
    fun m n _ hlt hle => hincreasing n (Nat.lt_succ_of_le hle) m hlt⟩

theorem findBlockNum_greatest_clock :
    ∃ n, clockState.findBlockNumBy (fun _ _ _ start _ => start) 3 25 = .ok (some n) ∧
      IsGreatest (clockState.until (fun n => if n = 3 then 40 else n * 10) 25) n := by
  have hguess : Guess.Between fun _ _ _ start _ => start := fun _ _ _ _ _ hlt => ⟨le_rfl, hlt⟩
  obtain ⟨n, hn, hgreatest | ⟨hempty, -⟩⟩ := findBlockNum_greatest timed_clockState hguess
    (show clockState.head.blockNum ≤ 3 by decide) 25
  · exact ⟨n, hn, hgreatest⟩
  · have hmem : 1 ∈ clockState.until (fun n => if n = 3 then 40 else n * 10) 25 := by
      exact ⟨le_rfl, by decide, by decide⟩
    rw [hempty] at hmem
    cases hmem

/-! ## The places that the code tries -/

/-- Three roundings do not make up for the part of a block that is missing. -/
theorem interpolation_lt {a T D start : ℕ} {x y z : ℚ} (ha : a < T) (hD : 2 ≤ D)
    (hsmall : (start + D) * T ≤ 2 ^ 52) (hx : x ≤ a / T * (1 + 1 / 2 ^ 53))
    (hy : y ≤ D * x * (1 + 1 / 2 ^ 53)) (hz : z ≤ (start + y) * (1 + 1 / 2 ^ 53)) :
    z < start + D := by
  have hT : (0 : ℚ) < T := Nat.cast_pos.2 (Nat.zero_lt_of_lt ha)
  have hax : T * x ≤ a * (1 + 1 / 2 ^ 53) := by
    rw [div_mul_eq_mul_div, le_div_iff₀ hT] at hx
    linarith
  have hDx := mul_le_mul_of_nonneg_left hax (Nat.cast_nonneg (α := ℚ) D)
  have hTy := mul_le_mul_of_nonneg_left hy hT.le
  have hTz := mul_le_mul_of_nonneg_left hz hT.le
  have hDa : ((D * a + 2 : ℕ) : ℚ) ≤ (D * T : ℕ) := Nat.cast_le.2 (by nlinarith)
  have hsmall' : (((start + D) * T : ℕ) : ℚ) ≤ (2 ^ 52 : ℕ) := Nat.cast_le.2 hsmall
  push_cast at hDa hsmall'
  have hstart : (0 : ℚ) ≤ T * start := by positivity
  refine lt_of_mul_lt_mul_left ?_ hT.le
  norm_num at hDx hTy hTz hsmall' ⊢
  linarith

/-- **The place** that is computed in doubles lies between the two blocks. -/
theorem interpolate_between {time startTime stopTime start stop : ℕ} (hle : startTime ≤ time)
    (hlt : time < stopTime) (hwide : start + 1 < stop)
    (hsmall : stop * (stopTime - startTime) ≤ 2 ^ 52) :
    start ≤ interpolate time startTime stopTime start stop ∧
      interpolate time startTime stopTime start stop < stop := by
  obtain ⟨D, rfl⟩ := Nat.exists_eq_add_of_le (Nat.lt_of_succ_lt hwide).le
  have ha : time - startTime < stopTime - startTime := Nat.sub_lt_sub_right hle hlt
  have hstart : start < 2 ^ 53 := by
    have := Nat.le_mul_of_pos_right (start + D) (Nat.zero_lt_of_lt ha)
    omega
  have hT : ((stopTime - startTime : ℕ) : ℚ) ≠ 0 := Nat.cast_ne_zero.2 (Nat.ne_zero_of_lt ha)
  unfold interpolate Double.div Double.mul
  generalize time - startTime = a at *
  generalize stopTime - startTime = T at *
  simp only [if_neg hT, Nat.add_sub_cancel_left]
  have hx : (0 : ℚ) ≤ a / T := div_nonneg (Nat.cast_nonneg a) (Nat.cast_nonneg T)
  have hy : 0 ≤ D * Double.nearest (a / T) :=
    mul_nonneg (Nat.cast_nonneg D) (Double.nearest_nonneg hx)
  have hz : (start : ℚ) ≤ start + Double.nearest (D * Double.nearest (a / T)) :=
    le_add_of_nonneg_right (Double.nearest_nonneg hy)
  have hge := Double.le_nearest hstart hz
  refine ⟨Nat.le_floor hge, (Nat.floor_lt ((Nat.cast_nonneg start).trans hge)).2 ?_⟩
  push_cast
  exact interpolation_lt ha (by omega) hsmall (Double.nearest_le hx) (Double.nearest_le hy)
    (Double.nearest_le ((Nat.cast_nonneg start).trans hz))

def interpolateBetween : Guess := fun time startTime stopTime start stop =>
  if start ≤ interpolate time startTime stopTime start stop ∧
      interpolate time startTime stopTime start stop < stop then
    interpolate time startTime stopTime start stop
  else start

theorem interpolateBetween_between : interpolateBetween.Between := by
  intro time startTime stopTime start stop hlt
  unfold interpolateBetween
  split_ifs with h
  · exact h
  · exact ⟨le_rfl, hlt⟩

theorem mid_between {g start stop : ℕ} (hge : start ≤ g) (hlt : g < stop)
    (hwide : start + 1 < stop) :
    start < (if g = start then g + 1 else g) ∧ (if g = start then g + 1 else g) < stop := by
  split <;> omega

theorem ChainState.Timed.mono (h : s.Timed times) {m n : BlockNum} (hm : 1 ≤ m) (hmn : m ≤ n)
    (hn : n ≤ s.head.blockNum) : times m ≤ times n := by
  rcases hmn.lt_or_eq with hlt | rfl
  · exact (h.increasing m n hm hlt hn).le
  · exact le_rfl

/-- **The place of a step** of the search. -/
theorem ChainState.Timed.interpolate_between (h : s.Timed times)
    (hsmall : s.head.blockNum * (times s.head.blockNum - times 1) ≤ 2 ^ 52) {start stop : BlockNum}
    (hstart : 1 ≤ start) (hwide : start + 1 < stop) (hstop : stop ≤ s.head.blockNum)
    (hle : times start ≤ time) (hlater : time < times stop) :
    start ≤ interpolate time (times start) (times stop) start stop ∧
      interpolate time (times start) (times stop) start stop < stop := by
  have hspan : times stop - times start ≤ times s.head.blockNum - times 1 :=
    tsub_le_tsub (h.mono (hstart.trans (Nat.lt_of_succ_lt hwide).le) hstop le_rfl)
      (h.mono le_rfl hstart ((Nat.lt_of_succ_lt hwide).le.trans hstop))
  exact BitShares.interpolate_between hle hlater hwide ((Nat.mul_le_mul hstop hspan).trans hsmall)

theorem searchBlockNum_interpolate (h : s.Timed times)
    (hsmall : s.head.blockNum * (times s.head.blockNum - times 1) ≤ 2 ^ 52) (fuel : ℕ)
    {start stop : BlockNum} (hstart : 1 ≤ start) (hstop : stop ≤ s.head.blockNum)
    (hle : times start ≤ time) (hlater : time < times stop) :
    s.searchBlockNum interpolate time fuel start (times start) stop (times stop) =
      s.searchBlockNum interpolateBetween time fuel start (times start) stop (times stop) := by
  induction fuel generalizing start stop with
  | zero => rfl
  | succ fuel ih =>
    rw [ChainState.searchBlockNum, ChainState.searchBlockNum]
    split
    · rename_i hwide
      have hbetween := h.interpolate_between hsmall hstart hwide hstop hle hlater
      rw [interpolateBetween, if_pos hbetween]
      obtain ⟨hlow, hhigh⟩ := mid_between hbetween.1 hbetween.2 hwide
      dsimp only
      generalize (if interpolate time (times start) (times stop) start stop = start then _ else _) =
        mid at hlow hhigh ⊢
      rw [h.blocks mid (hstart.trans hlow.le) (hhigh.le.trans hstop)]
      change (if time < times mid then _ else _) = if time < times mid then _ else _
      split
      · rename_i hless
        exact ih hstart (hhigh.le.trans hstop) hle hless
      · rename_i hnot
        exact ih (hstart.trans hlow.le) hstop (not_lt.1 hnot) hlater
    · rfl

/-- **The search in doubles.**  Where the product of the number of blocks and the seconds from the
first to the last of them has at most 52 bits, no rounding leads the search astray: the place of
every step lies between its two blocks, and for every time between the first and the last block the
search ends and returns the last block that is not after the time. -/
theorem findBlockNum_interpolates (h : s.Timed times)
    (hsmall : s.head.blockNum * (times s.head.blockNum - times 1) ≤ 2 ^ 52)
    (hfirst : times 1 < time) (hlast : time < times s.head.blockNum) {fuel : ℕ}
    (hfuel : s.head.blockNum ≤ fuel) :
    (∀ start stop, 1 ≤ start → start + 1 < stop → stop ≤ s.head.blockNum → times start ≤ time →
      time < times stop → start ≤ interpolate time (times start) (times stop) start stop ∧
        interpolate time (times start) (times stop) start stop < stop) ∧
    ∃ n, s.findBlockNum fuel time = .ok (some n) ∧ IsGreatest (s.until times time) n := by
  refine ⟨fun start stop => h.interpolate_between hsmall, ?_⟩
  have hdef : s.findBlockNum fuel time =
      if time ≤ times 1 then .ok (some 1)
      else if times s.head.blockNum ≤ time then .ok (some s.head.blockNum)
      else s.searchBlockNum interpolate time fuel 1 (times 1) s.head.blockNum
        (times s.head.blockNum) := by
    rw [ChainState.findBlockNum, ChainState.findBlockNumBy, h.blocks 1 le_rfl h.notEmpty,
      h.blocks _ h.notEmpty le_rfl]
    rfl
  have hlt : 1 < s.head.blockNum :=
    lt_of_le_of_ne h.notEmpty fun heq => (hfirst.trans hlast).ne (congrArg times heq)
  rw [hdef, if_neg (not_le.2 hfirst), if_neg (not_le.2 hlast),
    searchBlockNum_interpolate h hsmall fuel le_rfl le_rfl hfirst.le hlast]
  exact searchBlockNum_spec h interpolateBetween_between le_rfl le_rfl hlt hfirst.le hlast
    ((Nat.sub_le _ _).trans hfuel)

/-- Beyond that, the place can be the later block, where the search would stay. -/
example : interpolate (2 ^ 32 - 2) 0 (2 ^ 32 - 1) (2 ^ 31) (2 ^ 31 + 2) = 2 ^ 31 + 2 := by
  decide +kernel

theorem findBlockNum_interpolates_clock :
    ∃ n, clockState.findBlockNum 3 25 = .ok (some n) ∧
      IsGreatest (clockState.until (fun n => if n = 3 then 40 else n * 10) 25) n :=
  (findBlockNum_interpolates timed_clockState (by decide) (by decide) (by decide) (by decide)).2

end BitShares
