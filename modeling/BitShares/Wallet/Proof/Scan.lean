import BitShares.Wallet.Scan
import Mathlib.Data.List.Basic

/-!
# Which blocks the wallet has scanned

`block_popped` looks at the head when it runs, which is after the switch: if the new branch is not
shorter than what was scanned, it does nothing, and `block_pushed` skips the numbers already
scanned.  So the blocks that a switch replaces below the last scanned number are never looked at.
Where blocks are only taken off, and others come after `block_popped` has run, it lowers the last
scanned number in time, unless a scan that had begun before raises it again.

* `scanned_of_run`: histories in which `block_popped` comes in time.
* `replacement_missed`: a branch of two blocks replaces one that was scanned.
-/

namespace BitShares

/-- The number up to which the blocks were scanned, once the scan has come to where it is. -/
def ScanTask.reached : ScanTask → Nat
  | .scheduled start => start - 1
  | .scanning prev _ _ => prev

/-- The number that the scan may set at its end. -/
def ScanTask.goal : ScanTask → Nat
  | .scheduled start => start - 1
  | .scanning prev head _ => max prev head

theorem ScanTask.reached_le_goal (t : ScanTask) : t.reached ≤ t.goal := by
  cases t with
  | scheduled start => exact le_rfl
  | scanning prev head count => exact le_max_left _ _

namespace ScanningWallet

variable {w : ScanningWallet}

/-- The blocks of the chain up to `n` have been scanned, and a number `m` is on the chain unless the
notice of a pop is waiting. -/
structure Covers (w : ScanningWallet) (n m : Nat) : Prop where
  scanned : w.chain.take n ⊆ w.scanned
  waits : m ≤ w.chain.length ∨ .blockPopped ∈ w.tasks

structure Sound (w : ScanningWallet) : Prop where
  last : w.Covers w.lastScannedBlockNumber w.lastScannedBlockNumber
  scan : ∀ t ∈ w.scanInProgress, w.Covers t.reached t.goal

theorem Covers.max {m n : Nat} (hm : w.Covers m m) (hn : w.Covers n n) :
    w.Covers (max m n) (max m n) := by
  rcases le_total m n with h | h
  · rwa [max_eq_right h]
  · rwa [max_eq_left h]

theorem finishScan_sound {prev : Nat} (hprev : w.Covers prev prev)
    (hlast : w.Covers w.lastScannedBlockNumber w.lastScannedBlockNumber) :
    (w.finishScan prev).Sound := by
  obtain ⟨hscanned, hwaits⟩ := hprev.max hlast
  exact ⟨⟨hscanned, hwaits⟩, fun _ h => nomatch h⟩

/-- **A scan goes on** by a block. -/
theorem scanOn_sound {prev head count : Nat}
    (hlast : w.Covers w.lastScannedBlockNumber w.lastScannedBlockNumber)
    (hscan : w.Covers prev (max prev head)) : (w.scanOn prev head count).Sound := by
  rw [scanOn]
  split_ifs with hgoes
  · refine ⟨⟨fun b hb => List.mem_append_left _ (hlast.scanned hb), hlast.waits⟩, fun t ht => ?_⟩
    obtain rfl := Option.mem_some_iff.1 ht
    refine ⟨fun b hb => ?_, hscan.waits.imp_left fun hle => ?_⟩
    · change b ∈ w.chain.take (prev + 1) at hb
      rw [List.take_add_one] at hb
      exact List.mem_append.2 ((List.mem_append.1 hb).imp_left (@hscan.scanned b))
    · exact (Nat.max_le.2 ⟨hgoes.1, le_rfl⟩).trans ((le_max_right _ _).trans hle)
  · refine finishScan_sound ⟨hscan.scanned, ?_⟩ hlast
    exact hscan.waits.imp_left (le_max_left prev head).trans

/-! ## Callbacks -/

/-- When `block_popped` runs, no scan is on its way to a number above the head. -/
def Timely (w : ScanningWallet) : WalletTask → Prop
  | .blockPopped => ∀ t ∈ w.scanInProgress, t.goal ≤ w.chain.length
  | _ => True

instance (w : ScanningWallet) : ∀ t, Decidable (w.Timely t)
  | .blockPopped => inferInstanceAs (Decidable (∀ t ∈ w.scanInProgress, t.goal ≤ w.chain.length))
  | .blockPushed _ | .scanChain => .isTrue trivial

/-- A task is taken from the queue. -/
theorem Covers.tail {t : WalletTask} {tasks : List WalletTask} {n m : Nat} (h : w.Covers n m)
    (htasks : w.tasks = t :: tasks) (ht : t ≠ .blockPopped) : { w with tasks := tasks }.Covers n m := by
  refine ⟨h.scanned, h.waits.imp_right fun hmem => ?_⟩
  rw [htasks] at hmem
  exact (List.mem_cons.1 hmem).resolve_left ht.symm

theorem Sound.tail {t : WalletTask} {tasks : List WalletTask} (h : w.Sound)
    (htasks : w.tasks = t :: tasks) (ht : t ≠ .blockPopped) : { w with tasks := tasks }.Sound :=
  ⟨h.last.tail htasks ht, fun s hs => (h.scan s hs).tail htasks ht⟩

theorem Sound.blockPushed (h : w.Sound) (num : Nat) : (w.blockPushed num).Sound := by
  rw [ScanningWallet.blockPushed, startScan]
  split_ifs with hnum
  · exact h
  · exact h
  · have hwaits := h.last.waits.imp_right (List.mem_append_left [WalletTask.scanChain])
    refine ⟨⟨h.last.scanned, hwaits⟩, fun t ht => ?_⟩
    obtain rfl := Option.mem_some_iff.1 ht
    -- the scan starts just above the last scanned number
    rw [min_eq_left (Nat.lt_of_not_le hnum)]
    exact ⟨h.last.scanned, hwaits⟩

theorem Sound.blockPopped {tasks : List WalletTask} (h : w.Sound)
    (htimely : ∀ t ∈ w.scanInProgress, t.goal ≤ w.chain.length) :
    ({ w with tasks := tasks }.blockPopped).Sound := by
  have hscan : ∀ t ∈ w.scanInProgress, { w with tasks := tasks }.Covers t.reached t.goal :=
    fun t ht => ⟨(h.scan t ht).scanned, .inl (htimely t ht)⟩
  rw [ScanningWallet.blockPopped]
  split_ifs with hlower
  · refine ⟨⟨fun b hb => h.last.scanned ?_, .inl le_rfl⟩, fun t ht => ?_⟩
    · exact List.take_subset_take_left _ hlower.le hb
    · exact ⟨(hscan t ht).scanned, (hscan t ht).waits⟩
  · exact ⟨⟨h.last.scanned, .inl (Nat.le_of_not_lt hlower)⟩, hscan⟩

theorem Sound.scanChain (h : w.Sound) : (w.runTask .scanChain).Sound := by
  rw [runTask]
  split
  · next start hscan =>
    have hreached : w.Covers (start - 1) (start - 1) := h.scan _ hscan
    have hstart : max start 1 - 1 = start - 1 := by omega
    refine scanOn_sound h.last ?_
    rw [hstart]
    exact ⟨hreached.scanned, hreached.waits.imp_left fun hle => Nat.max_le.2 ⟨hle, le_rfl⟩⟩
  · exact h

/-- **The next task** of the queue. -/
theorem Sound.runTask {t : WalletTask} {tasks : List WalletTask} (h : w.Sound)
    (htasks : w.tasks = t :: tasks) (htimely : w.Timely t) :
    ({ w with tasks := tasks }.runTask t).Sound := by
  cases t with
  | blockPushed num => exact (h.tail htasks nofun).blockPushed num
  | blockPopped => exact h.blockPopped htimely
  | scanChain => exact (h.tail htasks nofun).scanChain

/-! ## Switches -/

/-- What the moves of a switch do: they leave the wallet alone, and schedule a notice where they take
blocks off. -/
structure Moved (w w' : ScanningWallet) : Prop where
  scanned : w'.scanned = w.scanned
  last : w'.lastScannedBlockNumber = w.lastScannedBlockNumber
  scan : w'.scanInProgress = w.scanInProgress
  tasks : w.tasks ⊆ w'.tasks
  popped : w'.chain.length < w.chain.length → .blockPopped ∈ w'.tasks

theorem moved_move (w : ScanningWallet) (m : ChainMove) : Moved w (w.move m) := by
  cases m with
  | push id =>
    refine ⟨rfl, rfl, rfl, List.subset_append_left _ _, fun hlt => ?_⟩
    rw [move, List.length_append] at hlt
    omega
  | pop =>
    rw [move]
    split_ifs
    · exact ⟨rfl, rfl, rfl, List.Subset.refl _, fun hlt => absurd hlt (lt_irrefl _)⟩
    · exact ⟨rfl, rfl, rfl, List.subset_append_left _ _, fun _ => by simp⟩

theorem Moved.trans {w₁ w₂ : ScanningWallet} (h : Moved w w₁) (h' : Moved w₁ w₂) : Moved w w₂ where
  scanned := h'.scanned.trans h.scanned
  last := h'.last.trans h.last
  scan := h'.scan.trans h.scan
  tasks := List.Subset.trans h.tasks h'.tasks
  popped hlt := by
    by_cases hmid : w₁.chain.length < w.chain.length
    · exact h'.tasks (h.popped hmid)
    · exact h'.popped (by omega)

theorem moved_foldl (w : ScanningWallet) (moves : List ChainMove) : Moved w (moves.foldl move w) := by
  induction moves generalizing w with
  | nil => exact ⟨rfl, rfl, rfl, List.Subset.refl _, fun hlt => absurd hlt (lt_irrefl _)⟩
  | cons m moves ih => exact (moved_move w m).trans (ih _)

/-- The numbers that count as scanned. -/
def reached (w : ScanningWallet) : Nat :=
  max w.lastScannedBlockNumber ((w.scanInProgress.map ScanTask.reached).getD 0)

/-- A chain whose blocks, up to the head so far and to the numbers that count as scanned, have been
scanned; and it is not longer while the notice of a pop is waiting. -/
structure Spares (w : ScanningWallet) (chain : List BlockId) : Prop where
  scanned : chain.take (min w.reached w.chain.length) ⊆ w.scanned
  waits : .blockPopped ∈ w.tasks → chain.length ≤ w.chain.length

instance (w : ScanningWallet) (chain : List BlockId) : Decidable (w.Spares chain) :=
  decidable_of_iff (chain.take (min w.reached w.chain.length) ⊆ w.scanned ∧
      (.blockPopped ∈ w.tasks → chain.length ≤ w.chain.length))
    ⟨fun h => ⟨h.1, h.2⟩, fun h => ⟨h.scanned, h.waits⟩⟩

theorem Covers.switch {w' : ScanningWallet} {n m : Nat} (h : w.Covers n m) (hmoved : Moved w w')
    (hspares : w.Spares w'.chain) (hn : n ≤ w.reached) (hnm : n ≤ m) : w'.Covers n m := by
  constructor
  · rw [hmoved.scanned]
    refine List.Subset.trans ?_ hspares.scanned
    rcases h.waits with hle | hwaits
    · exact List.take_subset_take_left _ (Nat.le_min.2 ⟨hn, hnm.trans hle⟩)
    · -- nothing is above the old head
      have hlength := hspares.waits hwaits
      rw [List.take_eq_take_min]
      exact List.take_subset_take_left _ (Nat.le_min.2
        ⟨(Nat.min_le_left _ _).trans hn, (Nat.min_le_right _ _).trans hlength⟩)
  · rcases h.waits with hle | hwaits
    · by_cases hlt : w'.chain.length < w.chain.length
      · exact .inr (hmoved.popped hlt)
      · exact .inl (hle.trans (Nat.le_of_not_lt hlt))
    · exact .inr (hmoved.tasks hwaits)

theorem Sound.switch {w' : ScanningWallet} (h : w.Sound) (hmoved : Moved w w')
    (hspares : w.Spares w'.chain) : w'.Sound := by
  constructor
  · rw [hmoved.last]
    exact h.last.switch hmoved hspares (le_max_left _ _) le_rfl
  · intro t ht
    rw [hmoved.scan] at ht
    refine (h.scan t ht).switch hmoved hspares ?_ t.reached_le_goal
    rw [reached, Option.mem_def.1 ht]
    exact le_max_right _ _

/-! ## Histories -/

/-- A switch spares what was scanned, and `block_popped` runs in time. -/
def Meets (w : ScanningWallet) : ScanEvent → Prop
  | .switch moves => w.Spares (moves.foldl move w).chain
  | .task => ∀ t ∈ w.tasks.head?, w.Timely t
  | .wake => True

instance (w : ScanningWallet) : ∀ e, Decidable (w.Meets e)
  | .switch moves => inferInstanceAs (Decidable (w.Spares (moves.foldl move w).chain))
  | .task => inferInstanceAs (Decidable (∀ t ∈ w.tasks.head?, w.Timely t))
  | .wake => .isTrue trivial

theorem Sound.step (h : w.Sound) {e : ScanEvent} (he : w.Meets e) : (w.step e).Sound := by
  cases e with
  | switch moves => exact h.switch (moved_foldl w moves) he
  | task =>
    rw [ScanningWallet.step]
    split
    · exact h
    · next t tasks htasks => exact h.runTask htasks (he t (by rw [htasks]; rfl))
  | wake =>
    rw [ScanningWallet.step]
    split
    · next prev head count hscan => exact scanOn_sound h.last (h.scan _ hscan)
    · exact h

def MeetsAll : ScanningWallet → List ScanEvent → Prop
  | _, [] => True
  | w, e :: events => w.Meets e ∧ (w.step e).MeetsAll events

instance decidableMeetsAll : ∀ (w : ScanningWallet) (events : List ScanEvent),
    Decidable (w.MeetsAll events)
  | _, [] => .isTrue trivial
  | w, e :: events =>
    have := decidableMeetsAll (w.step e) events
    inferInstanceAs (Decidable (w.Meets e ∧ (w.step e).MeetsAll events))

theorem Sound.run (h : w.Sound) {events : List ScanEvent} (hmeets : w.MeetsAll events) :
    (events.foldl ScanningWallet.step w).Sound := by
  induction events generalizing w with
  | nil => exact h
  | cons e events ih => exact ih (h.step hmeets.1) hmeets.2

/-- No callback is waiting and no scan is under way. -/
def Quiet (w : ScanningWallet) : Prop := w.tasks = [] ∧ w.scanInProgress = none

end ScanningWallet

open ScanningWallet

/-- **Nothing is missed** where `block_popped` comes in time: along such a history every block of the
active chain up to the last scanned number has been passed to `scan_block`, and once no notice of a
pop is waiting that number is on the chain. -/
theorem scanned_of_run {w : ScanningWallet} {events : List ScanEvent} (hquiet : w.Quiet)
    (hstart : w.chain.take w.lastScannedBlockNumber ⊆ w.scanned)
    (hhead : w.lastScannedBlockNumber ≤ w.chain.length) (hmeets : w.MeetsAll events) :
    let w' := events.foldl step w
    w'.chain.take w'.lastScannedBlockNumber ⊆ w'.scanned ∧
      (.blockPopped ∉ w'.tasks → w'.lastScannedBlockNumber ≤ w'.chain.length) := by
  have hsound : w.Sound := ⟨⟨hstart, .inl hhead⟩, fun t ht => by rw [hquiet.2] at ht; cases ht⟩
  have hlast := (hsound.run hmeets).last
  exact ⟨hlast.scanned, hlast.waits.resolve_right⟩

/-- Block 30 comes while block 10 is being scanned.  It is scanned and taken off, and block 31 comes
after `block_popped` has run; later the chain goes back to block 30. -/
theorem scanned_of_run_popped :
    let w := ([.switch [.push 10, .push 20], .task, .task, .task, .switch [.push 30], .wake, .wake,
      .task, .task, .wake, .switch [.pop], .task, .switch [.push 31], .task, .task, .wake,
      .switch [.pop, .push 30, .push 40], .task, .task, .task, .task, .wake] :
        List ScanEvent).foldl step {}
    w.Quiet ∧ w.lastScannedBlockNumber = 4 ∧ w.chain = [10, 20, 30, 40] ∧
      w.scanned = [10, 20, 30, 31, 40] ∧ w.chain.take w.lastScannedBlockNumber ⊆ w.scanned := by
  refine ⟨⟨rfl, rfl⟩, rfl, rfl, rfl, ?_⟩
  exact (scanned_of_run ⟨rfl, rfl⟩ (List.nil_subset _) le_rfl (by decide)).1

/-- **A replaced block is missed.**  Blocks 10 and 20 are scanned; the branch with 21 and 31 comes
instead of 20.  When all is done the last scanned number is 3, but block 21 was never scanned. -/
theorem replacement_missed :
    let w := ([.switch [.push 10], .task, .task, .wake, .switch [.push 20], .task, .task, .wake,
      .switch [.pop, .push 21, .push 31], .task, .task, .task, .task, .wake] :
        List ScanEvent).foldl step {}
    w.Quiet ∧ w.lastScannedBlockNumber = 3 ∧ w.chain = [10, 21, 31] ∧ w.scanned = [10, 20, 31] :=
  ⟨⟨rfl, rfl⟩, rfl, rfl, rfl⟩

end BitShares
