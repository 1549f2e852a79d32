import BitShares.Chain.Pool
import BitShares.Game.Proof.Undo

/-!
# The pool over one head

As long as the head stays, the overlay of the pool holds the transactions of the fee index, applied
in the order in which they came in.

* `Pool.Coherent`: what the pool should be, for a head.
* `coherent_revalidatePending`: `revalidate_pending` establishes it from any pool.
-/

namespace BitShares

open Program PoolM

variable [Crypto]

/-! ## The statement -/

/-- The overlay in which the transactions were evaluated one after the other, over the head of
`s`.  The configuration may change in between. -/
inductive Applied (s : ChainState) : List SignedTransaction → PendingState → Prop
  | nil : Applied s [] (.over s.tables)
  | snoc {l : List SignedTransaction} {p p' : PendingState} {trx : SignedTransaction}
      {fees : ShareType} (cfg : ClientConfig) (hl : Applied s l p)
      (h : p.evaluateOn s cfg trx = .ok (p', fees)) :
      Applied s (l ++ [trx]) p'

/-- The evaluated transactions are stored, and the overlay over the head is what they make of it in
some order. -/
structure Pool.Coherent (pool : Pool) (s : ChainState) : Prop where
  stored : ∀ k trx, pool.feeIndex.lookup k = some trx → pool.transactions.lookup k.trx = some trx
  applied : ∃ l, Applied s l (pool.state.rebase s.tables) ∧
    (l : Multiset SignedTransaction) = pool.feeIndex.entries.map (·.2)

/-! ## The overlay alone -/

theorem ClientConfig.evaluate_below {cfg : ClientConfig} {ctx : EvalContext} {p : PendingLedger}
    {trx : SignedTransaction} {e : EvalState} (h : cfg.evaluate ctx p trx = .ok e) :
    e.pending.below = p.below := by
  unfold ClientConfig.evaluate at h
  cases hgames : cfg.games with
  | none =>
    rw [hgames] at h
    exact evaluateLedger_below h
  | some node =>
    rw [hgames] at h
    exact evaluateLedgerWith_below h

theorem evaluateOn_rebase {p p' : PendingState} {s : ChainState} {cfg : ClientConfig}
    {trx : SignedTransaction} {fees : ShareType} (hp : p.rebase s.tables = p)
    (h : p.evaluateOn s cfg trx = .ok (p', fees)) : p'.rebase s.tables = p' := by
  simp only [PendingState.evaluateOn, PendingState.evaluateWithFeesBy, bind_eq_ok, pure_eq_ok] at h
  obtain ⟨-, -, -, -, -, -, e, he, hp'⟩ := h
  obtain ⟨rfl, -⟩ := Prod.mk.inj hp'
  have hbelow : p.ledger.below = s.tables.toLedgerTables := by rw [← hp]; rfl
  have hledger : e.pending.rebase s.tables.toLedgerTables = e.pending := by
    rw [← hbelow, ← ClientConfig.evaluate_below he]
    rfl
  change ({ p.rebase s.tables with
    ledger := e.pending.rebase s.tables.toLedgerTables }).storeTransaction _ _ = _
  rw [hp, hledger]

theorem Applied.rebase {s : ChainState} {l : List SignedTransaction} {p : PendingState}
    (h : Applied s l p) : p.rebase s.tables = p := by
  induction h with
  | nil => rfl
  | snoc cfg _ h ih => exact evaluateOn_rebase ih h

theorem Applied.mem {s : ChainState} {l : List SignedTransaction} {p : PendingState}
    (h : Applied s l p) {trx : SignedTransaction} (htrx : trx ∈ l) :
    ∃ cfg q r, PendingState.evaluateOn q s cfg trx = .ok r := by
  induction h with
  | nil => cases htrx
  | snoc cfg _ h ih =>
    rcases List.mem_append.1 htrx with htrx | htrx
    · exact ih htrx
    · rw [List.mem_singleton.1 htrx]
      exact ⟨cfg, _, _, h⟩

theorem Applied.of_eq {s s' : ChainState} {l : List SignedTransaction} {p : PendingState}
    (h : Applied s l p) (htables : s'.tables = s.tables) (hhead : s'.head = s.head) :
    Applied s' l p := by
  have heval : ∀ (p : PendingState) cfg trx, p.evaluateOn s' cfg trx = p.evaluateOn s cfg trx := by
    intro p cfg trx
    simp only [PendingState.evaluateOn, ChainState.pendingContext, ChainState.evalContext,
      ChainState.now, htables, hhead]
  induction h with
  | nil =>
    rw [← htables]
    exact .nil
  | snoc cfg _ h ih => exact .snoc cfg ih ((heval _ cfg _).trans h)

namespace Pool

variable {pool : Pool} {s : ChainState} {cfg : ClientConfig}

theorem Coherent.of_eq {s' : ChainState} (h : pool.Coherent s) (htables : s'.tables = s.tables)
    (hhead : s'.head = s.head) : pool.Coherent s' := by
  obtain ⟨l, hl, hperm⟩ := h.applied
  refine ⟨h.stored, l, ?_, hperm⟩
  rw [htables]
  exact hl.of_eq htables hhead

theorem coherent_of_empty (hindex : pool.feeIndex = ∅) (hstate : pool.state = .over {}) :
    pool.Coherent s := by
  refine ⟨fun k trx hk => ?_, [], ?_, ?_⟩
  · rw [hindex] at hk
    cases hk
  · rw [hstate]
    exact .nil
  · rw [hindex]
    rfl

theorem Coherent.of_no_index {s' : ChainState} (h : pool.Coherent s) (hindex : pool.feeIndex = ∅) :
    pool.Coherent s' := by
  obtain ⟨l, hl, hperm⟩ := h.applied
  rw [hindex] at hperm
  obtain rfl : l = [] := (Multiset.coe_eq_zero l).1 hperm
  have hstate : pool.state.rebase s.tables = .over s.tables := by
    generalize pool.state.rebase s.tables = p at hl
    generalize hl' : ([] : List SignedTransaction) = l at hl
    cases hl with
    | nil => rfl
    | snoc => exact absurd hl' (by simp)
  refine ⟨h.stored, [], ?_, by rw [hindex]; rfl⟩
  have hrebase : pool.state.rebase s'.tables = .over s'.tables :=
    congrArg (fun p => p.rebase s'.tables) hstate
  rw [hrebase]
  exact .nil

theorem Coherent.enter (h : pool.Coherent s) {trx : SignedTransaction} {p : PendingState}
    {fees : ShareType} {id : TransactionId}
    (heval : (pool.state.rebase s.tables).evaluateOn s cfg trx = .ok (p, fees))
    (hnew : ∀ k trx, pool.feeIndex.lookup k = some trx → k.trx ≠ id)
    {t : Table TransactionId SignedTransaction} (hid : t.lookup id = some trx)
    (ht : ∀ x, x ≠ id → t.lookup x = pool.transactions.lookup x) :
    Coherent { pool with
      state := p, feeIndex := pool.feeIndex.insert ⟨fees, id⟩ trx, transactions := t } s := by
  obtain ⟨l, hl, hperm⟩ := h.applied
  refine ⟨fun k trx' hk => ?_, l ++ [trx], ?_, ?_⟩
  · change (pool.feeIndex.insert ⟨fees, id⟩ trx).lookup k = some trx' at hk
    rw [Table.lookup_insert_eq] at hk
    split_ifs at hk with heq
    · obtain rfl := Option.some.inj hk
      rw [heq]
      exact hid
    · exact (ht _ (hnew k trx' hk)).trans (h.stored k trx' hk)
  · have happlied := hl.snoc cfg heval
    change Applied s (l ++ [trx]) (p.rebase s.tables)
    rwa [happlied.rebase]
  · have hmem : (⟨fees, id⟩ : FeeIndex) ∉ pool.feeIndex := by
      intro hmem
      obtain ⟨trx', htrx'⟩ := Finmap.mem_iff.1 hmem
      exact hnew _ trx' htrx' rfl
    change _ = (pool.feeIndex.insert ⟨fees, id⟩ trx).entries.map (·.2)
    rw [Finmap.entries_insert_of_notMem hmem, Multiset.map_cons, ← hperm,
      ← Multiset.coe_add, add_comm]
    rfl

/-! ## Storing -/

theorem wp_evaluateTransaction {trx : SignedTransaction} {requiredFees : ShareType}
    {Q : Except Error ShareType → Pool → Prop}
    (hok : ∀ p fees, (pool.state.rebase s.tables).evaluateOn s cfg trx = .ok (p, fees) →
      Q (.ok fees) { pool with state := p })
    (herror : ∀ e, Q (.error e) pool) :
    Wp True (evaluateTransaction s cfg trx requiredFees) pool Q := by
  rw [evaluateTransaction, wp_bind, wp_get]
  dsimp only
  cases heval : (pool.state.rebase s.tables).evaluateOn s cfg trx with
  | error e => exact herror e
  | ok r =>
    obtain ⟨p, fees⟩ := r
    dsimp only
    split_ifs
    · exact herror _
    · exact hok p fees heval

/-- **`store_pending_transaction`** keeps the pool coherent, and leaves it as it is if it throws. -/
theorem Coherent.store (h : pool.Coherent s) (trx : SignedTransaction) (overrideLimits : Bool) :
    Wp True (storePendingTransaction s cfg trx overrideLimits) pool fun r pool' =>
      match r with
      | .ok _ => pool'.Coherent s
      | .error _ => pool' = pool := by
  rw [storePendingTransaction, wp_bind, wp_get]
  dsimp only
  cases hknown : pool.transactions.lookup (Crypto.transactionId trx) with
  | some _ => exact h
  | none =>
    rw [wp_bind]
    refine wp_evaluateTransaction (fun p fees heval => ?_) fun e => rfl
    refine h.enter heval (fun k trx' hk heq => ?_) (Finmap.lookup_insert _) fun x hx => ?_
    · have hstored := h.stored k trx' hk
      rw [heq, hknown] at hstored
      cases hstored
    · rw [Table.lookup_insert_eq, if_neg hx]

/-! ## Evaluating again -/

omit [Crypto] in
theorem lookup_foldl_erase {K V : Type} [DecidableEq K] {keys : List K} {k : K} {t : Table K V}
    (hk : k ∉ keys) : (keys.foldl (fun t k => t.erase k) t).lookup k = t.lookup k := by
  induction keys generalizing t with
  | nil => rfl
  | cons k' keys ih =>
    obtain ⟨hne, hk⟩ := not_or.1 (List.mem_cons.not.1 hk)
    rw [List.foldl_cons, ih hk, Table.lookup_erase_eq, if_neg hne]

/-- The pool in the loop of `revalidate_pending`: what is evaluated is neither to come nor to be
discarded. -/
structure Revalidating (s : ChainState) (ids discard : List TransactionId) (pool : Pool) : Prop
    extends pool.Coherent s where
  done : ∀ k trx, pool.feeIndex.lookup k = some trx → k.trx ∉ ids ∧ k.trx ∉ discard
  bad : ∀ id ∈ discard, id ∉ ids

theorem wp_revalidateAll {ids discard : List TransactionId} (hids : ids.Nodup)
    (h : Revalidating s ids discard pool) :
    Wp True (revalidateAll s cfg ids discard) pool fun r pool' =>
      ∃ discard, r = .ok discard ∧ Revalidating s [] discard pool' := by
  induction ids generalizing discard pool with
  | nil => exact ⟨discard, rfl, h⟩
  | cons id ids ih =>
    obtain ⟨hid, hids⟩ := List.nodup_cons.1 hids
    have hskip : ∀ k trx, pool.feeIndex.lookup k = some trx → k.trx ∉ ids := by
      intro k trx hk hmem
      exact (h.done k trx hk).1 (List.mem_cons_of_mem _ hmem)
    have hkeep : Revalidating s ids discard pool :=
      ⟨h.toCoherent, fun k trx hk => ⟨hskip k trx hk, (h.done k trx hk).2⟩,
        fun x hx hmem => h.bad x hx (List.mem_cons_of_mem _ hmem)⟩
    rw [revalidateAll, wp_bind, revalidate, wp_bind, wp_get]
    dsimp only
    cases htrx : pool.transactions.lookup id with
    | none => exact ih hids hkeep
    | some trx =>
      rw [wp_attempt, wp_bind]
      refine wp_evaluateTransaction (fun p fees heval => ?_) fun e => ?_
      · -- it is evaluated
        refine ih hids ⟨h.enter heval (fun k trx' hk heq => ?_) htrx fun x _ => rfl, ?_, hkeep.bad⟩
        · exact (h.done k trx' hk).1 (heq ▸ List.mem_cons_self)
        · intro k trx' hk
          change (pool.feeIndex.insert ⟨fees, id⟩ trx).lookup k = some trx' at hk
          rw [Table.lookup_insert_eq] at hk
          split_ifs at hk with heq
          · rw [heq]
            exact ⟨hid, fun hmem => h.bad id hmem List.mem_cons_self⟩
          · exact hkeep.done k trx' hk
      · -- it is to be discarded
        refine ih hids ⟨h.toCoherent, fun k trx' hk => ⟨hskip k trx' hk, ?_⟩, ?_⟩
        · rw [if_pos rfl, List.mem_append, List.mem_singleton, not_or]
          exact ⟨(h.done k trx' hk).2, fun heq => (h.done k trx' hk).1 (heq ▸ List.mem_cons_self)⟩
        · intro x hx hmem
          rw [if_pos rfl, List.mem_append, List.mem_singleton] at hx
          rcases hx with hx | rfl
          · exact hkeep.bad x hx hmem
          · exact hid hmem

/-- **`revalidate_pending`** makes every pool coherent. -/
theorem coherent_revalidatePending (pool : Pool) :
    Wp True (revalidatePending s cfg) pool fun _ pool' => pool'.Coherent s := by
  rw [revalidatePending, wp_bind, wp_update]
  dsimp only
  rw [wp_bind, wp_update]
  dsimp only
  rw [wp_bind, wp_get]
  dsimp only
  rw [wp_bind]
  refine (wp_revalidateAll ((pool.transactions.pairwise_sortedKeys).imp ne_of_lt)
    ⟨coherent_of_empty rfl rfl, fun k trx hk => (by cases hk),
      fun x hx => (by cases hx)⟩).mono fun r pool' hr => ?_
  obtain ⟨discard, rfl, h⟩ := hr
  refine ⟨fun k trx hk => ?_, h.applied⟩
  exact (lookup_foldl_erase (h.done k trx hk).2).trans (h.stored k trx hk)

end Pool

end BitShares
