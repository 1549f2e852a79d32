import Mathlib.Data.Finmap
import Mathlib.Data.List.Sort
import Mathlib.Algebra.BigOperators.Group.Finset.Basic
import Mathlib.Algebra.Order.BigOperators.Group.Finset
import Mathlib.Tactic.Ring
import Mathlib.Tactic.Linarith

/-!
# Finite tables and their totals

A `Table K V` is a finite map.  `Table.total t f` adds an integer weight over all entries; the
lemmas say how the total moves when one key is written or erased, which is all a ledger proof
needs to know about a table.
-/

namespace BitShares

abbrev Table (K V : Type) := Finmap (fun _ : K => V)

namespace Table

variable {K V : Type}

def weight (f : K → V → ℤ) (k : K) (o : Option V) : ℤ := o.elim 0 (f k)

@[simp] theorem weight_none (f : K → V → ℤ) (k : K) : weight f k none = 0 := rfl

@[simp] theorem weight_some (f : K → V → ℤ) (k : K) (v : V) : weight f k (some v) = f k v := rfl

variable [DecidableEq K]

def total (t : Table K V) (f : K → V → ℤ) : ℤ := ∑ k ∈ t.keys, weight f k (t.lookup k)

@[simp] theorem total_empty (f : K → V → ℤ) : total (∅ : Table K V) f = 0 := by
  simp [total]

theorem total_eq_sum_of_subset {t : Table K V} {s : Finset K} (f : K → V → ℤ)
    (h : t.keys ⊆ s) : total t f = ∑ k ∈ s, weight f k (t.lookup k) := by
  refine Finset.sum_subset h fun k _ hk => ?_
  have : t.lookup k = none := Finmap.lookup_eq_none.2 (by simpa [Finmap.mem_keys] using hk)
  rw [this, weight_none]

theorem total_eq_of_agree {t t' : Table K V} (f : K → V → ℤ) (k : K)
    (h : ∀ k', k' ≠ k → t'.lookup k' = t.lookup k') :
    total t' f = total t f - weight f k (t.lookup k) + weight f k (t'.lookup k) := by
  have hs : t.keys ⊆ insert k (t.keys ∪ t'.keys) := fun x hx => by simp [hx]
  have hs' : t'.keys ⊆ insert k (t.keys ∪ t'.keys) := fun x hx => by simp [hx]
  rw [total_eq_sum_of_subset f hs, total_eq_sum_of_subset f hs',
    ← Finset.add_sum_erase _ _ (Finset.mem_insert_self k _),
    ← Finset.add_sum_erase _ (fun x => weight f x (t.lookup x)) (Finset.mem_insert_self k _)]
  have hrest : ∑ x ∈ (insert k (t.keys ∪ t'.keys)).erase k, weight f x (t'.lookup x) =
      ∑ x ∈ (insert k (t.keys ∪ t'.keys)).erase k, weight f x (t.lookup x) :=
    Finset.sum_congr rfl fun x hx => by rw [h x (Finset.ne_of_mem_erase hx)]
  rw [hrest]
  ring

theorem total_insert (t : Table K V) (f : K → V → ℤ) (k : K) (v : V) :
    total (t.insert k v) f = total t f - weight f k (t.lookup k) + f k v := by
  rw [total_eq_of_agree (t := t) f k fun k' hk => Finmap.lookup_insert_of_ne t hk,
    Finmap.lookup_insert, weight_some]

@[simp] theorem total_singleton (f : K → V → ℤ) (k : K) (v : V) :
    total (Finmap.singleton k v : Table K V) f = f k v := by
  simp [total, Finmap.keys_singleton]

theorem total_erase (t : Table K V) (f : K → V → ℤ) (k : K) :
    total (t.erase k) f = total t f - weight f k (t.lookup k) := by
  rw [total_eq_of_agree (t := t) f k fun k' hk => Finmap.lookup_erase_ne hk,
    Finmap.lookup_erase, weight_none, add_zero]

theorem total_congr {t : Table K V} {f g : K → V → ℤ}
    (h : ∀ k v, t.lookup k = some v → f k v = g k v) : total t f = total t g := by
  refine Finset.sum_congr rfl fun k _ => ?_
  cases hk : t.lookup k with
  | none => rfl
  | some v => exact h k v hk

theorem total_eq_zero {t : Table K V} {f : K → V → ℤ}
    (h : ∀ k v, t.lookup k = some v → f k v = 0) : total t f = 0 := by
  refine Finset.sum_eq_zero fun k _ => ?_
  cases hk : t.lookup k with
  | none => rfl
  | some v => exact h k v hk

theorem total_add (t : Table K V) (f g : K → V → ℤ) :
    total t (fun k v => f k v + g k v) = total t f + total t g := by
  unfold total
  rw [← Finset.sum_add_distrib]
  refine Finset.sum_congr rfl fun k _ => ?_
  cases t.lookup k <;> simp

theorem lookup_insert_eq (t : Table K V) (k k' : K) (v : V) :
    (t.insert k v).lookup k' = if k' = k then some v else t.lookup k' := by
  split
  · subst k'; exact Finmap.lookup_insert t
  · exact Finmap.lookup_insert_of_ne t ‹_›

theorem lookup_singleton_of_ne {k k' : K} (v : V) (h : k' ≠ k) :
    (Finmap.singleton k v : Table K V).lookup k' = none :=
  Finmap.lookup_eq_none.2 (by simp [h])

theorem eq_of_lookup_singleton {k k' : K} {v v' : V}
    (h : (Finmap.singleton k v : Table K V).lookup k' = some v') : k' = k ∧ v' = v := by
  by_cases hk : k' = k
  · rw [hk, Finmap.lookup_singleton_eq] at h
    exact ⟨hk, (Option.some.inj h).symm⟩
  · rw [lookup_singleton_of_ne v hk] at h
    cases h

theorem lookup_erase_eq (t : Table K V) (k k' : K) :
    (t.erase k).lookup k' = if k' = k then none else t.lookup k' := by
  split
  · subst k'; exact Finmap.lookup_erase _ _
  · exact Finmap.lookup_erase_ne ‹_›

theorem insert_of_lookup {t : Table K V} {k : K} {v : V} (h : t.lookup k = some v) :
    t.insert k v = t := by
  refine Finmap.ext_lookup fun k' => ?_
  rw [lookup_insert_eq]
  split
  · rename_i hk
    rw [hk, h]
  · rfl

theorem erase_of_lookup_none {t : Table K V} {k : K} (h : t.lookup k = none) : t.erase k = t := by
  refine Finmap.ext_lookup fun k' => ?_
  rw [lookup_erase_eq]
  split
  · rename_i hk
    rw [hk, h]
  · rfl

/-- Every entry of a table satisfies `P`. -/
def All (t : Table K V) (P : K → V → Prop) : Prop := ∀ k v, t.lookup k = some v → P k v

theorem all_iff {t : Table K V} {P : K → V → Prop} :
    t.All P ↔ ∀ e ∈ t.entries, P e.1 e.2 := by
  constructor
  · intro h e he
    exact h e.1 e.2 (Finmap.lookup_eq_some_iff.2 he)
  · intro h k v hk
    exact h ⟨k, v⟩ (Finmap.lookup_eq_some_iff.1 hk)

instance {t : Table K V} {P : K → V → Prop} [∀ k v, Decidable (P k v)] : Decidable (t.All P) :=
  decidable_of_iff _ all_iff.symm

theorem All.insert {t : Table K V} {P : K → V → Prop} (h : t.All P) {k : K} {v : V}
    (hk : P k v) : Table.All (t.insert k v) P := by
  intro k' v' h'
  rw [lookup_insert_eq] at h'
  split at h'
  · cases h'; exact ‹k' = k› ▸ hk
  · exact h k' v' h'

theorem All.erase {t : Table K V} {P : K → V → Prop} (h : t.All P) (k : K) :
    Table.All (t.erase k) P := by
  intro k' v hv
  rw [lookup_erase_eq] at hv
  split_ifs at hv
  exact h k' v hv

theorem All.of_empty {t : Table K V} {P : K → V → Prop} (h : t = ∅) : t.All P := by
  intro k v hv
  rw [h, Finmap.lookup_empty] at hv
  cases hv

def sortedKeys {K V : Type} [LinearOrder K] (t : Table K V) : List K :=
  Quot.liftOn t.keys.val (fun l => l.insertionSort (· ≤ ·)) fun l l' h =>
    (((List.perm_insertionSort _ l).trans h).trans (List.perm_insertionSort _ l').symm).eq_of_pairwise
      (fun _ _ _ _ => le_antisymm) (List.pairwise_insertionSort _ l)
      (List.pairwise_insertionSort _ l')

theorem sortedKeys_eq {K V : Type} [LinearOrder K] (t : Table K V) :
    ∃ l : List K, l = t.keys.val ∧ t.sortedKeys = l.insertionSort (· ≤ ·) := by
  obtain ⟨l, hl⟩ := Quot.exists_rep t.keys.val
  refine ⟨l, hl, ?_⟩
  unfold sortedKeys
  rw [← hl]

theorem mem_sortedKeys {K V : Type} [LinearOrder K] {t : Table K V} {k : K} :
    k ∈ t.sortedKeys ↔ k ∈ t := by
  obtain ⟨l, hl, hsorted⟩ := t.sortedKeys_eq
  rw [hsorted, List.mem_insertionSort, ← Finmap.mem_keys, ← Finset.mem_val, ← hl, Multiset.mem_coe]

theorem pairwise_sortedKeys {K V : Type} [LinearOrder K] (t : Table K V) :
    t.sortedKeys.Pairwise (· < ·) := by
  obtain ⟨l, hl, hsorted⟩ := t.sortedKeys_eq
  have hnodup : (l.insertionSort (· ≤ ·)).Nodup := by
    rw [(List.perm_insertionSort _ l).nodup_iff, ← Multiset.coe_nodup, hl]
    exact t.keys.nodup
  rw [hsorted]
  exact (List.pairwise_insertionSort _ l).imp₂ (fun _ _ hle hne => lt_of_le_of_ne hle hne) hnodup

def rows {K V : Type} [LinearOrder K] (t : Table K V) : List (K × V) :=
  t.sortedKeys.filterMap fun k => (t.lookup k).map (k, ·)

theorem mem_rows {K V : Type} [LinearOrder K] {t : Table K V} {e : K × V} :
    e ∈ t.rows ↔ t.lookup e.1 = some e.2 := by
  rw [rows, List.mem_filterMap]
  constructor
  · rintro ⟨k, -, hk⟩
    obtain ⟨v, hv, rfl⟩ := Option.map_eq_some_iff.1 hk
    exact hv
  · intro he
    refine ⟨e.1, mem_sortedKeys.2 (Finmap.lookup_isSome.1 (by rw [he]; rfl)), ?_⟩
    rw [he]
    rfl

theorem sum_rows {K V : Type} [LinearOrder K] (t : Table K V) (f : K → V → ℤ) :
    (t.rows.map fun e => f e.1 e.2).sum = t.total f := by
  have hkeys : t.keys = t.sortedKeys.toFinset := by
    ext k
    rw [List.mem_toFinset, mem_sortedKeys, Finmap.mem_keys]
  have hrows : ∀ l : List K, ((l.filterMap fun k => (t.lookup k).map (k, ·)).map
      fun e => f e.1 e.2).sum = (l.map fun k => weight f k (t.lookup k)).sum := by
    intro l
    induction l with
    | nil => rfl
    | cons k l ih =>
      rw [List.filterMap_cons, List.map_cons, List.sum_cons, ← ih]
      cases t.lookup k with
      | none => simp
      | some v => rfl
  rw [total, hkeys, List.sum_toFinset _ (t.pairwise_sortedKeys.imp ne_of_lt), rows, hrows]

end Table

end BitShares
