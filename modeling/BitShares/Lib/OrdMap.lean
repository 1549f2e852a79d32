import Mathlib.Order.Basic
import Mathlib.Data.List.Sort
import Mathlib.Tactic.Abel

/-!
# Ordered maps

A map kept as a list sorted by key, as an ordered container iterates it.  The order is a field,
so every map is sorted and no key occurs twice; `find_set` is the law of assignment, and
`mem_entries_iff` says that the entries a loop visits are exactly the bindings `find` reports.
-/

namespace BitShares

structure OrdMap (K V : Type) [LinearOrder K] where
  entries : List (K × V)
  sorted : entries.Pairwise fun a b => a.1 < b.1

namespace OrdMap

variable {K V : Type} [LinearOrder K]

instance [DecidableEq V] : DecidableEq (OrdMap K V) := fun a b =>
  decidable_of_iff (a.entries = b.entries) (by cases a; cases b; simp)

def empty : OrdMap K V := ⟨[], List.Pairwise.nil⟩

instance : EmptyCollection (OrdMap K V) := ⟨empty⟩

/-- Put a binding into a sorted list, over the one with the same key if there is one. -/
def setEntries (k : K) (v : V) : List (K × V) → List (K × V)
  | [] => [(k, v)]
  | (k', v') :: rest =>
    if k < k' then (k, v) :: (k', v') :: rest
    else if k = k' then (k, v) :: rest
    else (k', v') :: setEntries k v rest

def findEntries (k : K) : List (K × V) → Option V
  | [] => none
  | (k', v') :: rest => if k = k' then some v' else findEntries k rest

theorem mem_setEntries {k : K} {v : V} {e : K × V} {l : List (K × V)}
    (h : e ∈ setEntries k v l) : e = (k, v) ∨ e ∈ l := by
  induction l with
  | nil => simpa [setEntries] using h
  | cons a rest ih =>
    obtain ⟨k', v'⟩ := a
    unfold setEntries at h
    split at h
    · simpa using h
    · split at h
      · rcases List.mem_cons.1 h with h | h
        · exact .inl h
        · exact .inr (List.mem_cons_of_mem _ h)
      · rcases List.mem_cons.1 h with h | h
        · exact .inr (h ▸ List.mem_cons_self)
        · exact (ih h).imp_right (List.mem_cons_of_mem _)

theorem sorted_setEntries (k : K) (v : V) {l : List (K × V)}
    (h : l.Pairwise fun a b => a.1 < b.1) :
    (setEntries k v l).Pairwise fun a b => a.1 < b.1 := by
  induction l with
  | nil => exact List.pairwise_singleton _ _
  | cons a rest ih =>
    obtain ⟨k', v'⟩ := a
    obtain ⟨hhead, htail⟩ := List.pairwise_cons.1 h
    unfold setEntries
    split
    · rename_i hlt
      refine List.pairwise_cons.2 ⟨fun e he => ?_, h⟩
      rcases List.mem_cons.1 he with rfl | he
      · exact hlt
      · exact hlt.trans (hhead e he)
    · split
      · rename_i _ heq
        subst heq
        exact List.pairwise_cons.2 ⟨hhead, htail⟩
      · rename_i hnlt hne
        refine List.pairwise_cons.2 ⟨fun e he => ?_, ih htail⟩
        rcases mem_setEntries he with rfl | he
        · exact lt_of_le_of_ne (not_lt.1 hnlt) (Ne.symm hne)
        · exact hhead e he

def set (m : OrdMap K V) (k : K) (v : V) : OrdMap K V :=
  ⟨setEntries k v m.entries, sorted_setEntries k v m.sorted⟩

def find (m : OrdMap K V) (k : K) : Option V := findEntries k m.entries

def last? (m : OrdMap K V) : Option V := m.entries.getLast?.map (·.2)

/-- The value at `k`, or `d` when there is none. -/
def getD (m : OrdMap K V) (k : K) (d : V) : V := (m.find k).getD d

@[simp] theorem find_empty (k : K) : (∅ : OrdMap K V).find k = none := rfl

theorem findEntries_setEntries (k k' : K) (v : V) (l : List (K × V)) :
    findEntries k' (setEntries k v l) = if k' = k then some v else findEntries k' l := by
  induction l with
  | nil => simp [setEntries, findEntries]
  | cons a rest ih =>
    obtain ⟨k₁, v₁⟩ := a
    unfold setEntries
    split
    · simp [findEntries]
    · split
      · rename_i _ heq
        subst heq
        by_cases h : k' = k <;> simp [findEntries, h]
      · rename_i _ hne
        simp only [findEntries, ih]
        by_cases h₁ : k' = k₁
        · subst h₁; simp [Ne.symm hne]
        · simp [h₁]

theorem find_set (m : OrdMap K V) (k k' : K) (v : V) :
    (m.set k v).find k' = if k' = k then some v else m.find k' :=
  findEntries_setEntries k k' v m.entries

theorem last?_set (m : OrdMap K V) (k : K) (v : V) :
    (m.set k v).last? = some v ∨ (m.set k v).last? = m.last? := by
  have hlast : ∀ l : List (K × V), (setEntries k v l).getLast?.map (·.2) = some v ∨
      (setEntries k v l).getLast?.map (·.2) = l.getLast?.map (·.2) := by
    intro l
    induction l with
    | nil => exact .inl rfl
    | cons a rest ih =>
      obtain ⟨k', v'⟩ := a
      unfold setEntries
      split_ifs with hlt heq
      · exact .inr (by rw [List.getLast?_cons_cons])
      · cases rest with
        | nil => exact .inl rfl
        | cons b rest => exact .inr (by rw [List.getLast?_cons_cons, List.getLast?_cons_cons])
      · cases rest with
        | nil => exact .inl rfl
        | cons b rest =>
          obtain ⟨c, l, hcons⟩ : ∃ c l, setEntries k v (b :: rest) = c :: l := by
            unfold setEntries
            split_ifs <;> exact ⟨_, _, rfl⟩
          rw [hcons] at ih ⊢
          rw [List.getLast?_cons_cons, List.getLast?_cons_cons]
          exact ih
  exact hlast m.entries

theorem getD_set (m : OrdMap K V) (k k' : K) (v d : V) :
    (m.set k v).getD k' d = if k' = k then v else m.getD k' d := by
  unfold getD
  rw [find_set]
  split <;> rfl

theorem findEntries_eq_some {l : List (K × V)} (h : l.Pairwise fun a b => a.1 < b.1) {k : K}
    {v : V} : findEntries k l = some v ↔ (k, v) ∈ l := by
  induction l with
  | nil => simp [findEntries]
  | cons a rest ih =>
    obtain ⟨k', v'⟩ := a
    obtain ⟨hhead, htail⟩ := List.pairwise_cons.1 h
    unfold findEntries
    by_cases hk : k = k'
    · subst hk
      have hout : (k, v) ∉ rest := fun hm => lt_irrefl k (hhead (k, v) hm)
      simp [hout, eq_comm]
    · simp [hk, ih htail]

theorem mem_entries_iff (m : OrdMap K V) {k : K} {v : V} :
    (k, v) ∈ m.entries ↔ m.find k = some v :=
  (findEntries_eq_some m.sorted).symm

theorem setEntries_of_find {l : List (K × V)} (h : l.Pairwise fun a b => a.1 < b.1) {k : K} {v : V}
    (hk : findEntries k l = some v) : setEntries k v l = l := by
  induction l with
  | nil => cases hk
  | cons a rest ih =>
    obtain ⟨k', v'⟩ := a
    obtain ⟨hhead, htail⟩ := List.pairwise_cons.1 h
    unfold findEntries at hk
    unfold setEntries
    split at hk
    · rename_i heq
      cases hk
      subst heq
      simp
    · rename_i hne
      have hlt : k' < k := hhead (k, v) ((findEntries_eq_some htail).1 hk)
      rw [if_neg (not_lt.2 hlt.le), if_neg hne, ih htail hk]

theorem set_of_find {m : OrdMap K V} {k : K} {v : V} (h : m.find k = some v) : m.set k v = m := by
  obtain ⟨l, hl⟩ := m
  simp only [set, setEntries_of_find hl h]

theorem findEntries_eq_none_of_lt {l : List (K × V)} {k : K} (h : ∀ e ∈ l, k < e.1) :
    findEntries k l = none := by
  induction l with
  | nil => rfl
  | cons a l ih =>
    obtain ⟨k', v'⟩ := a
    rw [findEntries, if_neg (h _ List.mem_cons_self).ne]
    exact ih fun e he => h e (List.mem_cons_of_mem _ he)

theorem sum_set {M : Type} [AddCommGroup M] (f : K × V → M) (m : OrdMap K V) (k : K) (v : V) :
    ((m.set k v).entries.map f).sum =
      (m.entries.map f).sum - (m.find k).elim 0 (fun w => f (k, w)) + f (k, v) := by
  suffices h : ∀ l : List (K × V), l.Pairwise (fun a b => a.1 < b.1) →
      ((setEntries k v l).map f).sum =
        (l.map f).sum - (findEntries k l).elim 0 (fun w => f (k, w)) + f (k, v) from h _ m.sorted
  intro l hl
  induction l with
  | nil => simp [setEntries, findEntries]
  | cons a l ih =>
    obtain ⟨k', v'⟩ := a
    obtain ⟨hhead, htail⟩ := List.pairwise_cons.1 hl
    rw [setEntries, findEntries]
    split
    · rename_i hlt
      have hnone := findEntries_eq_none_of_lt (l := l) fun e he => hlt.trans (hhead e he)
      simp only [if_neg hlt.ne, hnone, Option.elim_none, List.map_cons, List.sum_cons]
      abel
    · split
      · rename_i _ heq
        subst heq
        simp [add_comm]
      · rename_i _ hne
        simp only [List.map_cons, List.sum_cons, ih htail]
        abel

theorem sum_at (m : OrdMap K V) (k : K) (f : V → ℤ) :
    (m.entries.map fun e => if e.1 = k then f e.2 else 0).sum = (m.find k).elim 0 f := by
  suffices h : ∀ l : List (K × V), l.Pairwise (fun a b => a.1 < b.1) →
      (l.map fun e => if e.1 = k then f e.2 else 0).sum = (findEntries k l).elim 0 f from h _ m.sorted
  intro l hl
  induction l with
  | nil => rfl
  | cons e l ih =>
    obtain ⟨hhead, htail⟩ := List.pairwise_cons.1 hl
    rw [List.map_cons, List.sum_cons, ih htail, findEntries]
    by_cases hk : e.1 = k
    · have hnone := findEntries_eq_none_of_lt (l := l) (k := k) (hk ▸ hhead)
      simp [hk, hnone]
    · rw [if_neg hk, if_neg (Ne.symm hk), zero_add]

theorem nodup_keys (m : OrdMap K V) : (m.entries.map (·.1)).Nodup := by
  have h : (m.entries.map (·.1)).Pairwise (· < ·) := List.pairwise_map.2 m.sorted
  exact h.imp ne_of_lt

theorem ext_find {m n : OrdMap K V} (h : ∀ k, m.find k = n.find k) : m = n := by
  have hmem : ∀ e, e ∈ m.entries ↔ e ∈ n.entries := fun (k, v) => by
    rw [mem_entries_iff, mem_entries_iff, h k]
  have hnodup : ∀ m : OrdMap K V, m.entries.Nodup := fun m => m.nodup_keys.of_map _
  obtain ⟨l, hl⟩ := m
  obtain ⟨l', hl'⟩ := n
  have hperm : l.Perm l' := (List.perm_ext_iff_of_nodup (hnodup ⟨l, hl⟩) (hnodup ⟨l', hl'⟩)).2 hmem
  have heq : l = l' := hperm.eq_of_pairwise (fun a b _ _ hab hba => absurd hba hab.asymm) hl hl'
  subst heq
  rfl

def erase (m : OrdMap K V) (k : K) : OrdMap K V :=
  ⟨m.entries.filter (·.1 ≠ k), m.sorted.filter _⟩

theorem find_erase (m : OrdMap K V) (k k' : K) :
    (m.erase k).find k' = if k' = k then none else m.find k' := by
  refine Option.ext fun v => ?_
  rw [← mem_entries_iff, erase, List.mem_filter]
  by_cases h : k' = k
  · simp [h]
  · simp [h, mem_entries_iff]

def emplaceAll (m : OrdMap K V) (l : List (K × V)) : OrdMap K V :=
  l.foldl (fun m e => if (m.find e.1).isSome then m else m.set e.1 e.2) m

theorem emplaceAll_empty (m : OrdMap K V) : (∅ : OrdMap K V).emplaceAll m.entries = m := by
  have hfind : ∀ (l : List (K × V)) (m : OrdMap K V) (k : K),
      (m.emplaceAll l).find k = (m.find k).or (findEntries k l) := by
    intro l
    induction l with
    | nil => simp [emplaceAll, findEntries]
    | cons e l ih =>
      obtain ⟨k', v'⟩ := e
      intro m k
      rw [emplaceAll, List.foldl_cons, ← emplaceAll, ih, findEntries]
      by_cases hk : k = k'
      · subst hk
        cases hm : m.find k with
        | some v => simp [hm]
        | none => simp [find_set]
      · split_ifs <;> simp [find_set, hk]
  refine ext_find fun k => ?_
  rw [hfind, find_empty, Option.none_or]
  rfl

/-! ### Iterators -/

/-- A place among the entries of a map, behind the last of them for the end. -/
structure Iterator (K V : Type) [LinearOrder K] where
  map : OrdMap K V
  place : Nat

def first (m : OrdMap K V) : Iterator K V := ⟨m, 0⟩

def last (m : OrdMap K V) : Iterator K V := ⟨m, m.entries.length - 1⟩

def iteratorAt (m : OrdMap K V) (k : K) : Iterator K V := ⟨m, m.entries.findIdx (·.1 = k)⟩

/-- The place of the first key from `k` on. -/
def lowerBound (m : OrdMap K V) (k : K) : Iterator K V := ⟨m, m.entries.findIdx (k ≤ ·.1)⟩

end OrdMap

abbrev OrdSet (K : Type) [LinearOrder K] := OrdMap K Unit

namespace OrdSet

variable {K : Type} [LinearOrder K]

def toList (s : OrdSet K) : List K := s.entries.map (·.1)

def insert (s : OrdSet K) (k : K) : OrdSet K := s.set k ()

def erase (s : OrdSet K) (k : K) : OrdSet K :=
  ⟨s.entries.filter (·.1 ≠ k), s.sorted.filter _⟩

/-- Drop elements from the front while they satisfy `f`. -/
def dropWhile (s : OrdSet K) (f : K → Bool) : OrdSet K :=
  ⟨s.entries.dropWhile fun e => f e.1, s.sorted.sublist (List.dropWhile_sublist _)⟩

def mem (s : OrdSet K) (k : K) : Bool := (s.find k).isSome

theorem nodup_toList (s : OrdSet K) : s.toList.Nodup := OrdMap.nodup_keys s

theorem toList_injective : Function.Injective (toList : OrdSet K → List K) := by
  rintro ⟨l, hl⟩ ⟨m, hm⟩ h
  obtain rfl : l = m := List.map_injective_iff.2 (fun _ _ h => Prod.ext h rfl) h
  rfl

theorem mem_toList {s : OrdSet K} {k : K} : k ∈ s.toList ↔ s.mem k = true := by
  unfold toList mem
  rw [Option.isSome_iff_exists]
  constructor
  · intro h
    obtain ⟨⟨k', u⟩, he, rfl⟩ := List.mem_map.1 h
    exact ⟨u, (OrdMap.mem_entries_iff s).1 he⟩
  · rintro ⟨u, h⟩
    exact List.mem_map.2 ⟨(k, u), (OrdMap.mem_entries_iff s).2 h, rfl⟩

theorem mem_insert (s : OrdSet K) (k k' : K) : (s.insert k).mem k' = (k' = k ∨ s.mem k') := by
  unfold insert mem
  rw [OrdMap.find_set]
  split <;> simp [*]

theorem insert_eq_self_iff {s : OrdSet K} {k : K} : s.insert k = s ↔ s.mem k := by
  constructor
  · intro h
    rw [← h, mem_insert]
    exact .inl rfl
  · intro h
    obtain ⟨u, hu⟩ := Option.isSome_iff_exists.1 h
    exact OrdMap.set_of_find hu

theorem erase_eq_self_iff {s : OrdSet K} {k : K} : s.erase k = s ↔ s.mem k = false := by
  rw [Bool.eq_false_iff, Ne, ← mem_toList]
  unfold erase toList
  rw [OrdMap.mk.injEq, List.filter_eq_self]
  constructor
  · intro h hk
    obtain ⟨e, he, rfl⟩ := List.mem_map.1 hk
    simpa using h e he
  · intro h e he
    simpa using fun heq => h (List.mem_map.2 ⟨e, he, heq⟩)

theorem mem_erase {s : OrdSet K} {k k' : K} :
    (s.erase k).mem k' = true ↔ k' ≠ k ∧ s.mem k' = true := by
  rw [← mem_toList, ← mem_toList]
  unfold erase toList
  constructor
  · intro h
    obtain ⟨e, he, rfl⟩ := List.mem_map.1 h
    obtain ⟨hmem, hne⟩ := List.mem_filter.1 he
    exact ⟨by simpa using hne, List.mem_map_of_mem hmem⟩
  · rintro ⟨hne, h⟩
    obtain ⟨e, he, rfl⟩ := List.mem_map.1 h
    exact List.mem_map_of_mem (List.mem_filter.2 ⟨he, by simpa using hne⟩)

end OrdSet

end BitShares
