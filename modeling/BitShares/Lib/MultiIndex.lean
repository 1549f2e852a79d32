import Mathlib.Order.Basic
import Mathlib.Data.List.Pairwise
import Mathlib.Data.List.TakeWhile
import Mathlib.Data.List.Nodup
import Mathlib.Data.List.Perm.Basic
import Mathlib.Order.Lattice

/-!
# Sets with two indices

A container with one index ordered by a rank, where elements may tie, and one hashed by a key, where
they may not, as `boost::multi_index_container` combines them.  The elements are listed in the order
of the first index.
-/

namespace BitShares

structure MultiIndex {α K T : Type} [LinearOrder T] (rank : α → T) (key : α → K) where
  entries : List α
  ordered : entries.Pairwise fun a b => rank a ≤ rank b
  unique : (entries.map key).Nodup

namespace MultiIndex

variable {α K T : Type} [LinearOrder T] [DecidableEq K] {rank : α → T} {key : α → K}

instance : EmptyCollection (MultiIndex rank key) := ⟨⟨[], .nil, .nil⟩⟩

omit [DecidableEq K] in
theorem eq_of_key (s : MultiIndex rank key) {a b : α} (ha : a ∈ s.entries) (hb : b ∈ s.entries)
    (h : key a = key b) : a = b :=
  List.inj_on_of_nodup_map s.unique ha hb h

def find (s : MultiIndex rank key) (k : K) : Option α := s.entries.find? (key · = k)

theorem find_eq_some {s : MultiIndex rank key} {k : K} {a : α} :
    s.find k = some a ↔ a ∈ s.entries ∧ key a = k := by
  constructor
  · intro h
    exact ⟨List.mem_of_find?_eq_some h, by simpa using List.find?_some h⟩
  · rintro ⟨hmem, rfl⟩
    obtain ⟨b, hb⟩ : ∃ b, s.find (key a) = some b :=
      Option.isSome_iff_exists.1 (List.find?_isSome.2 ⟨a, hmem, by simp⟩)
    have hkey : key b = key a := by simpa using List.find?_some hb
    rw [hb, s.eq_of_key (List.mem_of_find?_eq_some hb) hmem hkey]

theorem find_eq_none {s : MultiIndex rank key} {k : K} :
    s.find k = none ↔ ∀ a ∈ s.entries, key a ≠ k := by
  simp [find]

/-! ### Insertion -/

def place (rank : α → T) (a : α) (l : List α) : List α :=
  l.takeWhile (rank · ≤ rank a) ++ a :: l.dropWhile (rank · ≤ rank a)

omit [DecidableEq K] in
theorem place_perm (a : α) (l : List α) : (place rank a l).Perm (a :: l) := by
  have h : (place rank a l).Perm (a :: (l.takeWhile (rank · ≤ rank a) ++
      l.dropWhile (rank · ≤ rank a))) := List.perm_middle
  rwa [List.takeWhile_append_dropWhile] at h

omit [DecidableEq K] in
theorem place_ordered (a : α) {l : List α} (h : l.Pairwise fun a b => rank a ≤ rank b) :
    (place rank a l).Pairwise fun a b => rank a ≤ rank b := by
  induction l with
  | nil => exact List.pairwise_singleton _ _
  | cons b l ih =>
    obtain ⟨hb, hl⟩ := List.pairwise_cons.1 h
    unfold place
    by_cases hle : rank b ≤ rank a
    · rw [List.takeWhile_cons_of_pos (by simpa using hle),
        List.dropWhile_cons_of_pos (by simpa using hle), List.cons_append, ← place]
      refine List.pairwise_cons.2 ⟨fun c hc => ?_, ih hl⟩
      rcases List.mem_cons.1 ((place_perm a l).mem_iff.1 hc) with rfl | hc
      · exact hle
      · exact hb c hc
    · rw [List.takeWhile_cons_of_neg (by simpa using hle),
        List.dropWhile_cons_of_neg (by simpa using hle), List.nil_append]
      refine List.pairwise_cons.2 ⟨fun c hc => ?_, h⟩
      have hlt := (not_le.1 hle).le
      rcases List.mem_cons.1 hc with rfl | hc
      · exact hlt
      · exact hlt.trans (hb c hc)

def insert (s : MultiIndex rank key) (a : α) : MultiIndex rank key :=
  if h : s.find (key a) = none then
    ⟨place rank a s.entries, place_ordered a s.ordered, by
      refine ((place_perm a s.entries).map key).nodup_iff.2 (List.nodup_cons.2 ⟨?_, s.unique⟩)
      rintro hmem
      obtain ⟨b, hb, hkey⟩ := List.mem_map.1 hmem
      exact find_eq_none.1 h b hb hkey⟩
  else s

theorem insert_perm {s : MultiIndex rank key} {a : α} (h : s.find (key a) = none) :
    (s.insert a).entries.Perm (a :: s.entries) := by
  rw [insert, dif_pos h]
  exact place_perm a s.entries

def insertAll (s : MultiIndex rank key) (l : List α) : MultiIndex rank key := l.foldl insert s

theorem insertAll_perm {s : MultiIndex rank key} {l : List α} (hl : (l.map key).Nodup)
    (h : ∀ a ∈ l, s.find (key a) = none) : (s.insertAll l).entries.Perm (l ++ s.entries) := by
  induction l generalizing s with
  | nil => rfl
  | cons a l ih =>
    obtain ⟨ha, hl⟩ := List.nodup_cons.1 hl
    have hperm := insert_perm (h a List.mem_cons_self)
    have hfree : ∀ b ∈ l, (s.insert a).find (key b) = none := by
      intro b hb
      refine find_eq_none.2 fun c hc => ?_
      rcases List.mem_cons.1 (hperm.mem_iff.1 hc) with rfl | hc
      · exact fun heq => ha (heq ▸ List.mem_map_of_mem hb)
      · exact find_eq_none.1 (h b (List.mem_cons_of_mem _ hb)) c hc
    exact (ih hl hfree).trans ((hperm.append_left l).trans List.perm_middle)

/-! ### Removal -/

def erase (s : MultiIndex rank key) (k : K) : MultiIndex rank key :=
  ⟨s.entries.filter (key · ≠ k), s.ordered.filter _,
    s.unique.sublist (List.filter_sublist.map key)⟩

theorem mem_erase {s : MultiIndex rank key} {k : K} {a : α} :
    a ∈ (s.erase k).entries ↔ a ∈ s.entries ∧ key a ≠ k := by
  simp [erase]

theorem erase_middle {s : MultiIndex rank key} {a : α} {l₁ l₂ : List α}
    (h : s.entries = l₁ ++ a :: l₂) : (s.erase (key a)).entries = l₁ ++ l₂ := by
  have hunique := s.unique
  rw [h, List.map_append, List.map_cons, List.nodup_middle, List.nodup_cons, ← List.map_append]
    at hunique
  have hother : ∀ b ∈ l₁ ++ l₂, key b ≠ key a := fun b hb heq =>
    hunique.1 (heq ▸ List.mem_map_of_mem hb)
  unfold erase
  simp only [h, List.filter_append]
  rw [List.filter_cons_of_neg (by simp), ← List.filter_append, List.filter_eq_self]
  exact fun b hb => by simpa using hother b hb

/-! ### Change in place -/

/-- Put `a` over the element with its key.  It moves only when its rank no longer fits its
neighbours. -/
def replace (s : MultiIndex rank key) (a : α) : MultiIndex rank key :=
  let changed := s.entries.map fun b => if key b = key a then a else b
  if h : changed.Pairwise fun a b => rank a ≤ rank b then
    ⟨changed, h, by
      have hkeys : changed.map key = s.entries.map key := by
        rw [List.map_map]
        refine List.map_congr_left fun b _ => ?_
        by_cases hb : key b = key a <;> simp [hb]
      exact hkeys ▸ s.unique⟩
  else (s.erase (key a)).insert a

theorem mem_replace {s : MultiIndex rank key} {a b x : α} (hb : b ∈ s.entries)
    (hkey : key b = key a) :
    x ∈ (s.replace a).entries ↔ x = a ∨ x ∈ s.entries ∧ key x ≠ key a := by
  unfold replace
  dsimp only
  split_ifs with h
  · constructor
    · intro hx
      obtain ⟨c, hc, rfl⟩ := List.mem_map.1 hx
      split_ifs with heq
      · exact .inl rfl
      · exact .inr ⟨hc, heq⟩
    · rintro (rfl | ⟨hx, hne⟩)
      · exact List.mem_map.2 ⟨b, hb, if_pos hkey⟩
      · exact List.mem_map.2 ⟨x, hx, if_neg hne⟩
  · have hfree : (s.erase (key a)).find (key a) = none :=
      find_eq_none.2 fun c hc => (mem_erase.1 hc).2
    rw [(insert_perm hfree).mem_iff, List.mem_cons, mem_erase]

end MultiIndex

end BitShares
