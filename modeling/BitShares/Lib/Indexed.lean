import BitShares.Lib.Overlay

/-!
# Tables with an index

A record store that keeps an index from keys to the ids of the records that have them.  A write
enters the keys of the new record and first takes out some of the record it replaces; an
`IndexScheme` says which.  `Indexed.Exact` is what an index is for: it answers with an id exactly if
the record under it has the key.

* `Indexed.Exact.apply`: a batch keeps it exact if no key moves from one id to another.
* `Indexed.Exact.index_eq`: an exact index is determined by the records, so whatever restores them
  restores it.
-/

namespace BitShares

/-- The keys a write enters, those it takes out before when it replaces a record, and those that an
erasure takes out. -/
structure IndexScheme (A V : Type) where
  entered : V → List A
  dropped : V → V → List A
  erased : V → List A

/-- What is taken out are keys of the record that goes, as far as `rel` asks. -/
structure IndexScheme.Lawful {A V : Type} (σ : IndexScheme A V) (rel : A → Prop) : Prop where
  dropped : ∀ old new a, rel a → a ∈ σ.dropped old new → a ∈ σ.entered old
  erased : ∀ old a, rel a → (a ∈ σ.erased old ↔ a ∈ σ.entered old)

def IndexScheme.replaced {A V : Type} (σ : IndexScheme A V) (old : Option V) (v : V) : List A :=
  match old with
  | some o => σ.dropped o v
  | none => []

theorem IndexScheme.mem_replaced {A V : Type} {σ : IndexScheme A V} {old : Option V} {v : V}
    {a : A} : a ∈ σ.replaced old v ↔ ∃ o, old = some o ∧ a ∈ σ.dropped o v := by
  cases old <;> simp [replaced]

/-- An index after keys are taken out and then others entered under one id. -/
def updated {K A : Type} [DecidableEq A] (entered dropped : List A) (k : K) (i : A → Option K) :
    A → Option K :=
  fun a => if a ∈ entered then some k else if a ∈ dropped then none else i a

/-- Records and, for every key, the id that the index answers with. -/
@[ext]
structure Indexed (K A V : Type) where
  records : Table K V
  index : A → Option K

namespace Indexed

variable {K A V : Type} [DecidableEq K] [DecidableEq A]

def store (σ : IndexScheme A V) (g : Indexed K A V) (k : K) (v : V) : Indexed K A V where
  records := g.records.insert k v
  index := updated (σ.entered v) (σ.replaced (g.records.lookup k) v) k g.index

def remove (σ : IndexScheme A V) (g : Indexed K A V) (k : K) : Indexed K A V :=
  match g.records.lookup k with
  | none => g
  | some old => ⟨g.records.erase k, updated [] (σ.erased old) k g.index⟩

def apply (σ : IndexScheme A V) (g : Indexed K A V) (o : Overlay K V) : Indexed K A V :=
  o.applyRecords (remove σ) (store σ) g

/-- The index answers with an id exactly if the record under it has the key. -/
def Exact (rel : A → Prop) (σ : IndexScheme A V) (g : Indexed K A V) : Prop :=
  ∀ a, rel a → ∀ k, g.index a = some k ↔
    ∃ v, g.records.lookup k = some v ∧ a ∈ σ.entered v

theorem records_remove (σ : IndexScheme A V) (g : Indexed K A V) (k : K) :
    (g.remove σ k).records = g.records.erase k := by
  unfold remove
  split
  · rename_i h
    exact (Table.erase_of_lookup_none h).symm
  · rfl

theorem records_foldl_remove (σ : IndexScheme A V) (l : List K) (g : Indexed K A V) :
    (l.foldl (remove σ) g).records = l.foldl (fun t k => t.erase k) g.records := by
  induction l generalizing g with
  | nil => rfl
  | cons k l ih => rw [List.foldl_cons, ih, List.foldl_cons, records_remove]

variable {rel : A → Prop} {σ : IndexScheme A V} {g : Indexed K A V}

omit [DecidableEq A] in
theorem Exact.unique (h : g.Exact rel σ) {a : A} (ha : rel a) {k k' : K} {v v' : V}
    (hk : g.records.lookup k = some v) (hav : a ∈ σ.entered v)
    (hk' : g.records.lookup k' = some v') (hav' : a ∈ σ.entered v') : k = k' := by
  have hi : g.index a = some k := (h a ha k).2 ⟨v, hk, hav⟩
  have hi' : g.index a = some k' := (h a ha k').2 ⟨v', hk', hav'⟩
  exact Option.some.inj (hi.symm.trans hi')

omit [DecidableEq A] in
/-- **An exact index is determined by the records.** -/
theorem Exact.index_eq {g g' : Indexed K A V} (h : g.Exact (fun _ => True) σ)
    (h' : g'.Exact (fun _ => True) σ) (hrecords : g.records = g'.records) :
    g.index = g'.index := by
  refine funext fun a => Option.ext fun k => ?_
  rw [h a trivial k, h' a trivial k, hrecords]

theorem Exact.remove (hσ : σ.Lawful rel) (h : g.Exact rel σ) (k : K) :
    (g.remove σ k).Exact rel σ := by
  unfold Indexed.remove
  split
  · exact h
  · rename_i old hold
    intro a ha k'
    have hout := hσ.erased old a ha
    simp only [updated, List.not_mem_nil, if_false, Table.lookup_erase_eq]
    by_cases hk : k' = k
    · -- under the erased id there is nothing, and its keys are out of the index
      subst hk
      rw [if_pos rfl]
      refine ⟨fun hi => ?_, fun ⟨_, hnone, _⟩ => by cases hnone⟩
      split_ifs at hi with hin
      obtain ⟨v, hv, hav⟩ := (h a ha k').1 hi
      obtain rfl : old = v := Option.some.inj (hold.symm.trans hv)
      exact absurd (hout.2 hav) hin
    · rw [if_neg hk]
      split_ifs with hin
      · refine ⟨fun hi => (by cases hi), fun ⟨v, hv, hav⟩ => ?_⟩
        exact absurd (h.unique ha hv hav hold (hout.1 hin)) hk
      · exact h a ha k'

/-- **One write** keeps the index exact, if no other record has a key of the new one and the keys
of the old one that the new one lacks are taken out. -/
theorem Exact.store (hσ : σ.Lawful rel) (h : g.Exact rel σ) {k : K} {v : V}
    (hkeep : ∀ old, g.records.lookup k = some old → ∀ a, rel a → a ∈ σ.entered old →
      a ∈ σ.entered v ∨ a ∈ σ.dropped old v)
    (hfree : ∀ a, rel a → a ∈ σ.entered v → ∀ k' v', g.records.lookup k' = some v' →
      a ∈ σ.entered v' → k' = k) :
    (g.store σ k v).Exact rel σ := by
  intro a ha k'
  change (if a ∈ σ.entered v then some k
    else if a ∈ σ.replaced (g.records.lookup k) v then none else g.index a) = some k' ↔
    ∃ v', (g.records.insert k v).lookup k' = some v' ∧ a ∈ σ.entered v'
  rw [Table.lookup_insert_eq]
  by_cases hk : k' = k
  · subst hk
    simp only [if_true, Option.some.injEq, exists_eq_left']
    by_cases hav : a ∈ σ.entered v
    · simp [hav]
    · simp only [hav, if_false, iff_false]
      split_ifs with hdrop
      · simp
      · intro hi
        obtain ⟨old, hold, haold⟩ := (h a ha k').1 hi
        exact (hkeep old hold a ha haold).elim hav fun h =>
          hdrop (IndexScheme.mem_replaced.2 ⟨old, hold, h⟩)
  · rw [if_neg hk]
    by_cases hav : a ∈ σ.entered v
    · rw [if_pos hav]
      refine ⟨fun hi => absurd (Option.some.inj hi).symm hk, fun ⟨v', hv', hav'⟩ => ?_⟩
      exact absurd (hfree a ha hav k' v' hv' hav') hk
    · rw [if_neg hav]
      split_ifs with hdrop
      · refine ⟨fun hi => (by cases hi), fun ⟨v', hv', hav'⟩ => ?_⟩
        obtain ⟨old, hold, hdrop⟩ := IndexScheme.mem_replaced.1 hdrop
        exact absurd (h.unique ha hv' hav' hold (hσ.dropped old v a ha hdrop)) hk
      · exact h a ha k'

/-- **A batch** keeps the index exact, if a key that a written record has belongs to no other id,
neither among the records that stay nor among the written ones, and the writes take out what they
replace. -/
theorem Exact.apply (hσ : σ.Lawful rel) (h : g.Exact rel σ) {o : Overlay K V}
    (hkeep : ∀ k old new, g.records.lookup k = some old → o.stored.lookup k = some new →
      ∀ a, rel a → a ∈ σ.entered old → a ∈ σ.entered new ∨ a ∈ σ.dropped old new)
    (hbefore : ∀ k k' new old, o.stored.lookup k = some new → g.records.lookup k' = some old →
      k' ∉ o.removed → ∀ a, rel a → a ∈ σ.entered new → a ∈ σ.entered old → k' = k)
    (hwritten : ∀ k k' new new', o.stored.lookup k = some new → o.stored.lookup k' = some new' →
      ∀ a, rel a → a ∈ σ.entered new → a ∈ σ.entered new' → k' = k) :
    (g.apply σ o).Exact rel σ := by
  -- the erasures, which only take records away
  have hremoved : ∀ (l : List K) (g₁ : Indexed K A V), g₁.Exact rel σ →
      (l.foldl (Indexed.remove σ) g₁).Exact rel σ := by
    intro l
    induction l with
    | nil => exact fun g₁ h₁ => h₁
    | cons k l ih => exact fun g₁ h₁ => ih _ (h₁.remove hσ k)
  -- the writes: what is under an id is from before or has been written
  have hstored : ∀ (l : List (Sigma fun _ : K => V)), l.NodupKeys →
      (∀ e ∈ l, o.stored.lookup e.1 = some e.2) → ∀ g₁ : Indexed K A V, g₁.Exact rel σ →
      (∀ k v, g₁.records.lookup k = some v →
        (g.records.lookup k = some v ∧ k ∉ o.removed) ∨
          k ∉ l.keys ∧ o.stored.lookup k = some v) →
      (l.foldl (fun g e => g.store σ e.1 e.2) g₁).Exact rel σ := by
    intro l
    induction l with
    | nil => exact fun _ _ g₁ h₁ _ => h₁
    | cons e l ih =>
      intro hl hmem g₁ h₁ hfrom
      rw [List.nodupKeys_cons] at hl
      have he := hmem e List.mem_cons_self
      refine ih hl.2 (fun e' he' => hmem e' (List.mem_cons_of_mem _ he')) _
        (h₁.store hσ (fun old hold a ha haold => ?_) fun a ha hae k' v' hv' hav' => ?_)
        fun k v hv => ?_
      · rcases hfrom _ _ hold with ⟨hold, -⟩ | ⟨hnot, -⟩
        · exact hkeep _ _ _ hold he a ha haold
        · exact absurd (List.mem_cons_self) hnot
      · rcases hfrom _ _ hv' with ⟨hv', hin⟩ | ⟨-, hv'⟩
        · exact hbefore _ _ _ _ he hv' hin a ha hae hav'
        · exact hwritten _ _ _ _ he hv' a ha hae hav'
      · change (g₁.records.insert e.1 e.2).lookup k = some v at hv
        rw [Table.lookup_insert_eq] at hv
        split_ifs at hv with hk
        · rw [hk]
          exact .inr ⟨hl.1, by rw [he, ← hv]⟩
        · rcases hfrom k v hv with hv | ⟨hnot, hv⟩
          · exact .inl hv
          · exact .inr ⟨fun hin => hnot (List.mem_cons_of_mem _ hin), hv⟩
  refine hstored _ o.stored.nodupKeys (fun e he => List.mem_dlookup o.stored.nodupKeys he) _
    (hremoved o.removed g h) fun k v hv => .inl ?_
  rw [records_foldl_remove, Overlay.lookup_foldl_erase] at hv
  split_ifs at hv with hin
  exact ⟨hv, hin⟩

end Indexed

end BitShares
