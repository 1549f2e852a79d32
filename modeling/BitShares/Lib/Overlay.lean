import BitShares.Lib.Table

/-!
# Overlays

An `Overlay` is a batch of writes and erasures held back from a table.  A `Layered` table is a
table seen through an overlay: it is read through its `view`, and a batch is made permanent with
`applyRecords`.  `populateUndo` reads off the batch that takes the writes back.

* `Layered.lookup_eq` / `Layered.view_insert`: through an overlay a table reads and writes like
  the plain table `view`.
* `Overlay.applyRecords_local`: a batch is local to the part of a store its writes are local to.
* `Layered.undo_applyTo`: applying the undo batch after the batch restores the table.
-/

namespace BitShares

structure Overlay (K V : Type) where
  stored : AList (fun _ : K => V)
  removed : List K

namespace Overlay

variable {K V : Type}

def empty : Overlay K V := ⟨∅, []⟩

variable [DecidableEq K]

def insert (o : Overlay K V) (k : K) (v : V) : Overlay K V :=
  ⟨o.stored.insert k v, o.removed.filter (· ≠ k)⟩

def erase (o : Overlay K V) (k : K) : Overlay K V :=
  ⟨o.stored.erase k, List.insert k o.removed⟩

/-- What the overlay says about a key whose record below is `below`. -/
def read (o : Overlay K V) (k : K) (below : Option V) : Option V :=
  match o.stored.lookup k with
  | some v => some v
  | none => if k ∈ o.removed then none else below

/-- Apply a batch to any store `D` through its own erase and write operations: the erasures
first, then the writes. -/
def applyRecords {D : Type} (remove : D → K → D) (store : D → K → V → D) (o : Overlay K V)
    (d : D) : D :=
  o.stored.entries.foldl (fun d e => store d e.1 e.2) (o.removed.foldl remove d)

/-- Collect into `u` the batch that takes `o` back, where `prev` reads the state below. -/
def populateUndo {U : Type} (prev : K → Option V) (store : U → K → V → U) (remove : U → K → U)
    (o : Overlay K V) (u : U) : U :=
  let u := o.removed.foldl (fun u k =>
    match prev k with
    | some v => store u k v
    | none => u) u
  o.stored.entries.foldl (fun u e =>
    match prev e.1 with
    | some v => store u e.1 v
    | none => remove u e.1) u

theorem read_empty (k : K) (below : Option V) : (empty : Overlay K V).read k below = below := by
  simp [read, empty]

theorem read_insert (o : Overlay K V) (k k' : K) (v : V) (below : Option V) :
    (o.insert k v).read k' below = if k' = k then some v else o.read k' below := by
  by_cases h : k' = k
  · subst h; simp [read, insert]
  · simp [read, insert, AList.lookup_insert_ne h, h]

theorem read_erase (o : Overlay K V) (k k' : K) (below : Option V) :
    (o.erase k).read k' below = if k' = k then none else o.read k' below := by
  by_cases h : k' = k
  · subst h; simp [read, erase]
  · simp [read, erase, AList.lookup_erase_ne h, h]

/-! ## The plain table as a store -/

theorem lookup_foldl_erase (l : List K) (t : Table K V) (k : K) :
    (l.foldl (fun t k => t.erase k) t).lookup k = if k ∈ l then none else t.lookup k := by
  induction l generalizing t with
  | nil => simp
  | cons a l ih =>
    rw [List.foldl_cons, ih, Table.lookup_erase_eq]
    by_cases hk : k ∈ l <;> by_cases ha : k = a <;> simp [hk, ha]

theorem lookup_foldl_insert (l : List (Sigma fun _ : K => V)) (hl : l.NodupKeys) (t : Table K V)
    (k : K) : (l.foldl (fun t e => t.insert e.1 e.2) t).lookup k =
      match l.dlookup k with
      | some v => some v
      | none => t.lookup k := by
  induction l generalizing t with
  | nil => simp
  | cons e l ih =>
    obtain ⟨a, v⟩ := e
    rw [List.nodupKeys_cons] at hl
    rw [List.foldl_cons, ih hl.2, Table.lookup_insert_eq]
    by_cases ha : k = a
    · subst ha
      have hnone : l.dlookup k = none := List.dlookup_eq_none.2 hl.1
      simp [hnone]
    · rw [List.dlookup_cons_ne _ _ ha]
      cases l.dlookup k <;> simp [ha]

def applyTo (o : Overlay K V) (t : Table K V) : Table K V :=
  o.applyRecords (fun t k => t.erase k) (fun t k v => t.insert k v) t

theorem lookup_applyTo (o : Overlay K V) (t : Table K V) (k : K) :
    (o.applyTo t).lookup k = o.read k (t.lookup k) := by
  rw [applyTo, applyRecords, lookup_foldl_insert _ o.stored.nodupKeys, lookup_foldl_erase]
  rfl

/-! ## A larger store and its parts -/

/-- A part of a store: how to read it and how to replace it. -/
structure Part (D G : Type) where
  get : D → G
  set : D → G → D
  set_get : ∀ d, set d (get d) = d
  get_set : ∀ d g, get (set d g) = g
  set_set : ∀ d g g', set (set d g) g' = set d g'

namespace Part

variable {D G : Type} {part : Part D G} {f f' : D → D}

/-- The step reads and writes this part of the store only. -/
def Local (part : Part D G) (f : D → D) : Prop :=
  ∀ d x, part.get x = part.get d → f x = part.set x (part.get (f d))

theorem Local.of_rest (e : D)
    (h : ∀ d, f d = part.set d (part.get (f (part.set e (part.get d))))) : part.Local f := by
  intro d x hx
  rw [h x, hx, h d, part.get_set]

theorem Local.id : part.Local fun d => d := by
  intro d x hx
  rw [← hx, part.set_get]

theorem Local.comp (hf : part.Local f) (hf' : part.Local f') : part.Local fun d => f' (f d) := by
  intro d x hx
  have hget : part.get (f x) = part.get (f d) := by rw [hf d x hx, part.get_set]
  show f' (f x) = _
  rw [hf' (f d) (f x) hget, hf d x hx, part.set_set]

theorem Local.foldl {A : Type} {step : D → A → D} (h : ∀ a, part.Local fun d => step d a)
    (l : List A) : part.Local fun d => l.foldl step d := by
  induction l with
  | nil => exact Local.id
  | cons a l ih => exact (h a).comp ih

end Part

omit [DecidableEq K] in
theorem applyRecords_local {D G : Type} {part : Part D G} {remove : D → K → D}
    {store : D → K → V → D} (hremove : ∀ k, part.Local fun d => remove d k)
    (hstore : ∀ k v, part.Local fun d => store d k v) (o : Overlay K V) :
    part.Local (o.applyRecords remove store) :=
  (Part.Local.foldl hremove o.removed).comp
    (Part.Local.foldl (fun e : Sigma fun _ : K => V => hstore e.1 e.2) o.stored.entries)

theorem applyRecords_proj_of {D E : Type} {remove : D → K → D} {store : D → K → V → D} (π : D → E)
    {remove' : E → K → E} {store' : E → K → V → E} (o : Overlay K V)
    (hremove : ∀ d k, π (remove d k) = remove' (π d) k)
    (hstore : ∀ d k v, o.stored.lookup k = some v → π (store d k v) = store' (π d) k v) (d : D) :
    π (o.applyRecords remove store d) = o.applyRecords remove' store' (π d) := by
  have hremoved : ∀ (l : List K) d, π (l.foldl remove d) = l.foldl remove' (π d) := by
    intro l
    induction l with
    | nil => exact fun _ => rfl
    | cons k l ih => exact fun d => by rw [List.foldl_cons, ih, hremove, List.foldl_cons]
  have hstored : ∀ l : List (Sigma fun _ : K => V),
      (∀ e ∈ l, o.stored.lookup e.1 = some e.2) → ∀ d,
      π (l.foldl (fun d e => store d e.1 e.2) d) =
        l.foldl (fun d e => store' d e.1 e.2) (π d) := by
    intro l
    induction l with
    | nil => exact fun _ _ => rfl
    | cons e l ih =>
      intro hl d
      rw [List.foldl_cons, ih fun e he => hl e (List.mem_cons_of_mem _ he),
        hstore d e.1 e.2 (hl e List.mem_cons_self), List.foldl_cons]
  rw [applyRecords, hstored _ fun e he => AList.mem_lookup_iff.2 he, hremoved, applyRecords]

theorem applyRecords_proj {D E : Type} {remove : D → K → D} {store : D → K → V → D} (π : D → E)
    {remove' : E → K → E} {store' : E → K → V → E}
    (hremove : ∀ d k, π (remove d k) = remove' (π d) k)
    (hstore : ∀ d k v, π (store d k v) = store' (π d) k v) (o : Overlay K V) (d : D) :
    π (o.applyRecords remove store d) = o.applyRecords remove' store' (π d) :=
  o.applyRecords_proj_of π hremove (fun d k v _ => hstore d k v) d

/-! ## Undo -/

theorem read_foldl_restore (prev : K → Option V) (l : List K) (u : Overlay K V) (k : K)
    (below : Option V) :
    (l.foldl (fun u k => match prev k with
      | some v => u.insert k v
      | none => u) u).read k below =
    if k ∈ l ∧ (prev k).isSome then prev k else u.read k below := by
  induction l generalizing u with
  | nil => simp
  | cons a l ih =>
    rw [List.foldl_cons, ih]
    by_cases hk : k = a
    · subst hk
      cases hp : prev k <;> simp [read_insert]
    · cases hp : prev a <;> simp [read_insert, hk]

theorem read_foldl_takeBack (prev : K → Option V) (l : List (Sigma fun _ : K => V))
    (u : Overlay K V) (k : K) (below : Option V) :
    (l.foldl (fun u e => match prev e.1 with
      | some v => u.insert e.1 v
      | none => u.erase e.1) u).read k below =
    if k ∈ l.keys then prev k else u.read k below := by
  induction l generalizing u with
  | nil => simp
  | cons e l ih =>
    rw [List.foldl_cons, ih, List.keys_cons]
    by_cases hk : k = e.1
    · subst hk
      cases hp : prev e.1 <;> simp [read_insert, read_erase]
    · cases hp : prev e.1 <;> simp [read_insert, read_erase, hk]

theorem read_populateUndo (o : Overlay K V) (prev : K → Option V) (k : K) :
    (o.populateUndo prev insert erase empty).read k (o.read k (prev k)) = prev k := by
  unfold populateUndo
  rw [read_foldl_takeBack, read_foldl_restore]
  by_cases hstored : k ∈ o.stored.entries.keys
  · rw [if_pos hstored]
  · have hnone : o.stored.lookup k = none := AList.lookup_eq_none.2 hstored
    rw [if_neg hstored, read_empty, read, hnone]
    by_cases hremoved : k ∈ o.removed <;> cases hp : prev k <;> simp [hremoved]

theorem populateUndo_sound (o : Overlay K V) (prev : K → Option V) :
    (∀ k v, (o.populateUndo prev insert erase empty).stored.lookup k = some v → prev k = some v) ∧
      ∀ k ∈ (o.populateUndo prev insert erase empty).removed, prev k = none := by
  let Sound (u : Overlay K V) : Prop :=
    (∀ k v, u.stored.lookup k = some v → prev k = some v) ∧ ∀ k ∈ u.removed, prev k = none
  have hinsert : ∀ u k v, Sound u → prev k = some v → Sound (u.insert k v) := by
    refine fun u k v hu hk => ⟨fun k' v' h => ?_, fun k' h => ?_⟩
    · by_cases hkk : k' = k
      · subst hkk
        rw [insert, AList.lookup_insert] at h
        rw [hk, h]
      · rw [insert, AList.lookup_insert_ne hkk] at h
        exact hu.1 k' v' h
    · exact hu.2 k' (List.mem_of_mem_filter h)
  have herase : ∀ u k, Sound u → prev k = none → Sound (u.erase k) := by
    refine fun u k hu hk => ⟨fun k' v' h => ?_, fun k' h => ?_⟩
    · by_cases hkk : k' = k
      · subst hkk
        simp [erase] at h
      · rw [erase, AList.lookup_erase_ne hkk] at h
        exact hu.1 k' v' h
    · rcases List.mem_insert_iff.1 h with rfl | h
      · exact hk
      · exact hu.2 k' h
  have hrestore : ∀ (l : List K) u, Sound u → Sound (l.foldl (fun u k => match prev k with
      | some v => u.insert k v
      | none => u) u) := by
    intro l
    induction l with
    | nil => exact fun _ h => h
    | cons a l ih =>
      intro u hu
      rw [List.foldl_cons]
      cases ha : prev a with
      | none => exact ih u hu
      | some v => exact ih _ (hinsert u a v hu ha)
  have htakeBack : ∀ (l : List (Sigma fun _ : K => V)) u, Sound u →
      Sound (l.foldl (fun u e => match prev e.1 with
        | some v => u.insert e.1 v
        | none => u.erase e.1) u) := by
    intro l
    induction l with
    | nil => exact fun _ h => h
    | cons e l ih =>
      intro u hu
      rw [List.foldl_cons]
      cases he : prev e.1 with
      | none => exact ih _ (herase u e.1 hu he)
      | some v => exact ih _ (hinsert u e.1 v hu he)
  exact htakeBack _ _ (hrestore _ _ ⟨fun _ _ h => by simp [empty] at h, fun _ h => by cases h⟩)

/-! ## Tables without removed keys

Some tables have no set of removed keys in a batch: a null record stands for an erasure, and only
acts as one when the batch is applied. -/

def putAt (isNull : V → Bool) (t : Table K V) (k : K) (v : V) : Table K V :=
  if isNull v then t.erase k else t.insert k v

def putTo (isNull : V → Bool) (o : Overlay K V) (t : Table K V) : Table K V :=
  o.stored.entries.foldl (fun t e => putAt isNull t e.1 e.2) t

theorem lookup_putAt (isNull : V → Bool) (t : Table K V) (k k' : K) (v : V) :
    (putAt isNull t k v).lookup k' =
      if k' = k then (if isNull v then none else some v) else t.lookup k' := by
  unfold putAt
  split
  · rw [Table.lookup_erase_eq]
  · rw [Table.lookup_insert_eq]

theorem lookup_foldl_putAt (isNull : V → Bool) (l : List (Sigma fun _ : K => V))
    (hl : l.NodupKeys) (t : Table K V) (k : K) :
    (l.foldl (fun t e => putAt isNull t e.1 e.2) t).lookup k =
      match l.dlookup k with
      | some v => if isNull v then none else some v
      | none => t.lookup k := by
  induction l generalizing t with
  | nil => simp
  | cons e l ih =>
    obtain ⟨a, v⟩ := e
    rw [List.nodupKeys_cons] at hl
    rw [List.foldl_cons, ih hl.2, lookup_putAt]
    by_cases ha : k = a
    · subst ha
      have hnone : l.dlookup k = none := List.dlookup_eq_none.2 hl.1
      simp [hnone]
    · rw [List.dlookup_cons_ne _ _ ha]
      cases l.dlookup k <;> simp [ha]

theorem lookup_putTo (isNull : V → Bool) (o : Overlay K V) (t : Table K V) (k : K) :
    (o.putTo isNull t).lookup k = match o.stored.lookup k with
      | some v => if isNull v then none else some v
      | none => t.lookup k :=
  lookup_foldl_putAt isNull _ o.stored.nodupKeys t k

end Overlay

structure Layered (K V : Type) where
  prev : Table K V
  overlay : Overlay K V

def Layered.over {K V : Type} [DecidableEq K] (t : Table K V) : Layered K V := ⟨t, .empty⟩

namespace Layered

variable {K V : Type} [DecidableEq K]

def lookup (l : Layered K V) (k : K) : Option V := l.overlay.read k (l.prev.lookup k)

def insert (l : Layered K V) (k : K) (v : V) : Layered K V :=
  { l with overlay := l.overlay.insert k v }

def view (l : Layered K V) : Table K V := l.overlay.applyTo l.prev

theorem lookup_eq (l : Layered K V) (k : K) : l.lookup k = l.view.lookup k :=
  (Overlay.lookup_applyTo l.overlay l.prev k).symm

theorem lookup_of_stored {l : Layered K V} {k : K} {v : V}
    (h : l.overlay.stored.lookup k = some v) : l.lookup k = some v := by
  rw [lookup, Overlay.read, h]

@[simp] theorem view_over (t : Table K V) : (Layered.over t).view = t :=
  Finmap.ext_lookup fun k => by rw [← lookup_eq, lookup, Layered.over, Overlay.read_empty]

@[simp] theorem view_insert (l : Layered K V) (k : K) (v : V) :
    (l.insert k v).view = l.view.insert k v :=
  Finmap.ext_lookup fun k' => by
    rw [Table.lookup_insert_eq, ← lookup_eq, ← lookup_eq]
    exact Overlay.read_insert _ _ _ _ _

/-- The batch that takes the writes back.  A record that is new in the overlay is there to be
removed in the undo state, which lies over it. -/
def undo (l : Layered K V) : Overlay K V :=
  l.overlay.populateUndo l.prev.lookup Overlay.insert Overlay.erase .empty

theorem undo_stored {l : Layered K V} {k : K} {v : V} (h : l.undo.stored.lookup k = some v) :
    l.prev.lookup k = some v :=
  (l.overlay.populateUndo_sound l.prev.lookup).1 k v h

/-- The batch that takes the writes back where there are no removed keys: for every key written,
the record below or a null record. -/
def undoEntries (null : K → V → V) (l : Layered K V) : Overlay K V :=
  l.overlay.stored.entries.foldl
    (fun o e => o.insert e.1 ((l.prev.lookup e.1).getD (null e.1 e.2))) .empty

theorem lookup_undoEntries (null : K → V → V) (l : Layered K V) (k : K) :
    (l.undoEntries null).stored.lookup k =
      (l.overlay.stored.lookup k).map fun v => (l.prev.lookup k).getD (null k v) := by
  have hfold : ∀ (es : List (Sigma fun _ : K => V)), es.NodupKeys → ∀ o : Overlay K V,
      (es.foldl (fun o e => o.insert e.1 ((l.prev.lookup e.1).getD (null e.1 e.2)))
        o).stored.lookup k =
      match es.dlookup k with
      | some v => some ((l.prev.lookup k).getD (null k v))
      | none => o.stored.lookup k := by
    intro es
    induction es with
    | nil => exact fun _ _ => rfl
    | cons e es ih =>
      intro hes o
      obtain ⟨a, v⟩ := e
      rw [List.nodupKeys_cons] at hes
      rw [List.foldl_cons, ih hes.2]
      by_cases ha : k = a
      · subst ha
        have hnone : es.dlookup k = none := List.dlookup_eq_none.2 hes.1
        simp [hnone, Overlay.insert]
      · rw [List.dlookup_cons_ne _ _ ha]
        cases es.dlookup k <;> simp [Overlay.insert, AList.lookup_insert_ne ha]
  rw [undoEntries, hfold _ l.overlay.stored.nodupKeys]
  change _ = (l.overlay.stored.entries.dlookup k).map _
  cases l.overlay.stored.entries.dlookup k <;> simp [Overlay.empty]

/-- **Undo without removed keys**, if no null record is ever in the table itself. -/
theorem undoEntries_putTo {isNull : V → Bool} {null : K → V → V} (l : Layered K V)
    (hnull : ∀ k v, isNull (null k v) = true)
    (hprev : l.prev.All fun _ v => isNull v = false) :
    (l.undoEntries null).putTo isNull (l.overlay.putTo isNull l.prev) = l.prev := by
  refine Finmap.ext_lookup fun k => ?_
  rw [Overlay.lookup_putTo, Overlay.lookup_putTo, lookup_undoEntries]
  cases hs : l.overlay.stored.lookup k with
  | none => rfl
  | some v =>
    cases hp : l.prev.lookup k with
    | none => simp [hnull]
    | some r => simp [hprev k r hp]

theorem undo_applyTo (l : Layered K V) : l.undo.applyTo l.view = l.prev :=
  Finmap.ext_lookup fun k => by
    rw [Overlay.lookup_applyTo, ← lookup_eq]
    exact Overlay.read_populateUndo _ _ _

end Layered

end BitShares
