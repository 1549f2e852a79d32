import BitShares.Chain.Proof.Apply
import BitShares.Chain.Queries
import BitShares.Lib.Indexed

/-!
# The indexes of the database

Names of accounts and games, symbols of assets, times of slots and the addresses of accounts are
kept beside the records by `account_record::store` and its siblings.  Each of these is an index in
the sense of `Lib.Indexed`: `Batch.gameTables_eq` and its siblings say that `apply_changes` treats
it as one, so what is proved there about batches holds of the database.
-/

namespace BitShares

/-! ## Names -/

/-- A record is entered under its name; a write takes the old name out if it is another one. -/
def nameScheme {A R : Type} [DecidableEq A] (name : R → A) : IndexScheme A R where
  entered r := [name r]
  dropped old r := if name old ≠ name r then [name old] else []
  erased old := [name old]

theorem nameScheme_lawful {A R : Type} [DecidableEq A] (name : R → A) :
    (nameScheme name).Lawful fun _ => True where
  dropped old new a _ h := by
    simp only [nameScheme] at h ⊢
    split_ifs at h
    · exact h
    · cases h
  erased _ _ _ := .rfl

abbrev Indexed.Named {R : Type} (name : R → String) (g : Indexed Int String R) : Prop :=
  g.Exact (fun _ => True) (nameScheme name)

def NamedTables.indexed {R : Type} (g : NamedTables R) : Indexed Int String R :=
  ⟨g.records, g.names.lookup⟩

theorem lookup_renamed {A C R : Type} [DecidableEq A] (name : R → A) (old : Option R)
    (names : Table A C) (r : R) (id : C) :
    ((match old with
      | some o => if name o ≠ name r then names.erase (name o) else names
      | none => names).insert (name r) id).lookup =
    updated ((nameScheme name).entered r) ((nameScheme name).replaced old r) id names.lookup := by
  funext a
  rw [Table.lookup_insert_eq, updated]
  by_cases ha : a = name r
  · simp [nameScheme, ha]
  · cases old with
    | none => simp [nameScheme, IndexScheme.replaced, ha]
    | some o =>
      by_cases hname : name o = name r
      · simp [nameScheme, IndexScheme.replaced, ha, hname]
      · simp [nameScheme, IndexScheme.replaced, ha, hname, Table.lookup_erase_eq]

theorem lookup_unnamed {A C R : Type} [DecidableEq A] (name : R → A) (o : R)
    (names : Table A C) (id : C) :
    (names.erase (name o)).lookup = updated [] ((nameScheme name).erased o) id names.lookup := by
  funext a
  rw [Table.lookup_erase_eq, updated]
  simp [nameScheme]

theorem NamedTables.names_eq {R : Type} {name : R → String} {g g' : NamedTables R}
    (h : g.indexed.Named name) (h' : g'.indexed.Named name) (hrecords : g.records = g'.records) :
    g.names = g'.names :=
  Finmap.ext_lookup fun a => congrFun (h.index_eq h' hrecords) a

theorem NamedTables.named_singleton {R : Type} (name : R → String) (id : Int) (r : R) :
    (NamedTables.indexed ⟨Finmap.singleton id r, Finmap.singleton (name r) id⟩).Named name := by
  intro a _ k
  dsimp only [NamedTables.indexed]
  by_cases hk : k = id
  · subst hk
    by_cases ha : a = name r
    · subst ha
      simp [nameScheme]
    · simp [nameScheme, ha, Table.lookup_singleton_of_ne _ ha]
  · by_cases ha : a = name r
    · subst ha
      simp [Table.lookup_singleton_of_ne _ hk, Ne.symm hk]
    · simp [Table.lookup_singleton_of_ne _ hk, Table.lookup_singleton_of_ne _ ha]

theorem Indexed.Named.apply {R : Type} {name : R → String} {g : Indexed Int String R}
    (h : g.Named name) {o : Overlay Int R}
    (hbefore : ∀ k k' new old, o.stored.lookup k = some new → g.records.lookup k' = some old →
      name new = name old → k' = k)
    (hwritten : ∀ k k' new new', o.stored.lookup k = some new → o.stored.lookup k' = some new' →
      name new = name new' → k' = k) :
    (g.apply (nameScheme name) o).Named name := by
  refine Exact.apply (nameScheme_lawful name) h (fun k old new _ _ a _ ha => ?_)
    (fun k k' new old hk hk' _ a _ ha ha' => hbefore k k' new old hk hk' ?_)
    (fun k k' new new' hk hk' a _ ha ha' => hwritten k k' new new' hk hk' ?_)
  · simp only [nameScheme, List.mem_singleton] at ha ⊢
    by_cases hname : name old = name new
    · exact .inl (ha.trans hname)
    · simp [hname, ha]
  · exact (List.mem_singleton.1 ha).symm.trans (List.mem_singleton.1 ha')
  · exact (List.mem_singleton.1 ha).symm.trans (List.mem_singleton.1 ha')

theorem Indexed.Named.apply_same {R : Type} {name : R → String} {g : Indexed Int String R}
    (h : g.Named name) {o : Overlay Int R}
    (hsame : ∀ k v, o.stored.lookup k = some v → g.records.lookup k = some v) :
    (g.apply (nameScheme name) o).Named name := by
  have hunique : ∀ k k' new old, g.records.lookup k = some new → g.records.lookup k' = some old →
      name new = name old → k' = k := by
    intro k k' new old hk hk' hname
    exact Exact.unique h (a := name old) trivial hk' List.mem_cons_self hk
      (hname ▸ List.mem_cons_self)
  exact h.apply (fun k k' new old hk hk' => hunique k k' new old (hsame k new hk) hk')
    (fun k k' new new' hk hk' => hunique k k' new new' (hsame k new hk) (hsame k' new' hk'))

/-! ## The groups of tables as indexes -/

variable [Crypto]

namespace Batch

open ChainTables

omit [Crypto] in
theorem gameTables_eq (c : Batch) (d : ChainTables) :
    (c.gameTables d).indexed = (gamePart.get d).indexed.apply (nameScheme GameRecord.name) c.games := by
  refine c.games.applyRecords_proj (fun d => (gamePart.get d).indexed) (fun d id => ?_)
    (fun d id r => ?_) d
  · unfold removeGame Indexed.remove
    dsimp only [gamePart, NamedTables.indexed]
    cases d.games.lookup id with
    | none => rfl
    | some o => exact Indexed.ext rfl (lookup_unnamed GameRecord.name o d.gameNames id)
  · refine Indexed.ext rfl (Eq.trans ?_ (lookup_renamed GameRecord.name _ d.gameNames r id))
    unfold storeGame
    dsimp only [gamePart, NamedTables.indexed]
    cases d.games.lookup id <;> rfl

end Batch

end BitShares
