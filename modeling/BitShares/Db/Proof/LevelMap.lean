import Mathlib.Data.List.TakeWhile
import BitShares.Db.LevelMap

/-!
# Cached tables show a plain map

`PlainStore` is what the tables are for: one ordered map for each directory, and one of them open.
`CachedLevelMap.Refines` and `FastLevelMap.Refines` tie a table to it; `step_refines` of each kind
keeps them, given that entries are stored and removed only while the table is open.

* `cached_tables_show_plain_maps`: what a caller sees.
* `cached_tables_forget_early_store`: an entry stored before the table is opened.
-/

namespace BitShares

variable {Dir K V : Type} [DecidableEq Dir] [LinearOrder K]

/-! ## The plain maps -/

structure PlainStore (Dir K V : Type) [LinearOrder K] where
  maps : Dir → Option (OrdMap K V)
  current : Option Dir := none

inductive PlainCall (Dir K V : Type) where
  | openDir (dir : Dir) (create : Bool)
  | store (key : K) (value : V)
  | remove (key : K)
  | close
  | keep

namespace PlainStore

def contents (p : PlainStore Dir K V) : OrdMap K V := (p.current.bind p.maps).getD ∅

def change (p : PlainStore Dir K V) (f : OrdMap K V → OrdMap K V) : PlainStore Dir K V :=
  match p.current with
  | none => p
  | some dir => { p with maps := Function.update p.maps dir (some (f p.contents)) }

def step (p : PlainStore Dir K V) : PlainCall Dir K V → PlainStore Dir K V
  | .openDir dir create =>
    if p.current.isSome then p
    else if (p.maps dir).isSome then { p with current := some dir }
    else if create then { maps := Function.update p.maps dir (some ∅), current := some dir }
    else p
  | .store key value => p.change (·.set key value)
  | .remove key => p.change (·.erase key)
  | .close => { p with current := none }
  | .keep => p

theorem change_opened {maps : Dir → Option (OrdMap K V)} {d : Dir} {m : OrdMap K V}
    (h : maps d = some m) (f : OrdMap K V → OrdMap K V) :
    change ⟨maps, some d⟩ f = ⟨Function.update maps d (some (f m)), some d⟩ := by
  simp [change, contents, h]

def run (p : PlainStore Dir K V) (calls : List (PlainCall Dir K V)) : PlainStore Dir K V :=
  calls.foldl step p

end PlainStore

def CachedCall.plain : CachedCall Dir K V → PlainCall Dir K V
  | .openDir dir create _ => .openDir dir create
  | .store key value => .store key value
  | .remove key => .remove key
  | .flush | .setWriteThrough _ => .keep
  | .close => .close

def FastCall.plain : FastCall Dir K V → PlainCall Dir K V
  | .openDir path => .openDir path true
  | .store key value => .store key value
  | .remove key => .remove key
  | .toggleLeveldb _ => .keep
  | .close => .close

def PlainCall.writes : PlainCall Dir K V → Bool
  | .store .. | .remove _ => true
  | _ => false

section Opening

variable {files : Dir → Option (OrdMap K V)} {d : Dir} {m : OrdMap K V}

omit [DecidableEq Dir] in
theorem LevelMap.contents_opened (h : files d = some m) : contents ⟨files, some d⟩ = m := by
  simp [contents, h]

theorem LevelMap.write_opened (h : files d = some m) (f : OrdMap K V → OrdMap K V) :
    write ⟨files, some d⟩ f = .ok ⟨Function.update files d (some (f m)), some d⟩ := by
  simp only [write, contents_opened h]

theorem LevelMap.store_opened (h : files d = some m) (key : K) (value : V) :
    store ⟨files, some d⟩ key value =
      .ok ⟨Function.update files d (some (m.set key value)), some d⟩ :=
  write_opened h _

theorem LevelMap.remove_opened (h : files d = some m) (key : K) :
    remove ⟨files, some d⟩ key = .ok ⟨Function.update files d (some (m.erase key)), some d⟩ :=
  write_opened h _

theorem LevelMap.openDir_existing (h : files d = some m) (create : Bool) :
    openDir ⟨files, none⟩ d create = .ok ⟨files, some d⟩ := by
  simp [openDir, isOpen, h]

theorem LevelMap.openDir_new (h : files d = none) :
    openDir ⟨files, none⟩ d true = .ok ⟨Function.update files d (some ∅), some d⟩ := by
  simp [openDir, isOpen, h]

theorem PlainStore.step_openDir_existing (h : files d = some m) (create : Bool) :
    step ⟨files, none⟩ (.openDir d create) = ⟨files, some d⟩ := by
  simp [step, h]

theorem PlainStore.step_openDir_new (h : files d = none) :
    step ⟨files, none⟩ (.openDir d true) = ⟨Function.update files d (some ∅), some d⟩ := by
  simp [step, h]

end Opening

/-! ## Batches -/

theorem find_batchStore (cache : OrdMap K V) (keys : List K) (m : OrdMap K V) (k : K) :
    (batchStore cache keys m).find k =
      if k ∈ keys then (cache.find k).or (m.find k) else m.find k := by
  induction keys generalizing m with
  | nil => simp [batchStore]
  | cons key keys ih =>
    rw [batchStore, List.foldl_cons, ← batchStore, ih]
    cases hkey : cache.find key with
    | none => by_cases hk : k = key <;> simp [hk, hkey]
    | some value => by_cases hk : k = key <;> simp [hk, hkey, OrdMap.find_set]

theorem find_batchRemove (keys : List K) (m : OrdMap K V) (k : K) :
    (batchRemove keys m).find k = if k ∈ keys then none else m.find k := by
  induction keys generalizing m with
  | nil => simp [batchRemove]
  | cons key keys ih =>
    rw [batchRemove, List.foldl_cons, ← batchRemove, ih, OrdMap.find_erase]
    by_cases hk : k = key <;> simp [hk]

theorem batchStore_entries (cache : OrdMap K V) :
    batchStore cache (cache.entries.map (·.1)) ∅ = cache := by
  refine OrdMap.ext_find fun k => ?_
  rw [find_batchStore, OrdMap.find_empty, Option.or_none]
  split_ifs with hk
  · rfl
  · refine (Option.eq_none_iff_forall_not_mem.2 fun v hv => hk ?_).symm
    exact List.mem_map.2 ⟨(k, v), cache.mem_entries_iff.2 hv, rfl⟩

/-! ## `cached_level_map` -/

namespace CachedLevelMap

def initial (files : Dir → Option (OrdMap K V)) : CachedLevelMap Dir K V := { db := { files } }

def run (s : CachedLevelMap Dir K V) (calls : List (CachedCall Dir K V)) : CachedLevelMap Dir K V :=
  calls.foldl (fun s c => (s.step c).2) s

def WritesWhileOpen (s : CachedLevelMap Dir K V) : List (CachedCall Dir K V) → Prop
  | [] => True
  | c :: calls => (c.plain.writes → s.db.isOpen) ∧ WritesWhileOpen (s.step c).2 calls

/-- What a caller sees is `m`. -/
structure Shows (s : CachedLevelMap Dir K V) (m : OrdMap K V) : Prop where
  fetchOptional : ∀ key, s.fetchOptional key = m.find key
  fetch : ∀ key value, s.fetch key = .ok value ↔ m.find key = some value
  begin : s.begin = m.first
  last : s.last = m.last
  find : ∀ key, s.find key = m.iteratorAt key
  lowerBound : ∀ key, s.lowerBound key = m.lowerBound key

omit [DecidableEq Dir] in
theorem shows_cache (s : CachedLevelMap Dir K V) : s.Shows s.cache where
  fetchOptional _ := rfl
  fetch key value := by
    unfold CachedLevelMap.fetch
    cases s.cache.find key <;> simp
  begin := rfl
  last := rfl
  find _ := rfl
  lowerBound _ := rfl

end CachedLevelMap

/-- The database has the entries of the cache, but for those that are still to be written. -/
structure Pending (cache : OrdMap K V) (dirtyStore dirtyRemove : OrdSet K) (disk : OrdMap K V) :
    Prop where
  stored : ∀ k, dirtyStore.mem k = true → (cache.find k).isSome
  removed : ∀ k, dirtyRemove.mem k = true → cache.find k = none
  clean : ∀ k, ¬ dirtyStore.mem k = true → ¬ dirtyRemove.mem k = true → disk.find k = cache.find k

namespace Pending

variable {cache disk : OrdMap K V} {dirtyStore dirtyRemove : OrdSet K}

theorem refl (cache : OrdMap K V) : Pending cache ∅ ∅ cache :=
  ⟨by simp [OrdSet.mem], by simp [OrdSet.mem], fun _ _ _ => rfl⟩

theorem eq (h : Pending cache ∅ ∅ disk) : disk = cache :=
  OrdMap.ext_find fun k => h.clean k (by simp [OrdSet.mem]) (by simp [OrdSet.mem])

theorem flushed (h : Pending cache dirtyStore dirtyRemove disk) :
    batchRemove dirtyRemove.toList (batchStore cache dirtyStore.toList disk) = cache := by
  refine OrdMap.ext_find fun k => ?_
  simp only [find_batchRemove, find_batchStore, OrdSet.mem_toList]
  split_ifs with hremove hstore
  · exact (h.removed k hremove).symm
  · obtain ⟨v, hv⟩ := Option.isSome_iff_exists.1 (h.stored k hstore)
    rw [hv, Option.some_or]
  · exact h.clean k hstore hremove

theorem store (h : Pending cache dirtyStore dirtyRemove disk) (key : K) (value : V) :
    Pending (cache.set key value) (dirtyStore.insert key) (OrdSet.erase dirtyRemove key) disk where
  stored k hk := by
    rw [OrdMap.find_set]
    split_ifs with heq
    · rfl
    · rw [OrdSet.mem_insert] at hk
      exact h.stored k (hk.resolve_left heq)
  removed k hk := by
    obtain ⟨hne, hmem⟩ := OrdSet.mem_erase.1 hk
    rw [OrdMap.find_set, if_neg hne]
    exact h.removed k hmem
  clean k hs hr := by
    rw [OrdSet.mem_insert, not_or] at hs
    rw [OrdMap.find_set, if_neg hs.1]
    exact h.clean k hs.2 fun hmem => hr (OrdSet.mem_erase.2 ⟨hs.1, hmem⟩)

theorem remove (h : Pending cache dirtyStore dirtyRemove disk) (key : K) :
    Pending (cache.erase key) (OrdSet.erase dirtyStore key) (dirtyRemove.insert key) disk where
  stored k hk := by
    obtain ⟨hne, hmem⟩ := OrdSet.mem_erase.1 hk
    rw [OrdMap.find_erase, if_neg hne]
    exact h.stored k hmem
  removed k hk := by
    rw [OrdMap.find_erase]
    split_ifs with heq
    · rfl
    · rw [OrdSet.mem_insert] at hk
      exact h.removed k (hk.resolve_left heq)
  clean k hs hr := by
    rw [OrdSet.mem_insert, not_or] at hr
    rw [OrdMap.find_erase, if_neg hr.1]
    exact h.clean k (fun hmem => hs (OrdSet.mem_erase.2 ⟨hr.1, hmem⟩)) hr.2

end Pending

namespace CachedLevelMap

/-- The table stands for `p`. -/
inductive Refines : CachedLevelMap Dir K V → PlainStore Dir K V → Prop
  | closed (files : Dir → Option (OrdMap K V)) (writeThrough : Bool) :
    Refines { db := { files }, writeThrough } { maps := files }
  | opened {files maps : Dir → Option (OrdMap K V)} {d : Dir} {cache disk : OrdMap K V}
    {dirtyStore dirtyRemove : OrdSet K} {writeThrough : Bool}
    (hmap : maps d = some cache) (hfile : files d = some disk)
    (hothers : ∀ d', d' ≠ d → files d' = maps d')
    (hpending : Pending cache dirtyStore dirtyRemove disk)
    (hthrough : writeThrough = true → dirtyStore = ∅ ∧ dirtyRemove = ∅) :
    Refines ⟨⟨files, some d⟩, cache, dirtyStore, dirtyRemove, writeThrough⟩ ⟨maps, some d⟩

omit [DecidableEq Dir] in
theorem Refines.cache_eq {s : CachedLevelMap Dir K V} {p : PlainStore Dir K V} (h : s.Refines p) :
    s.cache = p.contents := by
  cases h with
  | closed => rfl
  | opened hmap => simp [PlainStore.contents, hmap]

omit [DecidableEq Dir] in
theorem Refines.dir_eq {s : CachedLevelMap Dir K V} {p : PlainStore Dir K V} (h : s.Refines p) :
    s.db.dir = p.current := by
  cases h <;> rfl

section Opened

variable {files maps : Dir → Option (OrdMap K V)} {d : Dir} {cache disk : OrdMap K V}
  {dirtyStore dirtyRemove : OrdSet K} {writeThrough : Bool}

theorem Refines.write (f : OrdMap K V → OrdMap K V) (hmap : maps d = some cache)
    (hothers : ∀ d', d' ≠ d → files d' = maps d')
    (hpending : Pending (f cache) dirtyStore dirtyRemove disk)
    (hthrough : writeThrough = true → dirtyStore = ∅ ∧ dirtyRemove = ∅) :
    Refines ⟨⟨Function.update files d (some disk), some d⟩, f cache, dirtyStore, dirtyRemove,
      writeThrough⟩ (PlainStore.change ⟨maps, some d⟩ f) := by
  rw [PlainStore.change_opened hmap]
  refine .opened (by simp) (by simp) (fun d' hne => ?_) hpending hthrough
  simp [hne, hothers d' hne]

theorem flush_opened (hfile : files d = some disk)
    (hpending : Pending cache dirtyStore dirtyRemove disk) :
    flush ⟨⟨files, some d⟩, cache, dirtyStore, dirtyRemove, writeThrough⟩ =
      (.ok (), ⟨⟨Function.update files d (some cache), some d⟩, cache, ∅, ∅, writeThrough⟩) := by
  have hkeys : (dirtyStore.toList.takeWhile fun k => (cache.find k).isSome) = dirtyStore.toList :=
    List.takeWhile_eq_self_iff.2 fun k hk => hpending.stored k (OrdSet.mem_toList.1 hk)
  simp only [flush, hkeys, if_true, LevelMap.write_opened hfile, hpending.flushed]

theorem Refines.flushed (writeThrough : Bool) (hmap : maps d = some cache)
    (hothers : ∀ d', d' ≠ d → files d' = maps d') :
    Refines ⟨⟨Function.update files d (some cache), some d⟩, cache, ∅, ∅, writeThrough⟩
      ⟨maps, some d⟩ := by
  refine .opened hmap (by simp) (fun d' hne => ?_) (.refl cache) fun _ => ⟨rfl, rfl⟩
  simp [hne, hothers d' hne]

theorem close_opened (hmap : maps d = some cache) (hfile : files d = some disk)
    (hothers : ∀ d', d' ≠ d → files d' = maps d')
    (hpending : Pending cache dirtyStore dirtyRemove disk) :
    close ⟨⟨files, some d⟩, cache, dirtyStore, dirtyRemove, writeThrough⟩ =
      (.ok (), { db := { files := maps }, writeThrough }) := by
  have hfiles : Function.update files d (some cache) = maps :=
    Function.update_eq_iff.2 ⟨hmap.symm, hothers⟩
  simp only [close, LevelMap.isOpen, Option.isSome_some, if_true, flush_opened hfile hpending,
    hfiles, LevelMap.close]

theorem store_refines (hmap : maps d = some cache) (hfile : files d = some disk)
    (hothers : ∀ d', d' ≠ d → files d' = maps d')
    (hpending : Pending cache dirtyStore dirtyRemove disk)
    (hthrough : writeThrough = true → dirtyStore = ∅ ∧ dirtyRemove = ∅) (key : K) (value : V) :
    (store ⟨⟨files, some d⟩, cache, dirtyStore, dirtyRemove, writeThrough⟩ key value).2.Refines
      (PlainStore.change ⟨maps, some d⟩ (·.set key value)) := by
  cases writeThrough with
  | true =>
    obtain ⟨rfl, rfl⟩ := hthrough rfl
    obtain rfl := hpending.eq
    simp only [store, if_true, LevelMap.store_opened hfile]
    exact .write (·.set key value) hmap hothers (.refl _) hthrough
  | false =>
    have h := Refines.write (·.set key value) hmap hothers (hpending.store key value)
      fun h => absurd h Bool.false_ne_true
    rwa [← hfile, Function.update_eq_self] at h

theorem remove_refines (hmap : maps d = some cache) (hfile : files d = some disk)
    (hothers : ∀ d', d' ≠ d → files d' = maps d')
    (hpending : Pending cache dirtyStore dirtyRemove disk)
    (hthrough : writeThrough = true → dirtyStore = ∅ ∧ dirtyRemove = ∅) (key : K) :
    (remove ⟨⟨files, some d⟩, cache, dirtyStore, dirtyRemove, writeThrough⟩ key).2.Refines
      (PlainStore.change ⟨maps, some d⟩ (·.erase key)) := by
  cases writeThrough with
  | true =>
    obtain ⟨rfl, rfl⟩ := hthrough rfl
    obtain rfl := hpending.eq
    simp only [remove, if_true, LevelMap.remove_opened hfile]
    exact .write (·.erase key) hmap hothers (.refl _) hthrough
  | false =>
    have h := Refines.write (·.erase key) hmap hothers (hpending.remove key)
      fun h => absurd h Bool.false_ne_true
    rwa [← hfile, Function.update_eq_self] at h

end Opened

theorem openDir_refines (files : Dir → Option (OrdMap K V)) (before : Bool) (d : Dir)
    (create writeThrough : Bool) :
    (openDir { db := { files }, writeThrough := before } d create writeThrough).2.Refines
      (PlainStore.step { maps := files } (.openDir d create)) := by
  cases hfile : files d with
  | some disk =>
    simp only [openDir, LevelMap.openDir_existing hfile, PlainStore.step_openDir_existing hfile,
      LevelMap.contents_opened hfile, OrdMap.emplaceAll_empty]
    exact .opened hfile hfile (fun _ _ => rfl) (.refl disk) fun _ => ⟨rfl, rfl⟩
  | none =>
    cases create with
    | false =>
      simp only [openDir, LevelMap.openDir, LevelMap.isOpen, PlainStore.step, hfile]
      exact .closed files before
    | true =>
      have hnew : Function.update files d (some ∅) d = some (∅ : OrdMap K V) := by simp
      simp only [openDir, LevelMap.openDir_new hfile, PlainStore.step_openDir_new hfile,
        LevelMap.contents_opened hnew, OrdMap.emplaceAll_empty]
      exact .opened hnew hnew (fun _ _ => rfl) (.refl ∅) fun _ => ⟨rfl, rfl⟩

theorem step_refines {s : CachedLevelMap Dir K V} {p : PlainStore Dir K V} (h : s.Refines p)
    (c : CachedCall Dir K V) (hopen : c.plain.writes → s.db.isOpen) :
    (s.step c).2.Refines (p.step c.plain) := by
  cases h with
  | closed files before =>
    cases c with
    | openDir d create writeThrough => exact openDir_refines files before d create writeThrough
    | store key value => exact absurd (hopen rfl) Bool.false_ne_true
    | remove key => exact absurd (hopen rfl) Bool.false_ne_true
    | flush => exact .closed files before
    | setWriteThrough writeThrough =>
      cases writeThrough <;> cases before <;> exact .closed files _
    | close => exact .closed files before
  | opened hmap hfile hothers hpending hthrough =>
    cases c with
    | openDir d create writeThrough => exact .opened hmap hfile hothers hpending hthrough
    | store key value => exact store_refines hmap hfile hothers hpending hthrough key value
    | remove key => exact remove_refines hmap hfile hothers hpending hthrough key
    | flush =>
      simp only [step, flush_opened hfile hpending]
      exact .flushed _ hmap hothers
    | setWriteThrough writeThrough =>
      simp only [step, setWriteThrough]
      split_ifs with hsame hwrite
      · exact .opened hmap hfile hothers hpending hthrough
      · simp only [flush_opened hfile hpending]
        exact .flushed _ hmap hothers
      · exact .opened hmap hfile hothers hpending fun h => absurd h hwrite
    | close =>
      simp only [step, close_opened hmap hfile hothers hpending]
      exact .closed _ _

theorem run_refines {s : CachedLevelMap Dir K V} {p : PlainStore Dir K V} (h : s.Refines p)
    {calls : List (CachedCall Dir K V)} (hopen : s.WritesWhileOpen calls) :
    (s.run calls).Refines (p.run (calls.map CachedCall.plain)) := by
  induction calls generalizing s p with
  | nil => exact h
  | cons c calls ih => exact ih (step_refines h c hopen.1) hopen.2

theorem Refines.reopened {s : CachedLevelMap Dir K V} {p : PlainStore Dir K V} (h : s.Refines p)
    {d : Dir} (hdir : s.db.dir = some d) (create writeThrough : Bool) :
    ∃ s₁ s₂, s.close = (.ok (), s₁) ∧ s₁.openDir d create writeThrough = (.ok (), s₂) ∧
      s₂.Refines p := by
  cases h with
  | closed => cases hdir
  | opened hmap hfile hothers hpending hthrough =>
    cases hdir
    refine ⟨_, ⟨⟨_, some d⟩, _, ∅, ∅, writeThrough⟩, close_opened hmap hfile hothers hpending, ?_,
      .opened hmap hmap (fun _ _ => rfl) (.refl _) fun _ => ⟨rfl, rfl⟩⟩
    simp only [openDir, LevelMap.openDir_existing hmap, LevelMap.contents_opened hmap,
      OrdMap.emplaceAll_empty]

end CachedLevelMap

/-! ## `fast_level_map` -/

namespace FastLevelMap

def initial (files : Dir → Option (OrdMap K V)) : FastLevelMap Dir K V := { ldb := { files } }

def run (s : FastLevelMap Dir K V) (calls : List (FastCall Dir K V)) : FastLevelMap Dir K V :=
  calls.foldl (fun s c => (s.step c).2) s

def WritesWhileOpen (s : FastLevelMap Dir K V) : List (FastCall Dir K V) → Prop
  | [] => True
  | c :: calls => (c.plain.writes → s.ldbPath.isSome) ∧ WritesWhileOpen (s.step c).2 calls

/-- What a call gives on an open table; a closed one throws. -/
def whenOpen {α : Type} (s : FastLevelMap Dir K V) (a : α) : Except DbError α :=
  if s.ldbPath.isSome then .ok a else .error .notOpen

/-- What a caller sees is `m`, in order only while the files are in use. -/
structure Shows (s : FastLevelMap Dir K V) (m : OrdMap K V) : Prop where
  size : s.size = m.entries.length
  unorderedFind : ∀ key, s.unorderedFind key = m.find key
  unordered : s.unordered = m.entries
  orderedFirst : s.ldbEnabled = true → s.orderedFirst = s.whenOpen m.first
  orderedLast : s.ldbEnabled = true → s.orderedLast = s.whenOpen m.last
  orderedLowerBound : s.ldbEnabled = true → ∀ key,
    s.orderedLowerBound key = s.whenOpen (m.lowerBound key)

/-- The table stands for `p`. -/
inductive Refines : FastLevelMap Dir K V → PlainStore Dir K V → Prop
  | closed (files : Dir → Option (OrdMap K V)) : Refines { ldb := { files } } { maps := files }
  | enabled {maps : Dir → Option (OrdMap K V)} {d : Dir} {cache : OrdMap K V}
    (hmap : maps d = some cache) : Refines ⟨⟨maps, some d⟩, some d, true, cache⟩ ⟨maps, some d⟩
  | disabled {files maps : Dir → Option (OrdMap K V)} {d : Dir} {cache : OrdMap K V}
    (hmap : maps d = some cache) (hfile : files d = none)
    (hothers : ∀ d', d' ≠ d → files d' = maps d') :
    Refines ⟨⟨files, none⟩, some d, false, cache⟩ ⟨maps, some d⟩

omit [DecidableEq Dir] in
theorem Refines.path_eq {s : FastLevelMap Dir K V} {p : PlainStore Dir K V} (h : s.Refines p) :
    s.ldbPath = p.current := by
  cases h <;> rfl

omit [DecidableEq Dir] in
theorem Refines.shows {s : FastLevelMap Dir K V} {p : PlainStore Dir K V} (h : s.Refines p) :
    s.Shows p.contents := by
  have hcache : s.cache = p.contents := by
    cases h with
    | closed => rfl
    | enabled hmap => simp [PlainStore.contents, hmap]
    | disabled hmap => simp [PlainStore.contents, hmap]
  have hldb : s.ldbEnabled = true → ∀ place,
      s.ldb.iterator place = s.whenOpen (place p.contents) := by
    intro henabled place
    cases h with
    | closed => rfl
    | enabled => rfl
    | disabled => cases henabled
  refine ⟨?_, fun key => ?_, ?_, fun h => hldb h _, fun h => hldb h _, fun h key => hldb h _⟩
  · rw [size, hcache]
  · rw [unorderedFind, hcache]
  · rw [unordered, hcache]

section Opened

variable {files maps : Dir → Option (OrdMap K V)} {d : Dir} {cache : OrdMap K V}

theorem toggleLeveldb_on (hmap : maps d = some cache) (hfile : files d = none)
    (hothers : ∀ d', d' ≠ d → files d' = maps d') :
    toggleLeveldb ⟨⟨files, none⟩, some d, false, cache⟩ true =
      (.ok (), ⟨⟨maps, some d⟩, some d, true, cache⟩) := by
  have hnew : Function.update files d (some ∅) d = some (∅ : OrdMap K V) := by simp
  have hfiles : Function.update files d (some cache) = maps :=
    Function.update_eq_iff.2 ⟨hmap.symm, hothers⟩
  simp only [toggleLeveldb, Bool.true_eq_false, if_false, if_true, LevelMap.openDir_new hfile,
    LevelMap.write_opened hnew, batchStore_entries, Function.update_idem, hfiles]

theorem toggleLeveldb_off (hmap : maps d = some cache) :
    (toggleLeveldb ⟨⟨maps, some d⟩, some d, true, cache⟩ false).2.Refines ⟨maps, some d⟩ := by
  refine .disabled hmap (by simp) fun d' hne => ?_
  simp [hne, LevelMap.close]

theorem write_refines (f : OrdMap K V → OrdMap K V) (hmap : maps d = some cache)
    (hfile : files d = none) (hothers : ∀ d', d' ≠ d → files d' = maps d') :
    Refines ⟨⟨files, none⟩, some d, false, f cache⟩ (PlainStore.change ⟨maps, some d⟩ f) := by
  rw [PlainStore.change_opened hmap]
  refine .disabled (by simp) hfile fun d' hne => ?_
  simp [hne, hothers d' hne]

end Opened

theorem openDir_refines (files : Dir → Option (OrdMap K V)) (d : Dir) :
    (openDir { ldb := { files } } d).2.Refines
      (PlainStore.step { maps := files } (.openDir d true)) := by
  cases hfile : files d with
  | some disk =>
    simp only [openDir, Option.isSome_none, Bool.false_eq_true, if_false,
      LevelMap.openDir_existing hfile, PlainStore.step_openDir_existing hfile,
      LevelMap.contents_opened hfile, OrdMap.emplaceAll_empty]
    exact .enabled hfile
  | none =>
    have hnew : Function.update files d (some ∅) d = some (∅ : OrdMap K V) := by simp
    simp only [openDir, Option.isSome_none, Bool.false_eq_true, if_false,
      LevelMap.openDir_new hfile, PlainStore.step_openDir_new hfile,
      LevelMap.contents_opened hnew, OrdMap.emplaceAll_empty]
    exact .enabled hnew

theorem step_refines {s : FastLevelMap Dir K V} {p : PlainStore Dir K V} (h : s.Refines p)
    (c : FastCall Dir K V) (hopen : c.plain.writes → s.ldbPath.isSome) :
    (s.step c).2.Refines (p.step c.plain) := by
  cases h with
  | closed files =>
    cases c with
    | openDir d => exact openDir_refines files d
    | store key value => exact absurd (hopen rfl) Bool.false_ne_true
    | remove key => exact absurd (hopen rfl) Bool.false_ne_true
    | toggleLeveldb enabled => exact .closed files
    | close => exact .closed files
  | enabled hmap =>
    cases c with
    | openDir d => exact .enabled hmap
    | store key value =>
      simp only [step, store, if_true, LevelMap.store_opened hmap, FastCall.plain,
        PlainStore.step, PlainStore.change_opened hmap]
      exact .enabled (by simp)
    | remove key =>
      simp only [step, remove, if_true, LevelMap.remove_opened hmap, FastCall.plain,
        PlainStore.step, PlainStore.change_opened hmap]
      exact .enabled (by simp)
    | toggleLeveldb enabled =>
      cases enabled with
      | true => exact .enabled hmap
      | false => exact toggleLeveldb_off hmap
    | close => exact .closed _
  | disabled hmap hfile hothers =>
    cases c with
    | openDir d => exact .disabled hmap hfile hothers
    | store key value => exact write_refines (·.set key value) hmap hfile hothers
    | remove key => exact write_refines (·.erase key) hmap hfile hothers
    | toggleLeveldb enabled =>
      cases enabled with
      | true =>
        simp only [step, toggleLeveldb_on hmap hfile hothers]
        exact .enabled hmap
      | false => exact .disabled hmap hfile hothers
    | close =>
      simp only [step, close, Option.isSome_some, if_true, Bool.false_eq_true, if_false,
        toggleLeveldb_on hmap hfile hothers]
      exact .closed _

theorem run_refines {s : FastLevelMap Dir K V} {p : PlainStore Dir K V} (h : s.Refines p)
    {calls : List (FastCall Dir K V)} (hopen : s.WritesWhileOpen calls) :
    (s.run calls).Refines (p.run (calls.map FastCall.plain)) := by
  induction calls generalizing s p with
  | nil => exact h
  | cons c calls ih => exact ih (step_refines h c hopen.1) hopen.2

theorem Refines.reopened {s : FastLevelMap Dir K V} {p : PlainStore Dir K V} (h : s.Refines p)
    {d : Dir} (hpath : s.ldbPath = some d) :
    ∃ s₁ s₂, s.close = (.ok (), s₁) ∧ s₁.openDir d = (.ok (), s₂) ∧ s₂.Refines p := by
  have hopen : ∀ {maps : Dir → Option (OrdMap K V)} {cache : OrdMap K V}, maps d = some cache →
      openDir { ldb := { files := maps } } d = (.ok (), ⟨⟨maps, some d⟩, some d, true, cache⟩) := by
    intro maps cache hmap
    simp only [openDir, Option.isSome_none, Bool.false_eq_true, if_false,
      LevelMap.openDir_existing hmap, LevelMap.contents_opened hmap, OrdMap.emplaceAll_empty]
  cases h with
  | closed => cases hpath
  | enabled hmap =>
    cases hpath
    exact ⟨_, _, rfl, hopen hmap, .enabled hmap⟩
  | disabled hmap hfile hothers =>
    cases hpath
    refine ⟨_, _, ?_, hopen hmap, .enabled hmap⟩
    simp only [close, Option.isSome_some, if_true, Bool.false_eq_true, if_false,
      toggleLeveldb_on hmap hfile hothers, LevelMap.close]

end FastLevelMap

/-! ## Main results -/

/-- **A caller of either table sees the plain map** of the same stores and removes, whenever these
are made while the table is open, and sees the same after closing and opening in any mode. -/
theorem cached_tables_show_plain_maps (files : Dir → Option (OrdMap K V)) :
    (∀ calls, (CachedLevelMap.initial files).WritesWhileOpen calls →
      let s := (CachedLevelMap.initial files).run calls
      let p := PlainStore.run { maps := files } (calls.map CachedCall.plain)
      s.db.dir = p.current ∧ s.Shows p.contents ∧
        ∀ d, s.db.dir = some d → ∀ create writeThrough, ∃ s₁ s₂, s.close = (.ok (), s₁) ∧
          s₁.openDir d create writeThrough = (.ok (), s₂) ∧ s₂.Shows p.contents) ∧
    (∀ calls, (FastLevelMap.initial files).WritesWhileOpen calls →
      let s := (FastLevelMap.initial files).run calls
      let p := PlainStore.run { maps := files } (calls.map FastCall.plain)
      s.ldbPath = p.current ∧ s.Shows p.contents ∧
        ∀ d, s.ldbPath = some d → ∃ s₁ s₂, s.close = (.ok (), s₁) ∧
          s₁.openDir d = (.ok (), s₂) ∧ s₂.Shows p.contents) := by
  constructor
  · intro calls hopen
    have h := CachedLevelMap.run_refines (.closed files true) hopen
    refine ⟨h.dir_eq, h.cache_eq ▸ CachedLevelMap.shows_cache _,
      fun d hdir create writeThrough => ?_⟩
    obtain ⟨s₁, s₂, hclose, hopen, h₂⟩ := h.reopened hdir create writeThrough
    exact ⟨s₁, s₂, hclose, hopen, h₂.cache_eq ▸ CachedLevelMap.shows_cache s₂⟩
  · intro calls hopen
    have h := FastLevelMap.run_refines (.closed files) hopen
    refine ⟨h.path_eq, h.shows, fun d hpath => ?_⟩
    obtain ⟨s₁, s₂, hclose, hopen, h₂⟩ := h.reopened hpath
    exact ⟨s₁, s₂, hclose, hopen, h₂.shows⟩

theorem cached_tables_show_plain_maps_delayed :
    ∃ calls : List (CachedCall Unit Nat Nat),
      (CachedLevelMap.initial fun _ => none).WritesWhileOpen calls ∧
      ((CachedLevelMap.initial fun _ => none).run calls).Shows
        (PlainStore.run { maps := fun _ => none } (calls.map CachedCall.plain)).contents ∧
      ((CachedLevelMap.initial fun _ => none).run calls).fetchOptional 1 = some 5 := by
  have hopen : (CachedLevelMap.initial fun _ => none).WritesWhileOpen
      [.openDir () true false, .store 1 5, .close, .openDir () false true] :=
    ⟨nofun, fun _ => rfl, nofun, nofun, trivial⟩
  exact ⟨_, hopen, ((cached_tables_show_plain_maps _).1 _ hopen).2.1, by decide⟩

/-- Storing in a table that is not open throws only after the cache has changed, so the entry is
seen once the table is open, and is gone after closing and opening again.  With writes put off it
does not throw, but leaves a mark that a removal in the other mode turns into a failure to close. -/
theorem cached_tables_forget_early_store :
    let cached : CachedLevelMap Unit Nat Nat := .initial fun _ => none
    let fast : FastLevelMap Unit Nat Nat := .initial fun _ => none
    (cached.store 1 5).1 = .error .notOpen ∧
    (cached.run [.store 1 5, .openDir () true true]).fetchOptional 1 = some 5 ∧
    (cached.run
      [.store 1 5, .openDir () true true, .close, .openDir () true true]).fetchOptional 1 = none ∧
    (fast.store 1 5).1 = .error .notOpen ∧
    (fast.run [.store 1 5, .openDir ()]).unorderedFind 1 = some 5 ∧
    (fast.run [.store 1 5, .openDir (), .close, .openDir ()]).unorderedFind 1 = none ∧
    ((cached.run [.openDir () true false, .close, .store 1 5, .openDir () true true,
      .remove 1]).close).1 = .error .outOfRange := by
  decide

end BitShares
