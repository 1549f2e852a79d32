import Mathlib
import BitShares.Db.Proof.LevelMap
import BitShares.Net.PeerDatabase

/-!
# The peer database and its file

`PeerDatabase.Sound` says that the set in memory has the entries of the file that is open, each
under its key.  A call keeps it (`step_sound`) unless it adds an endpoint when the largest key and
key 0 are both in use: the new key then wraps around to 0 and takes the place of another record.

* `peer_database_matches_leveldb`: when the set and the file agree; closing and opening then reloads
  the set, or the longest unseen thousand.
* `peer_database_drops_record`: a run that loses a peer, from an empty file.
-/

namespace BitShares

def DistinctEndpoints (m : OrdMap DatabaseKey PotentialPeerRecord) : Prop :=
  ∀ k k' r r', m.find k = some r → m.find k' = some r' → r.endpoint = r'.endpoint → k = k'

def MatchesSet (m : OrdMap DatabaseKey PotentialPeerRecord) (set : PotentialPeerSet) : Prop :=
  ∀ k r, m.find k = some r ↔ ⟨k, r⟩ ∈ set.entries

namespace MatchesSet

variable {m : OrdMap DatabaseKey PotentialPeerRecord} {set : PotentialPeerSet} {k : DatabaseKey}
  {r : PotentialPeerRecord}

theorem empty : MatchesSet ∅ ∅ := fun _ _ => ⟨nofun, nofun⟩

theorem distinctEndpoints (h : MatchesSet m set) : DistinctEndpoints m := by
  intro k k' r r' hr hr' hendpoint
  have heq := set.eq_of_key ((h k r).1 hr) ((h k' r').1 hr') hendpoint
  exact congrArg PotentialPeerDatabaseEntry.databaseKey heq

theorem erase (h : MatchesSet m set) (hmem : ⟨k, r⟩ ∈ set.entries) :
    MatchesSet (m.erase k) (set.erase r.endpoint) := by
  intro k' r'
  rw [OrdMap.find_erase, MultiIndex.mem_erase, ← h k' r']
  by_cases hk : k' = k
  · subst hk
    rw [if_pos rfl, (h k' r).2 hmem]
    simp only [reduceCtorEq, Option.some.injEq, false_iff, not_and]
    rintro rfl hne
    exact hne rfl
  · rw [if_neg hk]
    refine ⟨fun hr => ⟨hr, fun heq => hk ?_⟩, And.left⟩
    exact h.distinctEndpoints k' k r' r hr ((h k r).2 hmem) heq

theorem replace (h : MatchesSet m set) (hmem : ⟨k, r⟩ ∈ set.entries) {r₂ : PotentialPeerRecord}
    (hendpoint : r.endpoint = r₂.endpoint) :
    MatchesSet (m.set k r₂) (set.replace ⟨k, r₂⟩) := by
  intro k' r'
  have hiff := MultiIndex.mem_replace (a := (⟨k, r₂⟩ : PotentialPeerDatabaseEntry))
    (x := ⟨k', r'⟩) hmem hendpoint
  rw [OrdMap.find_set, hiff, ← h k' r']
  by_cases hk : k' = k
  · subst hk
    rw [if_pos rfl, (h k' r).2 hmem]
    constructor
    · rintro ⟨⟩
      exact .inl rfl
    · rintro (heq | ⟨⟨⟩, hne⟩)
      · rw [(PotentialPeerDatabaseEntry.mk.inj heq).2]
      · exact absurd hendpoint hne
  · rw [if_neg hk]
    constructor
    · intro hr
      refine .inr ⟨hr, fun heq => hk ?_⟩
      exact h.distinctEndpoints k' k r' r hr ((h k r).2 hmem) (heq.trans hendpoint.symm)
    · rintro (heq | ⟨hr, _⟩)
      · exact absurd (PotentialPeerDatabaseEntry.mk.inj heq).1 hk
      · exact hr

theorem insert (h : MatchesSet m set) (hnew : set.find r.endpoint = none)
    (hfree : m.find k = none) : MatchesSet (m.set k r) (set.insert ⟨k, r⟩) := by
  intro k' r'
  have hperm := MultiIndex.insert_perm (s := set) (a := ⟨k, r⟩) hnew
  rw [OrdMap.find_set, hperm.mem_iff, List.mem_cons, ← h k' r']
  by_cases hk : k' = k
  · subst hk
    simp [hfree, eq_comm]
  · simp [hk]

theorem free_of_insert (h : MatchesSet m set) (hnew : set.find r.endpoint = none)
    (hafter : MatchesSet (m.set k r) (set.insert ⟨k, r⟩)) : m.find k = none := by
  refine Option.eq_none_iff_forall_not_mem.2 fun r' hr' => ?_
  have hmem : ⟨k, r'⟩ ∈ set.entries := (h k r').1 hr'
  have hmem' : ⟨k, r'⟩ ∈ (set.insert ⟨k, r⟩).entries :=
    (MultiIndex.insert_perm (a := ⟨k, r⟩) hnew).mem_iff.2 (List.mem_cons_of_mem _ hmem)
  have hsame := (hafter k r').2 hmem'
  rw [OrdMap.find_set, if_pos rfl, Option.some.injEq] at hsame
  subst hsame
  exact MultiIndex.find_eq_none.1 hnew _ hmem rfl

theorem perm (h : MatchesSet m set) :
    (m.entries.map fun e => ⟨e.1, e.2⟩).Perm set.entries := by
  have hnodup : (m.entries.map fun e => (⟨e.1, e.2⟩ : PotentialPeerDatabaseEntry)).Nodup := by
    refine List.Nodup.map (fun a b heq => ?_) (m.nodup_keys.of_map _)
    obtain ⟨hkey, hrecord⟩ := PotentialPeerDatabaseEntry.mk.inj heq
    exact Prod.ext hkey hrecord
  refine (List.perm_ext_iff_of_nodup hnodup (set.unique.of_map _)).2 fun e => ?_
  rw [← h e.databaseKey e.peerRecord, ← OrdMap.mem_entries_iff, List.mem_map]
  exact ⟨fun ⟨_, ha, heq⟩ => heq ▸ ha, fun he => ⟨_, he, rfl⟩⟩

theorem of_perm (h : (m.entries.map fun e => ⟨e.1, e.2⟩).Perm set.entries) : MatchesSet m set := by
  intro k r
  rw [← h.mem_iff, ← OrdMap.mem_entries_iff, List.mem_map]
  constructor
  · exact fun hmem => ⟨_, hmem, rfl⟩
  · rintro ⟨e, hmem, heq⟩
    obtain ⟨rfl, rfl⟩ := PotentialPeerDatabaseEntry.mk.inj heq
    exact hmem

theorem load (h : DistinctEndpoints m) : MatchesSet m (PeerDatabase.load m.entries) := by
  have hkeys : ((m.entries.map fun e => (⟨e.1, e.2⟩ : PotentialPeerDatabaseEntry)).map
      PotentialPeerDatabaseEntry.getEndpoint).Nodup := by
    rw [List.map_map]
    refine List.Nodup.map_on (fun a ha b hb heq => ?_) (m.nodup_keys.of_map _)
    have hra := m.mem_entries_iff.1 ha
    have hrb := m.mem_entries_iff.1 hb
    have hkey := h a.1 b.1 a.2 b.2 hra hrb heq
    rw [hkey, hrb, Option.some.injEq] at hra
    exact Prod.ext hkey hra.symm
  have hperm := MultiIndex.insertAll_perm (s := (∅ : PotentialPeerSet)) hkeys fun _ _ => rfl
  rw [show (∅ : PotentialPeerSet).entries = [] from rfl, List.append_nil] at hperm
  exact of_perm hperm.symm

end MatchesSet

namespace PeerDatabase

variable {Dir : Type} [DecidableEq Dir]

/-- The set has the entries of the file that is open, and every file has distinct endpoints. -/
inductive Sound : PeerDatabase Dir → Prop
  | closed {files : Dir → Option (OrdMap DatabaseKey PotentialPeerRecord)}
    (hfiles : ∀ d m, files d = some m → DistinctEndpoints m) : Sound { leveldb := { files } }
  | opened {files : Dir → Option (OrdMap DatabaseKey PotentialPeerRecord)} {d : Dir}
    {m : OrdMap DatabaseKey PotentialPeerRecord} {set : PotentialPeerSet}
    (hfiles : ∀ d m, files d = some m → DistinctEndpoints m) (hfile : files d = some m)
    (hmatch : MatchesSet m set) : Sound ⟨⟨files, some d⟩, set⟩

section Opened

variable {files : Dir → Option (OrdMap DatabaseKey PotentialPeerRecord)} {d : Dir}
  {m : OrdMap DatabaseKey PotentialPeerRecord} {set : PotentialPeerSet}

theorem Sound.write (hfiles : ∀ d m, files d = some m → DistinctEndpoints m)
    (hmatch : MatchesSet m set) :
    Sound ⟨⟨Function.update files d (some m), some d⟩, set⟩ := by
  refine .opened (fun d' m' hm' => ?_) (Function.update_self ..) hmatch
  by_cases hd : d' = d
  · subst hd
    rw [Function.update_self, Option.some.injEq] at hm'
    exact hm' ▸ hmatch.distinctEndpoints
  · rw [Function.update_of_ne hd] at hm'
    exact hfiles d' m' hm'

theorem prune_opened (hfile : files d = some m) (hmatch : MatchesSet m set)
    {kept rest : List PotentialPeerDatabaseEntry} (hset : set.entries = kept ++ rest) :
    ∃ m' set', prune ⟨⟨files, some d⟩, set⟩ rest =
        (.ok (), ⟨⟨Function.update files d (some m'), some d⟩, set'⟩) ∧
      MatchesSet m' set' ∧ set'.entries = kept := by
  induction rest generalizing files m set with
  | nil =>
    refine ⟨m, set, ?_, hmatch, by rw [hset, List.append_nil]⟩
    rw [← hfile, Function.update_eq_self]
    rfl
  | cons e rest ih =>
    have hmem : ⟨e.databaseKey, e.peerRecord⟩ ∈ set.entries := by rw [hset]; simp
    have hremoved : Function.update files d (some (m.erase e.databaseKey)) d =
        some (m.erase e.databaseKey) := Function.update_self ..
    obtain ⟨m', set', hprune, hmatch', hkept⟩ :=
      ih hremoved (hmatch.erase hmem) (MultiIndex.erase_middle hset)
    refine ⟨m', set', ?_, hmatch', hkept⟩
    rw [Function.update_idem] at hprune
    simp only [prune, LevelMap.remove_opened hfile]
    exact hprune

theorem fill_opened (hfile : files d = some m) (hdistinct : DistinctEndpoints m) :
    ∃ m' set', fill ⟨files, some d⟩ =
        (.ok (), ⟨⟨Function.update files d (some m'), some d⟩, set'⟩) ∧
      MatchesSet m' set' ∧ set'.entries = (load m.entries).entries.take maximumPeerdbSize := by
  unfold fill
  simp only [LevelMap.contents_opened hfile]
  split_ifs with hsize
  · exact prune_opened hfile (.load hdistinct) (List.take_append_drop ..).symm
  · refine ⟨m, load m.entries, ?_, .load hdistinct, (List.take_of_length_le (not_lt.1 hsize)).symm⟩
    rw [← hfile, Function.update_eq_self]

theorem clear_opened (hfile : files d = some m) :
    clear ⟨⟨files, some d⟩, set⟩ = (.ok (), ⟨⟨Function.update files d (some ∅), some d⟩, ∅⟩) := by
  have hremove : ∀ (keys : List DatabaseKey) {files : Dir → Option _} {m}, files d = some m →
      keys.foldl (fun (db : LevelMap Dir DatabaseKey PotentialPeerRecord) key =>
          (db.remove key).toOption.getD db) ⟨files, some d⟩ =
        ⟨Function.update files d (some (batchRemove keys m)), some d⟩ := by
    intro keys
    induction keys with
    | nil =>
      intro files m hfile
      simp only [List.foldl_nil, batchRemove, ← hfile, Function.update_eq_self]
    | cons key keys ih =>
      intro files m hfile
      rw [List.foldl_cons, LevelMap.remove_opened hfile]
      refine (ih (Function.update_self ..)).trans ?_
      rw [Function.update_idem]
      rfl
  have hempty : batchRemove (m.entries.map (·.1)) m = ∅ := by
    refine OrdMap.ext_find fun k => ?_
    rw [find_batchRemove, OrdMap.find_empty]
    split_ifs with hk
    · rfl
    · refine Option.eq_none_iff_forall_not_mem.2 fun v hv => hk ?_
      exact List.mem_map.2 ⟨(k, v), m.mem_entries_iff.2 hv, rfl⟩
  simp only [clear, LevelMap.isOpen, Option.isSome_some, if_true, LevelMap.contents_opened hfile,
    hremove _ hfile, hempty]

theorem next_key_free_iff (m : OrdMap DatabaseKey PotentialPeerRecord) (u : DatabaseKey) :
    m.find ((m.entries.getLast?.map (·.1)).getD u + 1) = none ↔
      ¬ ((m.find (Fin.last _)).isSome ∧ (m.find 0).isSome) := by
  cases hlast : m.entries.getLast? with
  | none =>
    have hempty : ∀ k, m.find k = none := by
      intro k
      rw [OrdMap.find, List.getLast?_eq_none_iff.1 hlast]
      rfl
    simp [hempty]
  | some e =>
    obtain ⟨l, hl⟩ : ∃ l, m.entries = l ++ [e] := List.getLast?_eq_some_iff.1 hlast
    have hmem : m.find e.1 = some e.2 := m.mem_entries_iff.1 (by rw [hl]; simp)
    have hle : ∀ k v, m.find k = some v → k ≤ e.1 := by
      intro k v hv
      have hkv := m.mem_entries_iff.2 hv
      have hsorted := m.sorted
      rw [hl, List.pairwise_append] at hsorted
      rw [hl, List.mem_append, List.mem_singleton] at hkv
      rcases hkv with hkv | rfl
      · exact (hsorted.2.2 _ hkv e (List.mem_singleton_self e)).le
      · exact le_rfl
    rw [Option.map_some, Option.getD_some]
    by_cases htop : e.1 = Fin.last _
    · rw [htop, Fin.last_add_one, ← htop, hmem]
      simp
    · have hlt : e.1 < e.1 + 1 := Fin.lt_add_one_iff.2 (Fin.lt_last_iff_ne_last.2 htop)
      have hnone : ∀ k, e.1 < k → m.find k = none := fun k hk =>
        Option.eq_none_iff_forall_not_mem.2 fun v hv => absurd (hle k v hv) (not_le.2 hk)
      rw [hnone _ hlt, hnone _ (Fin.lt_last_iff_ne_last.2 htop)]
      simp

theorem updateEntry_known {e : PotentialPeerDatabaseEntry} {record : PotentialPeerRecord}
    (hfile : files d = some m) (h : set.find record.endpoint = some e) (u : DatabaseKey) :
    updateEntry ⟨⟨files, some d⟩, set⟩ record u =
      (.ok (), ⟨⟨Function.update files d (some (m.set e.databaseKey record)), some d⟩,
        set.replace ⟨e.databaseKey, record⟩⟩) := by
  simp only [updateEntry, h, LevelMap.store_opened hfile]

theorem updateEntry_new {record : PotentialPeerRecord} (hfile : files d = some m)
    (h : set.find record.endpoint = none) (u : DatabaseKey) :
    let key := (m.entries.getLast?.map (·.1)).getD u + 1
    updateEntry ⟨⟨files, some d⟩, set⟩ record u =
      (.ok (), ⟨⟨Function.update files d (some (m.set key record)), some d⟩,
        set.insert ⟨key, record⟩⟩) := by
  simp only [updateEntry, h, LevelMap.lastKey, LevelMap.isOpen, Option.isSome_some, if_true,
    LevelMap.contents_opened hfile, LevelMap.store_opened hfile]

end Opened

/-! ### Runs -/

def initial (files : Dir → Option (OrdMap DatabaseKey PotentialPeerRecord)) : PeerDatabase Dir :=
  { leveldb := { files } }

def run (s : PeerDatabase Dir) (calls : List (PeerDatabaseCall Dir)) : PeerDatabase Dir :=
  calls.foldl (fun s c => (s.step c).2) s

def HasRoom (s : PeerDatabase Dir) : PeerDatabaseCall Dir → Prop
  | .updateEntry record _ => s.potentialPeerSet.find record.endpoint = none →
    ¬ ((s.leveldb.contents.find (Fin.last _)).isSome ∧ (s.leveldb.contents.find 0).isSome)
  | _ => True

def HasRoomFor (s : PeerDatabase Dir) : List (PeerDatabaseCall Dir) → Prop
  | [] => True
  | c :: calls => s.HasRoom c ∧ (s.step c).2.HasRoomFor calls

/-- The set in memory has the records of leveldb under their keys, and none when it is closed. -/
structure Agrees (s : PeerDatabase Dir) : Prop where
  opened : s.leveldb.isOpen = true → s.leveldb.contents.entries.Perm
    (s.potentialPeerSet.entries.map fun e => (e.databaseKey, e.peerRecord))
  closed : s.leveldb.isOpen = false → s.potentialPeerSet.entries = []

omit [DecidableEq Dir] in
theorem agrees_opened {files : Dir → Option (OrdMap DatabaseKey PotentialPeerRecord)} {d : Dir}
    {m : OrdMap DatabaseKey PotentialPeerRecord} {set : PotentialPeerSet}
    (hfile : files d = some m) : Agrees ⟨⟨files, some d⟩, set⟩ ↔ MatchesSet m set := by
  constructor
  · intro h
    have hperm := h.opened rfl
    rw [LevelMap.contents_opened hfile] at hperm
    refine .of_perm ((hperm.map _).trans ?_)
    rw [List.map_map]
    exact .of_eq (List.map_id'' (fun _ => rfl) _)
  · intro h
    refine ⟨fun _ => ?_, nofun⟩
    rw [LevelMap.contents_opened hfile]
    refine .trans (.of_eq ?_) (h.perm.map _)
    rw [List.map_map]
    exact (List.map_id'' (fun _ => rfl) _).symm

omit [DecidableEq Dir] in
theorem Sound.agrees {s : PeerDatabase Dir} (h : s.Sound) : s.Agrees := by
  cases h with
  | closed => exact ⟨nofun, fun _ => rfl⟩
  | opened hfiles hfile hmatch => exact (agrees_opened hfile).2 hmatch

theorem openFile_sound {files : Dir → Option (OrdMap DatabaseKey PotentialPeerRecord)}
    (hfiles : ∀ d m, files d = some m → DistinctEndpoints m) (d : Dir) :
    (openFile { leveldb := { files } } d).2.Sound := by
  cases hfile : files d with
  | some m =>
    obtain ⟨m', set', hfill, hmatch, -⟩ := fill_opened hfile (hfiles d m hfile)
    simp only [openFile, LevelMap.openDir_existing hfile, hfill]
    exact .write hfiles hmatch
  | none =>
    have hnew : Function.update files d (some ∅) d = some ∅ := Function.update_self ..
    obtain ⟨m', set', hfill, hmatch, -⟩ := fill_opened hnew MatchesSet.empty.distinctEndpoints
    simp only [openFile, LevelMap.openDir_new hfile, hfill, Function.update_idem]
    exact .write hfiles hmatch

theorem step_sound {s : PeerDatabase Dir} (h : s.Sound) {c : PeerDatabaseCall Dir}
    (hroom : s.HasRoom c) : (s.step c).2.Sound := by
  cases h with
  | closed hfiles =>
    cases c with
    | openFile d => exact openFile_sound hfiles d
    | updateEntry record u => exact .closed hfiles
    | erase endpoint => exact .closed hfiles
    | clear => exact .closed hfiles
    | close => exact .closed hfiles
  | @opened files d m set hfiles hfile hmatch =>
    cases c with
    | openFile d => exact .opened hfiles hfile hmatch
    | updateEntry record u =>
      cases hfind : set.find record.endpoint with
      | some e =>
        obtain ⟨hmem, hendpoint⟩ := MultiIndex.find_eq_some.1 hfind
        simp only [step, updateEntry_known hfile hfind u]
        exact .write hfiles (hmatch.replace hmem hendpoint)
      | none =>
        have hboth := hroom hfind
        rw [LevelMap.contents_opened hfile, ← next_key_free_iff m u] at hboth
        simp only [step, updateEntry_new hfile hfind u]
        exact .write hfiles (hmatch.insert hfind hboth)
    | erase endpoint =>
      cases hfind : set.find endpoint with
      | none =>
        simp only [step, erase, hfind]
        exact .opened hfiles hfile hmatch
      | some e =>
        obtain ⟨hmem, rfl⟩ := MultiIndex.find_eq_some.1 hfind
        simp only [step, erase, hfind, LevelMap.remove_opened hfile]
        exact .write hfiles (hmatch.erase hmem)
    | clear =>
      simp only [step, clear_opened hfile]
      exact .write hfiles .empty
    | close => exact .closed hfiles

theorem step_clash {s : PeerDatabase Dir} (h : s.Sound) {c : PeerDatabaseCall Dir}
    (hroom : ¬ s.HasRoom c) : ¬ (s.step c).2.Agrees := by
  cases c with
  | updateEntry record u =>
    simp only [HasRoom, Classical.not_imp] at hroom
    obtain ⟨hfind, hboth⟩ := hroom
    cases h with
    | closed hfiles => simp [LevelMap.contents] at hboth
    | opened hfiles hfile hmatch =>
      rw [LevelMap.contents_opened hfile, ← next_key_free_iff _ u] at hboth
      simp only [step, updateEntry_new hfile hfind u]
      rw [agrees_opened (Function.update_self ..)]
      exact fun hafter => hboth (hmatch.free_of_insert hfind hafter)
  | _ => exact absurd trivial hroom

theorem hasRoomFor_iff {s : PeerDatabase Dir} (h : s.Sound) (calls : List (PeerDatabaseCall Dir)) :
    s.HasRoomFor calls ↔ ∀ n, (s.run (calls.take n)).Agrees := by
  induction calls generalizing s with
  | nil => exact ⟨fun _ n => by simpa [run] using h.agrees, fun _ => trivial⟩
  | cons c calls ih =>
    constructor
    · rintro ⟨hroom, hrest⟩ n
      cases n with
      | zero => exact h.agrees
      | succ n => exact (ih (step_sound h hroom)).1 hrest n
    · intro hagrees
      have hroom : s.HasRoom c := by
        by_contra hno
        exact step_clash h hno (by simpa [run] using hagrees 1)
      exact ⟨hroom, (ih (step_sound h hroom)).2 fun n => hagrees (n + 1)⟩

theorem run_sound {s : PeerDatabase Dir} (h : s.Sound) {calls : List (PeerDatabaseCall Dir)}
    (hroom : s.HasRoomFor calls) : (s.run calls).Sound := by
  induction calls generalizing s with
  | nil => exact h
  | cons c calls ih => exact ih (step_sound h hroom.1) hroom.2

/-! ### Closing and opening -/

/-- Opening again has the peers of before, or the thousand of them that were seen first. -/
structure Reloads (s s' : PeerDatabase Dir) : Prop where
  agrees : s'.Agrees
  size : s'.size = min s.size maximumPeerdbSize
  kept : ∀ endpoint record, s'.lookupEntryForEndpoint endpoint = some record →
    s.lookupEntryForEndpoint endpoint = some record
  all : s.size ≤ maximumPeerdbSize → s'.lookupEntryForEndpoint = s.lookupEntryForEndpoint
  oldest : ∀ r r', s'.lookupEntryForEndpoint r.endpoint = some r →
    s.lookupEntryForEndpoint r'.endpoint = some r' → s'.lookupEntryForEndpoint r'.endpoint = none →
    r.lastSeenTime ≤ r'.lastSeenTime

omit [DecidableEq Dir] in
theorem lookup_eq_some {s : PeerDatabase Dir} {endpoint : Endpoint} {record : PotentialPeerRecord} :
    s.lookupEntryForEndpoint endpoint = some record ↔
      ∃ key, ⟨key, record⟩ ∈ s.potentialPeerSet.entries ∧ record.endpoint = endpoint := by
  simp only [lookupEntryForEndpoint, Option.map_eq_some_iff, MultiIndex.find_eq_some]
  constructor
  · rintro ⟨e, ⟨hmem, hendpoint⟩, rfl⟩
    exact ⟨e.databaseKey, hmem, hendpoint⟩
  · rintro ⟨key, hmem, hendpoint⟩
    exact ⟨_, ⟨hmem, hendpoint⟩, rfl⟩

theorem Sound.reloads {s : PeerDatabase Dir} (h : s.Sound) {d : Dir}
    (hdir : s.leveldb.dir = some d) :
    ∃ s₁ s₂, s.close = (.ok (), s₁) ∧ s₁.openFile d = (.ok (), s₂) ∧ s.Reloads s₂ := by
  cases h with
  | closed => cases hdir
  | @opened files d₀ m set hfiles hfile hmatch =>
    obtain rfl : d₀ = d := Option.some.inj hdir
    have hdistinct := hfiles d₀ m hfile
    obtain ⟨m', set', hfill, hmatch', hset'⟩ := fill_opened hfile hdistinct
    have hperm : (load m.entries).entries.Perm set.entries :=
      ((MatchesSet.load hdistinct).perm.symm).trans hmatch.perm
    have hordered := (load m.entries).ordered
    rw [← List.take_append_drop maximumPeerdbSize (load m.entries).entries,
      List.pairwise_append, ← hset'] at hordered
    have hsub : ∀ e ∈ set'.entries, e ∈ set.entries := fun e he =>
      hperm.mem_iff.1 (List.mem_of_mem_take (hset' ▸ he))
    refine ⟨⟨⟨files, none⟩, ∅⟩, ⟨⟨Function.update files d₀ (some m'), some d₀⟩, set'⟩, rfl, ?_, ?_⟩
    · simp only [openFile, LevelMap.openDir_existing hfile, hfill]
    refine ⟨(agrees_opened (Function.update_self ..)).2 hmatch', ?_,
      fun endpoint record hlookup => ?_,
      fun hsize => ?_, fun r r' hr hr' hnone => ?_⟩
    · simp only [size, hset', List.length_take, hperm.length_eq, min_comm]
    · obtain ⟨key, hmem, hendpoint⟩ := lookup_eq_some.1 hlookup
      exact lookup_eq_some.2 ⟨key, hsub _ hmem, hendpoint⟩
    · have hlen : (load m.entries).entries.length ≤ maximumPeerdbSize := hperm.length_eq ▸ hsize
      rw [List.take_of_length_le hlen] at hset'
      funext endpoint
      refine Option.ext fun record => ?_
      simp only [lookup_eq_some, hset', hperm.mem_iff]
    · obtain ⟨key, hmem, -⟩ := lookup_eq_some.1 hr
      obtain ⟨key', hmem', -⟩ := lookup_eq_some.1 hr'
      refine hordered.2.2 _ hmem ⟨key', r'⟩ ?_
      have hin := hperm.mem_iff.2 hmem'
      rw [← List.take_append_drop maximumPeerdbSize (load m.entries).entries, List.mem_append,
        ← hset'] at hin
      refine hin.resolve_left fun hin => ?_
      rw [lookup_eq_some.2 ⟨key', hin, rfl⟩] at hnone
      cases hnone

end PeerDatabase

/-! ## Main results -/

section Main

variable {Dir : Type} [DecidableEq Dir]

/-- **Memory and file agree after every call** exactly when no call adds an endpoint while the
largest key and key 0 are both in use; closing and opening then reloads what was there. -/
theorem peer_database_matches_leveldb
    (files : Dir → Option (OrdMap DatabaseKey PotentialPeerRecord))
    (hfiles : ∀ d m, files d = some m → DistinctEndpoints m)
    (calls : List (PeerDatabaseCall Dir)) :
    ((PeerDatabase.initial files).HasRoomFor calls ↔
      ∀ n, ((PeerDatabase.initial files).run (calls.take n)).Agrees) ∧
    ((PeerDatabase.initial files).HasRoomFor calls →
      ∀ d, ((PeerDatabase.initial files).run calls).leveldb.dir = some d →
        ∃ s₁ s₂, ((PeerDatabase.initial files).run calls).close = (.ok (), s₁) ∧
          s₁.openFile d = (.ok (), s₂) ∧
          ((PeerDatabase.initial files).run calls).Reloads s₂) := by
  have hinitial : (PeerDatabase.initial files).Sound := .closed hfiles
  refine ⟨PeerDatabase.hasRoomFor_iff hinitial calls, fun hroom d hdir => ?_⟩
  exact (PeerDatabase.run_sound hinitial hroom).reloads hdir

def examplePeer (n : UInt32) : PotentialPeerRecord := { endpoint := ⟨n, 1776⟩ }

/-- Three peers are added, one of them is updated and one erased. -/
def exampleCalls : List (PeerDatabaseCall Unit) :=
  [.openFile (), .updateEntry (examplePeer 1) 7, .updateEntry (examplePeer 2) 0,
    .updateEntry { examplePeer 1 with lastSeenTime := 5 } 0, .erase (examplePeer 2).endpoint,
    .updateEntry (examplePeer 3) 0]

theorem peer_database_matches_leveldb_three :
    let s := (PeerDatabase.initial fun (_ : Unit) => none).run exampleCalls
    s.getAll = .ok [{ examplePeer 1 with lastSeenTime := 5 }, examplePeer 3] ∧ s.Agrees ∧
      ∃ s₁ s₂, s.close = (.ok (), s₁) ∧ s₁.openFile () = (.ok (), s₂) ∧ s.Reloads s₂ := by
  obtain ⟨hiff, hreloads⟩ := peer_database_matches_leveldb (fun (_ : Unit) => none) nofun exampleCalls
  have hroom : (PeerDatabase.initial fun (_ : Unit) => none).HasRoomFor exampleCalls :=
    ⟨trivial, fun _ h => absurd h.1 (by decide), fun _ h => absurd h.1 (by decide),
      fun _ h => absurd h.1 (by decide), trivial, fun _ h => absurd h.1 (by decide), trivial⟩
  exact ⟨by decide, hiff.1 hroom 6, hreloads hroom () rfl⟩

/-- In an empty file the first key is one more than a variable that was never set.  From there the
keys can reach the largest one and wrap around, and the third peer takes the key of the second. -/
theorem peer_database_drops_record :
    let s := (PeerDatabase.initial fun (_ : Unit) => none).run
      [.openFile (), .updateEntry (examplePeer 1) (2 ^ 32 - 2), .updateEntry (examplePeer 2) 0,
        .updateEntry (examplePeer 3) 0]
    s.lookupEntryForEndpoint (examplePeer 2).endpoint = some (examplePeer 2) ∧
      s.getAll = .ok [examplePeer 3, examplePeer 1] ∧
      (s.run [.close, .openFile ()]).lookupEntryForEndpoint (examplePeer 2).endpoint = none := by
  decide

end Main

end BitShares
