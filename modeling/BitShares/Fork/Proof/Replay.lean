import BitShares.Fork.Replay
import BitShares.Chain.Run

/-!
# What a replay keeps of the chain

* `DataDir.toPush_of_numbers`: a replay pushes the blocks that the numbers are of.
* `replay_keeps_chain`: when a replay after interrupted ones pushes the whole chain.
* `chain_cut`: with two blocks, a crash after the first one costs the second.
-/

namespace BitShares

open Program

section

variable [Crypto]

namespace DataDir

/-- The numbers are those of a list of blocks, and the blocks have been set aside. -/
structure Numbers (d : DataDir) (l : List FullBlock) : Prop where
  table : ∀ n id, d.blockNumToId.lookup n = some id ↔ ∃ b ∈ l, b.blockNum = n ∧ b.id = id
  blocks : ∀ b ∈ l, d.original.lookup b.id = some b

/-- The stored chain: no replay has begun, the numbers are those of its blocks, and the blocks are
there. -/
structure Stores (d : DataDir) (chain : List FullBlock) : Prop where
  fresh : d.dataOriginal = none
  numbers : ∀ n id, d.blockNumToId.lookup n = some id ↔ ∃ b ∈ chain, b.blockNum = n ∧ b.id = id
  blocks : ∃ data, d.blockData = some data ∧ ∀ b ∈ chain, data.lookup b.id = some b
  ascending : chain.Pairwise fun b c => b.blockNum < c.blockNum

theorem Stores.isNumbers {d : DataDir} {chain : List FullBlock} (h : d.Stores chain) :
    d.Numbers chain := by
  obtain ⟨data, hdata, hblocks⟩ := h.blocks
  refine ⟨h.numbers, fun b hb => ?_⟩
  have horiginal : d.original = data := by
    unfold original opened
    rw [h.fresh, hdata]
    rfl
  rw [horiginal]
  exact hblocks b hb

theorem toPush_of_numbers {d : DataDir} {l : List FullBlock} (h : d.Numbers l)
    (hascending : l.Pairwise fun b c => b.blockNum < c.blockNum) (hne : l ≠ []) : d.toPush = l := by
  have hkeys : d.blockNumToId.sortedKeys = l.map (·.blockNum) := by
    refine d.blockNumToId.pairwise_sortedKeys.eq_of_mem_iff (List.pairwise_map.2 hascending)
      fun {n} => ?_
    rw [Table.mem_sortedKeys, List.mem_map]
    constructor
    · intro hn
      obtain ⟨id, hid⟩ := Finmap.mem_iff.1 hn
      obtain ⟨b, hb, hnum, -⟩ := (h.table n id).1 hid
      exact ⟨b, hb, hnum⟩
    · rintro ⟨b, hb, rfl⟩
      exact Finmap.mem_of_lookup_eq_some ((h.table _ b.id).2 ⟨b, hb, rfl, rfl⟩)
  have hfound : ∀ b ∈ l, (d.blockNumToId.lookup b.blockNum).bind d.original.lookup = some b := by
    intro b hb
    rw [(h.table _ b.id).2 ⟨b, hb, rfl, rfl⟩, Option.bind_some, h.blocks b hb]
  unfold toPush
  rw [hkeys, if_neg fun hnil => hne (List.map_eq_nil_iff.1 hnil), List.filterMap_map]
  exact (List.filterMap_congr hfound).trans List.filterMap_some

/-- Where the numbers lead to every block of a chain, a replay pushes the chain. -/
theorem sublist_toPush {d : DataDir} {chain : List FullBlock}
    (hblocks : ∀ b ∈ chain, d.original.lookup b.id = some b)
    (hascending : chain.Pairwise fun b c => b.blockNum < c.blockNum) (hne : chain ≠ [])
    (hleads : ∀ b ∈ chain, d.blockNumToId.lookup b.blockNum = some b.id) :
    chain.Sublist d.toPush := by
  have hmem : chain.map (·.blockNum) ⊆ d.blockNumToId.sortedKeys := by
    intro n hn
    obtain ⟨b, hb, rfl⟩ := List.mem_map.1 hn
    exact Table.mem_sortedKeys.2 (Finmap.mem_of_lookup_eq_some (hleads b hb))
  have hnumbers : (chain.map (·.blockNum)).Sublist d.blockNumToId.sortedKeys :=
    List.sublist_of_subperm_of_pairwise
      (List.subperm_of_subset ((List.pairwise_map.2 hascending).imp Nat.ne_of_lt) hmem)
      (List.pairwise_map.2 hascending) d.blockNumToId.pairwise_sortedKeys
  have hnonempty : d.blockNumToId.sortedKeys ≠ [] := by
    intro hnil
    rw [hnil] at hmem
    exact hne (List.map_eq_nil_iff.1 (List.subset_nil.1 hmem))
  have hfound : ∀ b ∈ chain, (d.blockNumToId.lookup b.blockNum).bind d.original.lookup = some b := by
    intro b hb
    rw [hleads b hb, Option.bind_some, hblocks b hb]
  have hpushed := hnumbers.filterMap fun n => (d.blockNumToId.lookup n).bind d.original.lookup
  rw [List.filterMap_map] at hpushed
  rw [toPush, if_neg hnonempty]
  exact ((List.filterMap_congr hfound).trans List.filterMap_some) ▸ hpushed

theorem erase_pushAll (d : DataDir) (cfg : ClientConfig) (fuel : Nat) (bs : List FullBlock) :
    Traced.erase (d.pushAll cfg fuel bs) = forEach (d.push cfg fuel) bs := by
  refine (Traced.follows_forEach (fun b => ?_) bs).erase_eq
  refine fun s _ => ?_
  rw [Traced.erase_bind, Traced.erase_lift, bind_apply]
  rcases d.push cfg fuel b s with _ | ⟨_ | ⟨⟨⟩⟩, s'⟩ <;> rfl

/-- A replay that completes has pushed all that it had to. -/
theorem pushed_of_pushAll {d : DataDir} {cfg : ClientConfig} {fuel : Nat} :
    ∀ {bs pushed : List FullBlock} {s s' : ForkState},
      d.pushAll cfg fuel bs s = (pushed, some (.ok (), s')) → pushed = bs
  | [], pushed, s, s', h => (Prod.mk.inj h).1.symm
  | b :: bs, pushed, s, s', h => by
    have hcons : d.pushAll cfg fuel (b :: bs) s = Traced.next (fun _ => d.pushAll cfg fuel bs)
        (Traced.next (fun _ => Traced.write b) ([], d.push cfg fuel b s)) := rfl
    rw [hcons] at h
    generalize d.push cfg fuel b s = p at h
    rcases p with _ | ⟨_ | ⟨⟨⟩⟩, s₁⟩
    · cases h
    · cases h
    · obtain ⟨hpushed, hrest⟩ := Prod.mk.inj h
      have hbs : (d.pushAll cfg fuel bs s₁).1 = bs := pushed_of_pushAll (Prod.ext rfl hrest)
      rw [← hpushed]
      exact congrArg (b :: ·) hbs

theorem pushed_of_replayed {d d' : DataDir} {cfg : ClientConfig} {fuel : Nat} {tables : ChainTables}
    {pushed : List FullBlock} (h : d.replayed cfg fuel tables = some (pushed, d')) :
    pushed = d.toPush := by
  unfold replayed at h
  split at h
  case h_1 l _ s hpush =>
    obtain ⟨rfl, -⟩ := Prod.mk.inj (Option.some.inj h)
    exact pushed_of_pushAll hpush
  case h_2 => cases h

theorem Accepted.pushAll {d : DataDir} {cfg : ClientConfig} {fuel : Nat} :
    ∀ {bs : List FullBlock} {s : ForkState}, d.Accepted cfg fuel s bs →
      ∃ s', Traced.erase (d.pushAll cfg fuel bs) s = some (.ok (), s') ∧
        s'.chain.blockNumToId = bs.foldl (fun t b => t.insert b.blockNum b.id) s.chain.blockNumToId
  | [], s, _ => ⟨s, rfl, rfl⟩
  | b :: bs, s, ⟨s₁, hpush, htable, hrest⟩ => by
    obtain ⟨s', hbs, htable'⟩ := Accepted.pushAll hrest
    refine ⟨s', ?_, by rw [htable', htable]; rfl⟩
    rw [erase_pushAll] at hbs ⊢
    rw [forEach, bind_apply, hpush]
    exact hbs

theorem lookup_entered {l : List FullBlock}
    (hascending : l.Pairwise fun b c => b.blockNum < c.blockNum) (n : BlockNum) (id : BlockId) :
    (l.foldl (fun t b => t.insert b.blockNum b.id) (∅ : Table BlockNum BlockId)).lookup n = some id ↔
      ∃ b ∈ l, b.blockNum = n ∧ b.id = id := by
  induction l using List.reverseRecOn with
  | nil => simp
  | append_singleton l b ih =>
    obtain ⟨hl, -, hlast⟩ := List.pairwise_append.1 hascending
    rw [List.foldl_append, List.foldl_cons, List.foldl_nil, Table.lookup_insert_eq]
    split_ifs with hn
    · subst hn
      constructor
      · intro h
        exact ⟨b, List.mem_append_right _ List.mem_cons_self, rfl, Option.some.inj h⟩
      · rintro ⟨c, hc, hnum, rfl⟩
        rcases List.mem_append.1 hc with hc | hc
        · exact absurd hnum (hlast c hc b List.mem_cons_self).ne
        · rw [List.mem_singleton.1 hc]
    · rw [ih hl]
      constructor
      · rintro ⟨c, hc, hrest⟩
        exact ⟨c, List.mem_append_left _ hc, hrest⟩
      · rintro ⟨c, hc, hnum, hid⟩
        rcases List.mem_append.1 hc with hc | hc
        · exact ⟨c, hc, hnum, hid⟩
        · rw [List.mem_singleton.1 hc] at hnum
          exact absurd hnum.symm hn

/-- **One crash**: the next replay goes as far as this one has come. -/
theorem Numbers.interrupted {d m : DataDir} {l : List FullBlock} (h : d.Numbers l)
    (hascending : l.Pairwise fun b c => b.blockNum < c.blockNum) (hne : l ≠ []) {cfg : ClientConfig}
    {fuel k : Nat} {tables : ChainTables}
    (haccepted : d.Accepted cfg fuel (d.start tables) (d.toPush.take k))
    (hm : d.interrupted cfg fuel tables k = some m) : m.Numbers (l.take k) := by
  rw [toPush_of_numbers h hascending hne] at haccepted
  obtain ⟨s, hpush, htable⟩ := haccepted.pushAll
  rw [Traced.erase] at hpush
  rw [DataDir.interrupted, toPush_of_numbers h hascending hne, hpush] at hm
  obtain rfl := Option.some.inj hm
  refine ⟨fun n id => ?_, fun b hb => h.blocks b (List.mem_of_mem_take hb)⟩
  change s.chain.blockNumToId.lookup n = some id ↔ _
  rw [htable]
  exact lookup_entered (hascending.sublist (List.take_sublist k l)) n id

/-- The blocks that were set aside stay there until a replay completes. -/
theorem Interruptions.original_eq {C : DataDir → ClientConfig → Nat → Nat → Prop}
    {tables : ChainTables} {d d' : DataDir} {ks : List Nat} (hrun : Interruptions C tables d ks d') :
    d'.original = d.original := by
  induction hrun with
  | nil => rfl
  | @cons d m d' k ks cfg fuel _ _ _ _ hm _ ih =>
    obtain ⟨p, -, rfl⟩ := Option.map_eq_some_iff.1 hm
    exact ih

/-- **Any crashes** of replays whose pushes are accepted: the last of them says how far the next replay
goes, and none goes further than the one before. -/
theorem Interruptions.numbers {tables : ChainTables} {d d' : DataDir} {ks : List Nat}
    (hrun : Interruptions (accepts tables) tables d ks d') {l : List FullBlock} (h : d.Numbers l)
    (hascending : l.Pairwise fun b c => b.blockNum < c.blockNum) (hne : l ≠ []) :
    ∃ m, 1 ≤ m ∧ m ≤ l.length ∧ d'.Numbers (l.take m) ∧ (m = l.length ↔ ∀ k ∈ ks, k = l.length) := by
  induction hrun generalizing l with
  | nil d =>
    refine ⟨l.length, List.length_pos_iff.2 hne, le_rfl, ?_, by simp⟩
    rwa [List.take_length]
  | @cons d m d' k ks cfg fuel _ hpos hle haccepted hm _ ih =>
    have hk : k ≤ l.length := by rwa [toPush_of_numbers h hascending hne] at hle
    have hnumbers := h.interrupted hascending hne haccepted hm
    have hlength : (l.take k).length = k := by rw [List.length_take, min_eq_left hk]
    obtain ⟨j, hj, hjk, hnumbers', hall⟩ := ih hnumbers
      (hascending.sublist (List.take_sublist k l)) fun hnil => by
        rw [hnil] at hlength
        exact absurd hlength.symm (by simpa using Nat.ne_of_gt hpos)
    rw [hlength] at hjk hall
    refine ⟨j, hj, hjk.trans hk, ?_, ?_⟩
    · rwa [List.take_take, min_eq_left hjk] at hnumbers'
    · rw [List.forall_mem_cons]
      constructor
      · intro hjl
        have hkl : k = l.length := le_antisymm hk (hjl ▸ hjk)
        exact ⟨hkl, fun i hi => (hall.1 (hjl.trans hkl.symm) i hi).trans hkl⟩
      · rintro ⟨hkl, hks⟩
        exact (hall.2 fun i hi => (hks i hi).trans hkl.symm).trans hkl

end DataDir

/-- A replay of `d` that has pushed `pushed` has kept the chain: it has pushed all of it, in order, and
deletes no block of it that it has not pushed. -/
def DataDir.Keeps (d : DataDir) (chain pushed : List FullBlock) : Prop :=
  chain.Sublist pushed ∧ ∀ b ∈ chain, d.original.lookup b.id = some b → b ∈ pushed

theorem DataDir.keeps_of_sublist {d : DataDir} {chain pushed : List FullBlock}
    (h : chain.Sublist pushed) : d.Keeps chain pushed :=
  ⟨h, fun _ hb _ => h.subset hb⟩

/-- **A replay keeps the chain**, whatever became of the replays before it, if the numbers that it finds
lead to every block.  Where the blocks are accepted by each replay, it keeps the chain exactly if every
replay that was interrupted had pushed all of them. -/
theorem replay_keeps_chain {tables : ChainTables} {d d' d'' : DataDir} {chain : List FullBlock}
    (hstored : d.Stores chain) (hne : chain ≠ []) {ks : List Nat}
    (hcrashes : DataDir.Interruptions (fun _ _ _ _ => True) tables d ks d') {cfg : ClientConfig}
    {fuel : Nat} {pushed : List FullBlock}
    (hreplayed : d'.replayed cfg fuel tables = some (pushed, d'')) :
    ((∀ b ∈ chain, d'.blockNumToId.lookup b.blockNum = some b.id) → d'.Keeps chain pushed) ∧
      (DataDir.Interruptions (DataDir.accepts tables) tables d ks d' →
        (d'.Keeps chain pushed ↔ ∀ k ∈ ks, k = chain.length)) := by
  rw [DataDir.pushed_of_replayed hreplayed]
  constructor
  · intro hleads
    refine DataDir.keeps_of_sublist (DataDir.sublist_toPush ?_ hstored.ascending hne hleads)
    rw [hcrashes.original_eq]
    exact hstored.isNumbers.blocks
  · intro haccepted
    obtain ⟨m, hpos, hle, hnumbers, hall⟩ :=
      haccepted.numbers hstored.isNumbers hstored.ascending hne
    have hlength : (chain.take m).length = m := by rw [List.length_take, min_eq_left hle]
    have hpushes : d'.toPush = chain.take m :=
      DataDir.toPush_of_numbers hnumbers (hstored.ascending.sublist (List.take_sublist m chain))
        fun hnil => by
          rw [hnil] at hlength
          exact absurd hlength.symm (by simpa using Nat.ne_of_gt hpos)
    rw [hpushes, ← hall]
    constructor
    · rintro ⟨hsub, -⟩
      exact le_antisymm hle (hlength ▸ hsub.length_le)
    · rintro rfl
      rw [List.take_length]
      exact DataDir.keeps_of_sublist (List.Sublist.refl chain)

end

/-- A directory with a chain of one delegate's blocks, from an older version. -/
def soloDir (chain : List FullBlock) [Crypto] : DataDir where
  databaseVersion := some 14
  blockNumToId := chain.foldl (fun t b => t.insert b.blockNum b.id) ∅
  blockData := some (chain.foldl (fun t b => t.insert b.id b) ∅)

theorem stores_soloDir [Crypto] {chain : List FullBlock}
    (hascending : chain.Pairwise fun b c => b.blockNum < c.blockNum)
    (hblocks : ∀ b ∈ chain, (chain.foldl (fun t b => t.insert b.id b)
      (∅ : Table BlockId FullBlock)).lookup b.id = some b) : (soloDir chain).Stores chain :=
  ⟨rfl, fun n id => DataDir.lookup_entered hascending n id, ⟨_, rfl, hblocks⟩, hascending⟩

/-- A replay that is interrupted at its end, and the one after it. -/
theorem replay_keeps_chain_solo :
    letI := Crypto.transparent
    let block1 := soloBlock 1 nullId 10 []
    let block2 := soloBlock 2 block1.id 20 []
    ∃ d' d'' pushed,
      DataDir.Interruptions (fun _ _ _ _ => True) (soloTables 100) (soloDir [block1, block2]) [2] d' ∧
      d'.replayed { clock := 100 } 9 (soloTables 100) = some (pushed, d'') ∧
      d'.Keeps [block1, block2] pushed := by
  let := Crypto.transparent
  let block1 := soloBlock 1 nullId 10 []
  let block2 := soloBlock 2 block1.id 20 []
  let d := soloDir [block1, block2]
  have hstored : d.Stores [block1, block2] := stores_soloDir (by decide) (by decide +kernel)
  obtain ⟨d', hd', hrest⟩ := exists_some_of_any
    (o := d.interrupted { clock := 100 } 9 (soloTables 100) 2)
    (p := fun d' => (∀ b ∈ [block1, block2], d'.blockNumToId.lookup b.blockNum = some b.id) ∧
      (d'.replayed { clock := 100 } 9 (soloTables 100)).isSome = true) (by decide +kernel)
  obtain ⟨hleads, hreplayed⟩ := hrest
  obtain ⟨⟨pushed, d''⟩, hreplayed⟩ := Option.isSome_iff_exists.1 hreplayed
  have hcrash : DataDir.Interruptions (fun _ _ _ _ => True) (soloTables 100) d [2] d' :=
    .cons { clock := 100 } 9 (by decide) (by decide) (by decide +kernel) trivial hd' (.nil d')
  exact ⟨d', d'', pushed, hcrash, hreplayed,
    (replay_keeps_chain hstored (List.cons_ne_nil _ _) hcrash hreplayed).1 hleads⟩

/-- **A block is lost.**  The chain has two blocks; a replay is interrupted after the first.  The next
one finds the number of the first only, pushes this block and deletes what was set aside. -/
theorem chain_cut :
    letI := Crypto.transparent
    let block1 := soloBlock 1 nullId 10 []
    let block2 := soloBlock 2 block1.id 20 []
    let d := soloDir [block1, block2]
    ∃ d' d'', d.Stores [block1, block2] ∧
      DataDir.Interruptions (DataDir.accepts (soloTables 100)) (soloTables 100) d [1] d' ∧
      d'.original.lookup block2.id = some block2 ∧
      d'.replayed { clock := 100 } 9 (soloTables 100) = some ([block1], d'') ∧
      d''.dataOriginal = none ∧ d''.blockData.bind (·.lookup block2.id) = none := by
  let := Crypto.transparent
  let block1 := soloBlock 1 nullId 10 []
  let block2 := soloBlock 2 block1.id 20 []
  let d := soloDir [block1, block2]
  have hstored : d.Stores [block1, block2] := stores_soloDir (by decide) (by decide +kernel)
  obtain ⟨⟨_, s⟩, hpush, rfl, htable⟩ := exists_some_of_any
    (o := d.push { clock := 100 } 9 block1 (d.start (soloTables 100)))
    (p := fun p => p.1 = .ok () ∧ p.2.chain.blockNumToId = Finmap.singleton 1 block1.id)
    (by decide +kernel)
  have hpushes : d.toPush = [block1, block2] :=
    DataDir.toPush_of_numbers hstored.isNumbers hstored.ascending (List.cons_ne_nil _ _)
  have haccepted : d.Accepted { clock := 100 } 9 (d.start (soloTables 100)) (d.toPush.take 1) := by
    rw [hpushes]
    exact ⟨s, hpush, htable, trivial⟩
  obtain ⟨d', hd', horiginal, hreplayed⟩ := exists_some_of_any
    (o := d.interrupted { clock := 100 } 9 (soloTables 100) 1)
    (p := fun d' => d'.original.lookup block2.id = some block2 ∧
      ((d'.replayed { clock := 100 } 9 (soloTables 100)).any fun p =>
        p.1 = [block1] ∧ p.2.dataOriginal.isNone ∧
        (p.2.blockData.bind (·.lookup block2.id)).isNone) = true)
    (by decide +kernel)
  obtain ⟨⟨_, d''⟩, hd'', hlost⟩ := (Option.any_eq_true _ _).1 hreplayed
  obtain ⟨rfl, hgone, hlost⟩ := of_decide_eq_true hlost
  have hcrash : DataDir.Interruptions (DataDir.accepts (soloTables 100)) (soloTables 100) d [1] d' :=
    .cons { clock := 100 } 9 (by decide) le_rfl (by rw [hpushes]; decide) haccepted hd' (.nil d')
  exact ⟨d', d'', hstored, hcrash, horiginal, hd'', Option.isNone_iff_eq_none.1 hgone,
    Option.isNone_iff_eq_none.1 hlost⟩

end BitShares
