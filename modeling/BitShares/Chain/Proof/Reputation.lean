import BitShares.Chain.Queries
import BitShares.Chain.Proof.Delegates

/-!
# The reputation index

`account_record::store` takes accounts out of the reputation set but never puts one in; only
`populate_indexes` does, when the database is opened.  So the set stays right exactly as long as no
store makes an account appear in it, or in another place of it (`rpIndexed_account_iff`).

* `reputation_index_iff`: over any sequence of stores and removes.
* `reputation_index_misses_account`: a new account is missing until the next start.
-/

namespace BitShares

inductive AccountCall where
  | store (r : AccountRecord)
  | remove (id : AccountId)

namespace ChainTables

/-- The reputation set has the accounts that are not retracted, under their reputation. -/
def RpIndexed (d : ChainTables) : Prop :=
  ∀ key, d.accountRps.mem key = true ↔
    ∃ id r, d.accounts.lookup id = some r ∧ r.isRetracted = false ∧ key = rankKey r.rp r.id

/-- A store leaves the account where it was in the reputation set, or out of it. -/
def KeepsRp (d : ChainTables) : AccountCall → Prop
  | .store r => r.isRetracted = true ∨
    ∃ o, d.accounts.lookup r.id = some o ∧ o.isRetracted = false ∧ o.rp = r.rp
  | .remove _ => True

variable [Crypto]

def account (d : ChainTables) : AccountCall → ChainTables
  | .store r => d.storeAccount r.id r
  | .remove id => d.removeAccount id

def accountRun (d : ChainTables) (calls : List AccountCall) : ChainTables := calls.foldl account d

def KeepsRps (d : ChainTables) : List AccountCall → Prop
  | [] => True
  | c :: calls => d.KeepsRp c ∧ (d.account c).KeepsRps calls

theorem own_account {d : ChainTables} (h : d.accounts.All fun id r => r.id = id)
    (c : AccountCall) : (d.account c).accounts.All fun id r => r.id = id := by
  cases c with
  | store r => exact h.insert rfl
  | remove id =>
    rw [account, accounts_removeAccount]
    intro id' r hr
    rw [Table.lookup_erase_eq] at hr
    split_ifs at hr
    exact h id' r hr

/-! ## One call -/

section Step

variable {d : ChainTables} (hown : d.accounts.All fun id r => r.id = id) (h : d.RpIndexed)

omit [Crypto] in
include hown h in
theorem mem_rps_iff {rp : ShareType} {id : AccountId} :
    d.accountRps.mem (rankKey rp id) = true ↔
      ∃ r, d.accounts.lookup id = some r ∧ r.isRetracted = false ∧ r.rp = rp := by
  rw [h]
  constructor
  · rintro ⟨id', r, hr, hretracted, hkey⟩
    obtain ⟨rfl, rfl⟩ := rankKey_inj hkey
    rw [hown id' r hr]
    exact ⟨r, hr, hretracted, rfl⟩
  · rintro ⟨r, hr, hretracted, rfl⟩
    exact ⟨id, r, hr, hretracted, by rw [hown id r hr]⟩

omit [Crypto] in
include hown in
theorem rpIndexed_of_places (hplaces : ∀ key, d.accountRps.mem key = true → ∃ rp id, key = rankKey rp id)
    (hmem : ∀ rp id, d.accountRps.mem (rankKey rp id) = true ↔
      ∃ r, d.accounts.lookup id = some r ∧ r.isRetracted = false ∧ r.rp = rp) : d.RpIndexed := by
  intro key
  constructor
  · intro hkey
    obtain ⟨rp, id, rfl⟩ := hplaces key hkey
    obtain ⟨r, hr, hretracted, rfl⟩ := (hmem rp id).1 hkey
    exact ⟨id, r, hr, hretracted, by rw [hown id r hr]⟩
  · rintro ⟨id, r, hr, hretracted, rfl⟩
    rw [hown id r hr]
    exact (hmem r.rp id).2 ⟨r, hr, hretracted, rfl⟩

include hown h in
/-- What the other accounts have in the set stays, and the account that is stored has at most its
old place. -/
theorem mem_storeAccount_rps (r : AccountRecord) (rp : ShareType) (id : AccountId) :
    (d.account (.store r)).accountRps.mem (rankKey rp id) = true ↔
      ∃ o, d.accounts.lookup id = some o ∧ o.isRetracted = false ∧ o.rp = rp ∧
        (id = r.id → r.isRetracted = false ∧ o.rp = r.rp) := by
  have hrps : (d.account (.store r)).accountRps =
      d.accountRps.eraseOpt ((d.accounts.lookup r.id).bind (·.droppedRp r)) := rfl
  rw [hrps, OrdSet.mem_eraseOpt, mem_rps_iff hown h]
  constructor
  · rintro ⟨hkept, o, ho, hretracted, rfl⟩
    refine ⟨o, ho, hretracted, rfl, ?_⟩
    rintro rfl
    rw [ho, Option.bind_some, AccountRecord.droppedRp, hown _ o ho] at hkept
    by_contra hnot
    refine hkept (if_pos ⟨by simp [hretracted], ?_⟩)
    by_cases hr : r.isRetracted = true
    · exact .inl hr
    · exact .inr fun heq => hnot ⟨by simpa using hr, heq⟩
  · rintro ⟨o, ho, hretracted, rfl, hsame⟩
    refine ⟨fun hdrop => ?_, o, ho, hretracted, rfl⟩
    obtain ⟨o', ho', hdrop⟩ := Option.bind_eq_some_iff.1 hdrop
    rw [AccountRecord.droppedRp] at hdrop
    split_ifs at hdrop with hcond
    obtain ⟨-, hid⟩ := rankKey_inj (Option.some.inj hdrop)
    rw [hown _ o' ho'] at hid
    subst hid
    obtain ⟨hr, heq⟩ := hsame rfl
    cases ho.symm.trans ho'
    rcases hcond.2 with hgone | hmoved
    · simp [hr] at hgone
    · exact hmoved heq

include hown h in
theorem rpIndexed_store_iff (r : AccountRecord) :
    (d.account (.store r)).RpIndexed ↔ d.KeepsRp (.store r) := by
  have hlookup : ∀ id, (d.account (.store r)).accounts.lookup id =
      if id = r.id then some r else d.accounts.lookup id := fun _ => Table.lookup_insert_eq _ _ _ _
  constructor
  · intro hafter
    by_cases hretracted : r.isRetracted = true
    · exact .inl hretracted
    · have hmem := (hafter (rankKey r.rp r.id)).2
        ⟨r.id, r, by rw [hlookup, if_pos rfl], by simpa using hretracted, rfl⟩
      obtain ⟨o, ho, ho', hrp, -⟩ := (mem_storeAccount_rps hown h r r.rp r.id).1 hmem
      exact .inr ⟨o, ho, ho', hrp⟩
  · intro hkeeps
    refine rpIndexed_of_places (own_account hown (.store r)) (fun key hkey => ?_) fun rp id => ?_
    · obtain ⟨id, o, -, -, rfl⟩ := (h key).1 (OrdSet.mem_eraseOpt.1 hkey).2
      exact ⟨_, _, rfl⟩
    · rw [mem_storeAccount_rps hown h, hlookup]
      by_cases hid : id = r.id
      · subst hid
        rw [if_pos rfl]
        constructor
        · rintro ⟨o, ho, -, rfl, hsame⟩
          exact ⟨r, rfl, (hsame rfl).1, (hsame rfl).2.symm⟩
        · rintro ⟨_, ⟨⟩, hretracted, rfl⟩
          rcases hkeeps with hgone | ⟨o, ho, ho', hrp⟩
          · simp [hretracted] at hgone
          · exact ⟨o, ho, ho', hrp, fun _ => ⟨hretracted, hrp⟩⟩
      · rw [if_neg hid]
        constructor
        · rintro ⟨o, ho, hretracted, rfl, -⟩
          exact ⟨o, ho, hretracted, rfl⟩
        · rintro ⟨o, ho, hretracted, rfl⟩
          exact ⟨o, ho, hretracted, rfl, fun heq => absurd heq hid⟩

include hown h in
theorem rpIndexed_remove (id : AccountId) : (d.account (.remove id)).RpIndexed := by
  cases hold : d.accounts.lookup id with
  | none =>
    rw [account, removeAccount, hold]
    exact h
  | some o =>
    have hlookup : ∀ id', (d.account (.remove id)).accounts.lookup id' =
        if id' = id then none else d.accounts.lookup id' := fun id' => by
      rw [account, accounts_removeAccount, Table.lookup_erase_eq]
    have hrps : ∀ key, (d.account (.remove id)).accountRps.mem key = true ↔
        ¬ (o.isRetracted = false ∧ key = rankKey o.rp id) ∧ d.accountRps.mem key = true := by
      intro key
      rw [account, removeAccount, hold]
      dsimp only
      cases o.isRetracted <;> simp [OrdSet.mem_erase, hown id o hold]
    refine rpIndexed_of_places (own_account hown (.remove id)) (fun key hkey => ?_) fun rp id' => ?_
    · obtain ⟨id', r, -, -, rfl⟩ := (h key).1 ((hrps key).1 hkey).2
      exact ⟨_, _, rfl⟩
    · rw [hrps, mem_rps_iff hown h, hlookup]
      by_cases hid : id' = id
      · subst hid
        rw [if_pos rfl]
        constructor
        · rintro ⟨hkept, r, hr, hretracted, rfl⟩
          cases hold.symm.trans hr
          exact absurd ⟨hretracted, rfl⟩ hkept
        · rintro ⟨r, ⟨⟩, -⟩
      · rw [if_neg hid]
        exact ⟨And.right, fun hr => ⟨fun hkey => hid (rankKey_inj hkey.2).2, hr⟩⟩

include hown h in
/-- **One call** keeps the index exactly if it leaves the account in its place. -/
theorem rpIndexed_account_iff (c : AccountCall) : (d.account c).RpIndexed ↔ d.KeepsRp c := by
  cases c with
  | store r => exact rpIndexed_store_iff hown h r
  | remove id => exact ⟨fun _ => trivial, fun _ => rpIndexed_remove hown h id⟩

end Step

/-! ## Restart -/

omit [Crypto] in
theorem mem_populateRps (records : List AccountRecord) (key : ℤ ×ₗ ℤ) :
    (populateRps records).mem key = true ↔
      ∃ r ∈ records, r.isRetracted = false ∧ key = rankKey r.rp r.id := by
  have hfold : ∀ (l : List AccountRecord) (rps : OrdSet (ℤ ×ₗ ℤ)),
      (l.foldl (fun rps r => if !r.isRetracted then rps.insert (rankKey r.rp r.id) else rps)
        rps).mem key = true ↔
        rps.mem key = true ∨ ∃ r ∈ l, r.isRetracted = false ∧ key = rankKey r.rp r.id := by
    intro l
    induction l with
    | nil => simp
    | cons r l ih =>
      intro rps
      rw [List.foldl_cons, ih]
      cases hr : r.isRetracted <;> simp [OrdSet.mem_insert, hr, or_left_comm, or_assoc]
  rw [populateRps, hfold]
  simp [OrdSet.mem]

omit [Crypto] in
theorem RpIndexed.eq_populateRps {d : ChainTables} (h : d.RpIndexed)
    {records : List AccountRecord}
    (hrecords : ∀ r, r ∈ records ↔ ∃ id, d.accounts.lookup id = some r) :
    d.accountRps = populateRps records := by
  refine OrdMap.ext_find fun key => ?_
  have hmem : d.accountRps.mem key = (populateRps records).mem key := by
    rw [Bool.eq_iff_iff, h key, mem_populateRps]
    constructor
    · rintro ⟨id, r, hr, hrest⟩
      exact ⟨r, (hrecords r).2 ⟨id, hr⟩, hrest⟩
    · rintro ⟨r, hr, hrest⟩
      obtain ⟨id, hid⟩ := (hrecords r).1 hr
      exact ⟨id, r, hid, hrest⟩
  unfold OrdSet.mem at hmem
  cases hfind : d.accountRps.find key <;> cases hfind' : (populateRps records).find key <;>
    simp_all

end ChainTables

/-! ## Main results -/

/-- **The reputation index** is right after every call of a sequence exactly if no store makes an
account appear in it or move; it is then what a restart builds, and `get_accounts_by_rp` answers the
same. -/
theorem reputation_index_iff [Crypto] {d : ChainTables}
    (hown : d.accounts.All fun id r => r.id = id) (h : d.RpIndexed) (calls : List AccountCall) :
    (d.KeepsRps calls ↔ ∀ n, (d.accountRun (calls.take n)).RpIndexed) ∧
    (d.KeepsRps calls → ∀ records : List AccountRecord,
      (∀ r, r ∈ records ↔ ∃ id, (d.accountRun calls).accounts.lookup id = some r) →
      (d.accountRun calls).accountRps = ChainTables.populateRps records ∧
      ∀ first count, ChainTables.getAccountsByRp (d.accountRun calls).accountRps first count =
        ChainTables.getAccountsByRp (ChainTables.populateRps records) first count) := by
  have hiff : d.KeepsRps calls ↔ ∀ n, (d.accountRun (calls.take n)).RpIndexed := by
    induction calls generalizing d with
    | nil => exact ⟨fun _ n => by simpa [ChainTables.accountRun] using h, fun _ => trivial⟩
    | cons c calls ih =>
      constructor
      · rintro ⟨hkeeps, hrest⟩ n
        cases n with
        | zero => exact h
        | succ n =>
          exact (ih (ChainTables.own_account hown c)
            ((ChainTables.rpIndexed_account_iff hown h c).2 hkeeps)).1 hrest n
      · intro hall
        have hstep : (d.account c).RpIndexed := by
          simpa [ChainTables.accountRun] using hall 1
        exact ⟨(ChainTables.rpIndexed_account_iff hown h c).1 hstep,
          (ih (ChainTables.own_account hown c) hstep).2 fun n => hall (n + 1)⟩
  refine ⟨hiff, fun hkeeps records hrecords => ?_⟩
  have hindexed : (d.accountRun calls).RpIndexed := by
    simpa using hiff.1 hkeeps calls.length
  have heq := hindexed.eq_populateRps hrecords
  exact ⟨heq, fun first count => by rw [heq]⟩

def reputedAccount : AccountRecord where
  id := 1
  name := "alice"
  publicData := ""
  ownerKey := 7
  activeKeyHistory := OrdMap.set ∅ 1 7
  registrationDate := 1
  lastUpdate := 1
  rp := 3

def reputedTables : ChainTables where
  accounts := Finmap.singleton 1 reputedAccount
  accountRps := OrdSet.insert ∅ (rankKey 3 1)

theorem reputation_index_renamed :
    letI := Crypto.transparent
    (reputedTables.account (.store { reputedAccount with name := "bob" })).RpIndexed := by
  let := Crypto.transparent
  have hlookup : ∀ id r, reputedTables.accounts.lookup id = some r → id = 1 ∧ r = reputedAccount := by
    intro id r hr
    by_cases hid : id = 1
    · subst hid
      exact ⟨rfl, (Option.some.inj (Finmap.lookup_singleton_eq.symm.trans hr)).symm⟩
    · cases (Table.lookup_singleton_of_ne _ hid).symm.trans hr
  have hown : reputedTables.accounts.All fun id r => r.id = id := by
    intro id r hr
    obtain ⟨rfl, rfl⟩ := hlookup id r hr
    rfl
  have hindexed : reputedTables.RpIndexed := by
    refine ChainTables.rpIndexed_of_places hown (fun key hkey => ?_) fun rp id => ?_
    · rw [reputedTables, OrdSet.mem_insert] at hkey
      exact ⟨3, 1, by simpa [OrdSet.mem] using hkey⟩
    · rw [reputedTables, OrdSet.mem_insert]
      constructor
      · intro hkey
        obtain ⟨rfl, rfl⟩ := rankKey_inj (by simpa [OrdSet.mem] using hkey)
        exact ⟨reputedAccount, by decide +kernel, by decide, rfl⟩
      · rintro ⟨r, hr, -, rfl⟩
        obtain ⟨rfl, rfl⟩ := hlookup id r hr
        exact .inl rfl
  have hkeeps : reputedTables.KeepsRps [.store { reputedAccount with name := "bob" }] :=
    ⟨.inr ⟨reputedAccount, by decide +kernel, by decide, rfl⟩, trivial⟩
  exact (reputation_index_iff hown hindexed _).1.1 hkeeps 1

/-- **A new account is missing**: the set has nothing of it, until a restart builds it. -/
theorem reputation_index_misses_account :
    letI := Crypto.transparent
    let d := ({} : ChainTables).account (.store reputedAccount)
    d.accounts.lookup 1 = some reputedAccount ∧ reputedAccount.isRetracted = false ∧
      ChainTables.getAccountsByRp d.accountRps 0 10 = [] ∧
      ChainTables.getAccountsByRp (ChainTables.populateRps [reputedAccount]) 0 10 = [1] := by
  decide +kernel

end BitShares
