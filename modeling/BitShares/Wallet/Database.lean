import BitShares.Ledger.Pending

/-!
# The wallet database

The accounts and keys of `wallet_db`, with the maps that they are found by, and how their records
are loaded.  Of the data of an account only the part that it has on the chain is kept.
-/

namespace BitShares

structure KeyData where
  accountAddress : Address := 0
  publicKey : PublicKey
  encryptedPrivateKey : List UInt8 := []
  deriving DecidableEq

def KeyData.hasPrivateKey (k : KeyData) : Bool := k.encryptedPrivateKey ≠ []

/-- `wallet_record`: data with the index of its record. -/
structure WalletRecord (α : Type) where
  walletRecordIndex : Int := 0
  data : α
  deriving DecidableEq

structure WalletDb where
  accounts : Table Int (WalletRecord AccountRecord) := ∅
  keys : Table Address (WalletRecord KeyData) := ∅
  addressToAccountWalletRecordIndex : Table Address Int := ∅
  btcToBtsAddress : Table Address Address := ∅

/-- The keys that `scan_public_keys` visits. -/
def AccountRecord.scanPublicKeys (r : AccountRecord) : List PublicKey :=
  r.ownerKey :: (r.activeKeyHistory.entries.map (·.2)).filter (· ≠ nullKey) ++
    match r.delegateInfo with
    | none => []
    | some d => d.signingKeyHistory.entries.map (·.2)

namespace WalletDb

variable [Crypto]

def loadAccountRecord (r : WalletRecord AccountRecord) (db : WalletDb) : WalletDb :=
  { db with
    accounts := db.accounts.insert r.walletRecordIndex r
    addressToAccountWalletRecordIndex := insertAll db.addressToAccountWalletRecordIndex
      (r.data.scanPublicKeys.map Crypto.address) r.walletRecordIndex }

def loadKeyRecord (r : WalletRecord KeyData) (db : WalletDb) : WalletDb :=
  let a := Crypto.address r.data.publicKey
  { db with
    keys := db.keys.insert a r
    btcToBtsAddress := (a :: Crypto.ptsAddresses r.data.publicKey).foldl
      (fun t b => t.insert b a) db.btcToBtsAddress }

end WalletDb

end BitShares
