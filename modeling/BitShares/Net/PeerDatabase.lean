import BitShares.Db.LevelMap
import BitShares.Lib.MultiIndex
import Mathlib.Algebra.Group.Nat.Defs

/-!
# The peer database

`peer_database`: the peers that a node has heard of, each with its last contact, in memory and in
leveldb.  A record gets its key in leveldb when its endpoint is new: one more than the largest key.
-/

namespace BitShares

structure Endpoint where
  ip : UInt32
  port : UInt16
  deriving DecidableEq

inductive LastConnectionDisposition where
  | neverAttemptedToConnect
  | lastConnectionFailed
  | lastConnectionRejected
  | lastConnectionHandshakingFailed
  | lastConnectionSucceeded
  deriving DecidableEq

structure PotentialPeerRecord where
  endpoint : Endpoint
  lastSeenTime : Nat := 0
  lastConnectionDisposition : LastConnectionDisposition := .neverAttemptedToConnect
  lastConnectionAttemptTime : Nat := 0
  numberOfSuccessfulConnectionAttempts : Nat := 0
  numberOfFailedConnectionAttempts : Nat := 0
  lastError : Option String := none
  deriving DecidableEq

abbrev DatabaseKey := Fin (2 ^ 32)

instance DatabaseKey.neZero : NeZero (2 ^ 32) := ⟨by decide⟩

structure PotentialPeerDatabaseEntry where
  databaseKey : DatabaseKey
  peerRecord : PotentialPeerRecord
  deriving DecidableEq

namespace PotentialPeerDatabaseEntry

def getLastSeenTime (e : PotentialPeerDatabaseEntry) : Nat := e.peerRecord.lastSeenTime

def getEndpoint (e : PotentialPeerDatabaseEntry) : Endpoint := e.peerRecord.endpoint

end PotentialPeerDatabaseEntry

abbrev PotentialPeerSet :=
  MultiIndex PotentialPeerDatabaseEntry.getLastSeenTime PotentialPeerDatabaseEntry.getEndpoint

structure PeerDatabase (Dir : Type) where
  leveldb : LevelMap Dir DatabaseKey PotentialPeerRecord
  potentialPeerSet : PotentialPeerSet := ∅

def maximumPeerdbSize : Nat := 1000

namespace PeerDatabase

variable {Dir : Type} [DecidableEq Dir]

def load (entries : List (DatabaseKey × PotentialPeerRecord)) : PotentialPeerSet :=
  MultiIndex.insertAll ∅ (entries.map fun e => ⟨e.1, e.2⟩)

def prune (s : PeerDatabase Dir) :
    List PotentialPeerDatabaseEntry → Except DbError Unit × PeerDatabase Dir
  | [] => (.ok (), s)
  | e :: rest =>
    match s.leveldb.remove e.databaseKey with
    | .error err => (.error err, s)
    | .ok leveldb =>
      prune { leveldb, potentialPeerSet := s.potentialPeerSet.erase e.getEndpoint } rest

/-- `open`, once leveldb is open. -/
def fill (leveldb : LevelMap Dir DatabaseKey PotentialPeerRecord) :
    Except DbError Unit × PeerDatabase Dir :=
  let s : PeerDatabase Dir := { leveldb, potentialPeerSet := load leveldb.contents.entries }
  if s.potentialPeerSet.entries.length > maximumPeerdbSize then
    s.prune (s.potentialPeerSet.entries.drop maximumPeerdbSize)
  else (.ok (), s)

/-- `open`: a database that cannot be opened is deleted. -/
def openFile (s : PeerDatabase Dir) (file : Dir) : Except DbError Unit × PeerDatabase Dir :=
  match s.leveldb.openDir file true with
  | .ok leveldb => fill leveldb
  | .error .openFailure =>
    let s := { s with leveldb := s.leveldb.removeAll file }
    match s.leveldb.openDir file true with
    | .ok leveldb => fill leveldb
    | .error e => (.error e, s)
  | .error e => (.error e, s)

def close (s : PeerDatabase Dir) : Except DbError Unit × PeerDatabase Dir :=
  (.ok (), { leveldb := s.leveldb.close, potentialPeerSet := ∅ })

/-- `clear`: a removal that throws is passed over. -/
def clear (s : PeerDatabase Dir) : Except DbError Unit × PeerDatabase Dir :=
  if s.leveldb.isOpen then
    let keys := s.leveldb.contents.entries.map (·.1)
    (.ok (), {
      leveldb := keys.foldl (fun db key => (db.remove key).toOption.getD db) s.leveldb
      potentialPeerSet := ∅ })
  else (.error .notOpen, s)

def erase (s : PeerDatabase Dir) (endpointToErase : Endpoint) :
    Except DbError Unit × PeerDatabase Dir :=
  match s.potentialPeerSet.find endpointToErase with
  | none => (.ok (), s)
  | some e =>
    match s.leveldb.remove e.databaseKey with
    | .error err => (.error err, s)
    | .ok leveldb =>
      (.ok (), { leveldb, potentialPeerSet := s.potentialPeerSet.erase endpointToErase })

/-- `update_entry`, where `lastDatabaseKey` holds `uninitialised` until leveldb gives a key. -/
def updateEntry (s : PeerDatabase Dir) (updatedRecord : PotentialPeerRecord)
    (uninitialised : DatabaseKey) : Except DbError Unit × PeerDatabase Dir :=
  match s.potentialPeerSet.find updatedRecord.endpoint with
  | some e =>
    let s := { s with
      potentialPeerSet := s.potentialPeerSet.replace ⟨e.databaseKey, updatedRecord⟩ }
    match s.leveldb.store e.databaseKey updatedRecord with
    | .error err => (.error err, s)
    | .ok leveldb => (.ok (), { s with leveldb })
  | none =>
    match s.leveldb.lastKey uninitialised with
    | .error err => (.error err, s)
    | .ok lastDatabaseKey =>
      let newDatabaseKey := lastDatabaseKey + 1
      let s := { s with
        potentialPeerSet := s.potentialPeerSet.insert ⟨newDatabaseKey, updatedRecord⟩ }
      match s.leveldb.store newDatabaseKey updatedRecord with
      | .error err => (.error err, s)
      | .ok leveldb => (.ok (), { s with leveldb })

/-! ### What a caller sees -/

def lookupEntryForEndpoint (s : PeerDatabase Dir) (endpointToLookup : Endpoint) :
    Option PotentialPeerRecord :=
  (s.potentialPeerSet.find endpointToLookup).map (·.peerRecord)

def size (s : PeerDatabase Dir) : Nat := s.potentialPeerSet.entries.length

def getAll (s : PeerDatabase Dir) : Except DbError (List PotentialPeerRecord) :=
  if s.leveldb.isOpen then .ok (s.leveldb.contents.entries.map (·.2)) else .error .notOpen

end PeerDatabase

inductive PeerDatabaseCall (Dir : Type) where
  | openFile (file : Dir)
  | updateEntry (updatedRecord : PotentialPeerRecord) (uninitialised : DatabaseKey)
  | erase (endpointToErase : Endpoint)
  | clear
  | close

def PeerDatabase.step {Dir : Type} [DecidableEq Dir] (s : PeerDatabase Dir) :
    PeerDatabaseCall Dir → Except DbError Unit × PeerDatabase Dir
  | .openFile file => s.openFile file
  | .updateEntry updatedRecord uninitialised => s.updateEntry updatedRecord uninitialised
  | .erase endpointToErase => s.erase endpointToErase
  | .clear => s.clear
  | .close => s.close

end BitShares
