import Mathlib.Data.Multiset.Basic
import BitShares.Lib.OrdMap

/-!
# Tables over leveldb

`level_map` is a table on disk, and `cached_level_map` and `fast_level_map` keep a copy of one in
memory.  The first can put off its writes until it is told to flush, the second can do without its
files for a while and write all of them again.

leveldb is taken to be an ordered map in each directory, and a batch to be written as a whole.  A
call that throws may leave the table changed, so every call gives the table after it in either case.
-/

namespace BitShares

inductive DbError where
  | notOpen
  | alreadyOpen
  | openFailure
  | outOfRange
  | keyNotFound
  | noPath
  deriving DecidableEq

variable {Dir K V : Type} [DecidableEq Dir] [LinearOrder K]

/-! ## `level_map` -/

/-- The databases that leveldb keeps, by their directories, and the one that is open. -/
structure LevelMap (Dir K V : Type) [LinearOrder K] where
  files : Dir → Option (OrdMap K V)
  dir : Option Dir := none

namespace LevelMap

def isOpen (db : LevelMap Dir K V) : Bool := db.dir.isSome

def contents (db : LevelMap Dir K V) : OrdMap K V := (db.dir.bind db.files).getD ∅

/-- `open`. -/
def openDir (db : LevelMap Dir K V) (dir : Dir) (create : Bool) :
    Except DbError (LevelMap Dir K V) :=
  if db.isOpen then .error .alreadyOpen
  else if (db.files dir).isSome then .ok { db with dir := some dir }
  else if create then .ok { files := Function.update db.files dir (some ∅), dir := some dir }
  else .error .openFailure

def close (db : LevelMap Dir K V) : LevelMap Dir K V := { db with dir := none }

def write (db : LevelMap Dir K V) (change : OrdMap K V → OrdMap K V) :
    Except DbError (LevelMap Dir K V) :=
  match db.dir with
  | none => .error .notOpen
  | some dir => .ok
    { db with files := Function.update db.files dir (some (change db.contents)) }

def store (db : LevelMap Dir K V) (key : K) (value : V) : Except DbError (LevelMap Dir K V) :=
  db.write (·.set key value)

def remove (db : LevelMap Dir K V) (key : K) : Except DbError (LevelMap Dir K V) :=
  db.write (·.erase key)

/-- `last`: the variable for the key keeps what it held when there is no entry. -/
def lastKey (db : LevelMap Dir K V) (key : K) : Except DbError K :=
  if db.isOpen then .ok ((db.contents.entries.getLast?.map (·.1)).getD key) else .error .notOpen

/-- An iterator, which only an open table gives. -/
def iterator (db : LevelMap Dir K V) (place : OrdMap K V → OrdMap.Iterator K V) :
    Except DbError (OrdMap.Iterator K V) :=
  if db.isOpen then .ok (place db.contents) else .error .notOpen

def removeAll (db : LevelMap Dir K V) (dir : Dir) : LevelMap Dir K V :=
  { db with files := Function.update db.files dir none }

end LevelMap

/-- A batch with the values that `cache` has for keys. -/
def batchStore (cache : OrdMap K V) (keys : List K) (m : OrdMap K V) : OrdMap K V :=
  keys.foldl (fun m k => (cache.find k).elim m (m.set k)) m

def batchRemove (keys : List K) (m : OrdMap K V) : OrdMap K V := keys.foldl OrdMap.erase m

/-! ## `cached_level_map` -/

structure CachedLevelMap (Dir K V : Type) [LinearOrder K] where
  db : LevelMap Dir K V
  cache : OrdMap K V := ∅
  dirtyStore : OrdSet K := ∅
  dirtyRemove : OrdSet K := ∅
  writeThrough : Bool := true

namespace CachedLevelMap

/-- `open`: what the cache has already is not loaded over. -/
def openDir (s : CachedLevelMap Dir K V) (dir : Dir) (create writeThrough : Bool) :
    Except DbError Unit × CachedLevelMap Dir K V :=
  match s.db.openDir dir create with
  | .error e => (.error e, s)
  | .ok db => (.ok (), { s with
      db := db
      cache := s.cache.emplaceAll db.contents.entries
      writeThrough := writeThrough })

/-- `flush`.  When a key of `_dirty_store` is not in the cache, the batch is written up to there as
it goes out of scope. -/
def flush (s : CachedLevelMap Dir K V) : Except DbError Unit × CachedLevelMap Dir K V :=
  let keys := s.dirtyStore.toList.takeWhile fun k => (s.cache.find k).isSome
  if keys = s.dirtyStore.toList then
    match s.db.write fun m => batchRemove s.dirtyRemove.toList (batchStore s.cache keys m) with
    | .error e => (.error e, s)
    | .ok db => (.ok (), { s with db := db, dirtyStore := ∅, dirtyRemove := ∅ })
  else
    match s.db.write fun m => batchStore s.cache keys m with
    | .error e => (.error e, s)
    | .ok db => (.error .outOfRange, { s with db := db })

def close (s : CachedLevelMap Dir K V) : Except DbError Unit × CachedLevelMap Dir K V :=
  match if s.db.isOpen then s.flush else (.ok (), s) with
  | (.error e, s) => (.error e, s)
  | (.ok (), s) => (.ok (), { s with
      db := s.db.close, cache := ∅, dirtyStore := ∅, dirtyRemove := ∅ })

def setWriteThrough (s : CachedLevelMap Dir K V) (writeThrough : Bool) :
    Except DbError Unit × CachedLevelMap Dir K V :=
  if writeThrough = s.writeThrough then (.ok (), s)
  else
    match if writeThrough then s.flush else (.ok (), s) with
    | (.error e, s) => (.error e, s)
    | (.ok (), s) => (.ok (), { s with writeThrough := writeThrough })

/-- `store`: the cache is changed first. -/
def store (s : CachedLevelMap Dir K V) (key : K) (value : V) :
    Except DbError Unit × CachedLevelMap Dir K V :=
  let s := { s with cache := s.cache.set key value }
  if s.writeThrough then
    match s.db.store key value with
    | .error e => (.error e, s)
    | .ok db => (.ok (), { s with db := db })
  else (.ok (), { s with
    dirtyStore := s.dirtyStore.insert key
    dirtyRemove := OrdSet.erase s.dirtyRemove key })

def remove (s : CachedLevelMap Dir K V) (key : K) :
    Except DbError Unit × CachedLevelMap Dir K V :=
  let s := { s with cache := s.cache.erase key }
  if s.writeThrough then
    match s.db.remove key with
    | .error e => (.error e, s)
    | .ok db => (.ok (), { s with db := db })
  else (.ok (), { s with
    dirtyStore := OrdSet.erase s.dirtyStore key
    dirtyRemove := s.dirtyRemove.insert key })

/-! ### What a caller sees -/

def fetchOptional (s : CachedLevelMap Dir K V) (key : K) : Option V := s.cache.find key

def fetch (s : CachedLevelMap Dir K V) (key : K) : Except DbError V :=
  match s.cache.find key with
  | some value => .ok value
  | none => .error .keyNotFound

def begin (s : CachedLevelMap Dir K V) : OrdMap.Iterator K V := s.cache.first

def last (s : CachedLevelMap Dir K V) : OrdMap.Iterator K V := s.cache.last

def find (s : CachedLevelMap Dir K V) (key : K) : OrdMap.Iterator K V := s.cache.iteratorAt key

def lowerBound (s : CachedLevelMap Dir K V) (key : K) : OrdMap.Iterator K V :=
  s.cache.lowerBound key

end CachedLevelMap

inductive CachedCall (Dir K V : Type) where
  | openDir (dir : Dir) (create writeThrough : Bool)
  | store (key : K) (value : V)
  | remove (key : K)
  | flush
  | setWriteThrough (writeThrough : Bool)
  | close

def CachedLevelMap.step (s : CachedLevelMap Dir K V) :
    CachedCall Dir K V → Except DbError Unit × CachedLevelMap Dir K V
  | .openDir dir create writeThrough => s.openDir dir create writeThrough
  | .store key value => s.store key value
  | .remove key => s.remove key
  | .flush => s.flush
  | .setWriteThrough writeThrough => s.setWriteThrough writeThrough
  | .close => s.close

/-! ## `fast_level_map` -/

/-- The cache is unordered: only membership and the entries as a whole are read of it. -/
structure FastLevelMap (Dir K V : Type) [LinearOrder K] where
  ldb : LevelMap Dir K V
  ldbPath : Option Dir := none
  ldbEnabled : Bool := true
  cache : OrdMap K V := ∅

namespace FastLevelMap

/-- `open`. -/
def openDir (s : FastLevelMap Dir K V) (path : Dir) :
    Except DbError Unit × FastLevelMap Dir K V :=
  if s.ldbPath.isSome then (.error .alreadyOpen, s)
  else
    let s := { s with ldbPath := some path }
    match s.ldb.openDir path true with
    | .error e => (.error e, s)
    | .ok ldb => (.ok (), { s with
        ldb := ldb, cache := s.cache.emplaceAll ldb.contents.entries })

def toggleLeveldb (s : FastLevelMap Dir K V) (enabled : Bool) :
    Except DbError Unit × FastLevelMap Dir K V :=
  match s.ldbPath with
  | none => (.error .noPath, s)
  | some path =>
    if enabled = s.ldbEnabled then (.ok (), s)
    else if enabled then
      match s.ldb.openDir path true with
      | .error e => (.error e, s)
      | .ok ldb =>
        match ldb.write (batchStore s.cache (s.cache.entries.map (·.1))) with
        | .error e => (.error e, { s with ldb := ldb })
        | .ok ldb => (.ok (), { s with ldb := ldb, ldbEnabled := true })
    else (.ok (), { s with ldb := s.ldb.close.removeAll path, ldbEnabled := false })

def close (s : FastLevelMap Dir K V) : Except DbError Unit × FastLevelMap Dir K V :=
  if s.ldbPath.isSome then
    match if s.ldbEnabled then (.ok (), s) else s.toggleLeveldb true with
    | (.error e, s) => (.error e, s)
    | (.ok (), s) => (.ok (), { s with ldb := s.ldb.close, ldbPath := none, cache := ∅ })
  else (.ok (), { s with cache := ∅ })

/-- `store`: the cache is changed first. -/
def store (s : FastLevelMap Dir K V) (key : K) (value : V) :
    Except DbError Unit × FastLevelMap Dir K V :=
  let s := { s with cache := s.cache.set key value }
  if s.ldbEnabled then
    match s.ldb.store key value with
    | .error e => (.error e, s)
    | .ok ldb => (.ok (), { s with ldb := ldb })
  else (.ok (), s)

def remove (s : FastLevelMap Dir K V) (key : K) : Except DbError Unit × FastLevelMap Dir K V :=
  let s := { s with cache := s.cache.erase key }
  if s.ldbEnabled then
    match s.ldb.remove key with
    | .error e => (.error e, s)
    | .ok ldb => (.ok (), { s with ldb := ldb })
  else (.ok (), s)

/-! ### What a caller sees -/

def size (s : FastLevelMap Dir K V) : Nat := s.cache.entries.length

def unorderedFind (s : FastLevelMap Dir K V) (key : K) : Option V := s.cache.find key

/-- The entries from `unordered_begin` to `unordered_end`. -/
def unordered (s : FastLevelMap Dir K V) : Multiset (K × V) := s.cache.entries

def orderedFirst (s : FastLevelMap Dir K V) : Except DbError (OrdMap.Iterator K V) :=
  s.ldb.iterator (·.first)

def orderedLast (s : FastLevelMap Dir K V) : Except DbError (OrdMap.Iterator K V) :=
  s.ldb.iterator (·.last)

def orderedLowerBound (s : FastLevelMap Dir K V) (key : K) : Except DbError (OrdMap.Iterator K V) :=
  s.ldb.iterator (·.lowerBound key)

end FastLevelMap

inductive FastCall (Dir K V : Type) where
  | openDir (path : Dir)
  | store (key : K) (value : V)
  | remove (key : K)
  | toggleLeveldb (enabled : Bool)
  | close

def FastLevelMap.step (s : FastLevelMap Dir K V) :
    FastCall Dir K V → Except DbError Unit × FastLevelMap Dir K V
  | .openDir path => s.openDir path
  | .store key value => s.store key value
  | .remove key => s.remove key
  | .toggleLeveldb enabled => s.toggleLeveldb enabled
  | .close => s.close

end BitShares
