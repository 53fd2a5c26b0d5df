import Ucsb.AdapterLoops
import Ucsb.KeyBytes

namespace Ucsb

open scoped WordBytes

/-- `leveldb_t`, whose `to_slice` of a key is the memory of the key. Its engine does not fail. -/
structure LevelDb where
  store : ByteMap

namespace LevelDb

def upsert (db : LevelDb) (key : UInt64) (value : Bytes) : Reply Bytes × LevelDb :=
  (.ofStatus .ok, { db with store := db.store.put (keyBytes key) value })

def remove (db : LevelDb) (key : UInt64) : Reply Bytes × LevelDb :=
  (.ofStatus .ok, { db with store := db.store.erase (keyBytes key) })

def rangeSelect (db : LevelDb) (key length : UInt64) : Reply Bytes :=
  rangeLoop exported length 0 0 (db.store.seek (keyBytes key))

def scan (db : LevelDb) (key length : UInt64) : Reply Bytes :=
  rangeLoop (fun offset _ => offset) length 0 0 (db.store.seek (keyBytes key))

/-- Writes keep the store the image of a map over integer keys. -/
theorem upsert_store {db : LevelDb} {m : KeyMap} (h : db.store = m.rekey keyBytes) (key : UInt64)
    (value : Bytes) : (db.upsert key value).2.store = (m.put key value).rekey keyBytes := by
  rw [upsert, h, SortedMap.rekey_put keyBytes_injective]

theorem remove_store {db : LevelDb} {m : KeyMap} (h : db.store = m.rekey keyBytes) (key : UInt64) :
    (db.remove key).2.store = (m.erase key).rekey keyBytes := by
  rw [remove, h, SortedMap.rekey_erase keyBytes_injective]

end LevelDb

end Ucsb
