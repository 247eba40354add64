import Vecble.Cache.ShardOps

/-! The sharded `Cache`: construction, routing a key to its shard by an FNV-1a style hash,
the operations that forward to one shard or visit all of them, reservations, and the
manual value lifecycle (`Alloc`, `Free`).
-/

namespace Vecble.ClockPro

open EntryType

namespace Shard

/-- A shard as `newShards` makes it: empty, with `maxSize` and `coldTarget` both `size`. -/
def empty (size : Int) : Shard where
  hits := 0
  misses := 0
  reservedSize := 0
  maxSize := size
  coldTarget := size
  blocks := fun _ => none
  files := fun _ => none
  arena := fun _ => none
  blockLinks := []
  fileLinks := fun _ => []
  entryAlloc := 0
  handHot := none
  handCold := none
  handTest := none
  sizeHot := 0
  sizeCold := 0
  sizeTest := 0
  countHot := 0
  countCold := 0
  countTest := 0

end Shard

/-- A `Cache`: its own reference count, its size, the ID allocator and the shards. -/
structure Cache where
  refs : Int
  maxSize : Int
  idAlloc : UInt64
  shards : List Shard

/-- `newShards`: `shards` empty shards, each with an even split of `size`. The split is
taken inside the loop over the shards, so with no shard nothing is divided: it never fails. -/
def newShards (size : Int) (shards : Nat) : Except Fault Cache :=
  .ok { refs := 1, maxSize := size, idAlloc := 1,
        shards := List.replicate shards (Shard.empty (size.tdiv shards)) }

/-- Every shard of a cache that `newShards` builds is the same empty shard. -/
theorem mem_newShards {size : Int} {shards : Nat} {cache : Cache} {s : Shard}
    (hnew : newShards size shards = .ok cache) (hs : s ∈ cache.shards)
    : s = Shard.empty (size.tdiv shards) := by
  cases hnew; exact List.eq_of_mem_replicate hs

theorem newShards_length {size : Int} {shards : Nat} {cache : Cache}
    (hnew : newShards size shards = .ok cache)
    : cache.shards.length = shards := by
  cases hnew; exact List.length_replicate _ _

/-- `minimumShardSize` in `New`: 4 MiB. -/
def minimumShardSize : Int := 4 * 1024 * 1024

/-- `New`, for `GOMAXPROCS` equal to `procs`: four shards per processor, or four shards
when that split would make shards smaller than `minimumShardSize`. -/
def new (size : Int) (procs : Nat) : Except Fault Cache :=
  let m := 4 * procs
  let m := if m > 4 ∧ size.tdiv m < minimumShardSize then 4 else m
  newShards size m

/-- `offset64` of the inlined FNV hash. -/
def offset64 : UInt64 := 14695981039346656037

/-- `prime64` of the inlined FNV hash. -/
def prime64 : UInt64 := 1099511628211

/-- One of the three loops of `getShard`: mix in the `n` low bytes of `x`, low first. -/
def fnvMix : Nat → UInt64 → UInt64 → UInt64
  | 0, h, _ => h
  | n + 1, h, x => fnvMix n ((h * prime64) ^^^ (x &&& 0xff)) (x >>> 8)

/-- `Cache.getShard`: the index of the shard holding a key; a zero ID panics. -/
def Cache.getShard (c : Cache) (id fileNum offset : UInt64) : Except Fault Nat :=
  if id = 0 then .error (.panic "pebble: 0 cache ID is invalid")
  else if c.shards.length = 0 then .error (.panic "runtime error: integer divide by zero")
  else
    let h := fnvMix 8 (fnvMix 8 (fnvMix 8 offset64 id) fileNum) offset
    .ok (h % c.shards.length.toUInt64).toNat

/-- Run a shard operation on shard `i` and store the shard back. -/
def Cache.onShard {α : Type} (c : Cache) (i : Nat) (f : Shard → Except Fault (Shard × α)) :
    Except Fault (Cache × α) :=
  match c.shards[i]? with
  | none => .error (.panic "runtime error: index out of range")
  | some s => (f s).map fun (s, a) => ({ c with shards := c.shards.set i s }, a)

/-- `Cache.Get`. -/
def Cache.get (c : Cache) (rc : Refs) (id fileNum offset : UInt64) :
    Except Fault (Cache × Refs × Handle) := do
  let i ← c.getShard id fileNum offset
  c.onShard i fun s => (s.get rc id fileNum offset).map fun (s, rc, h) => (s, rc, h)

/-- `Cache.Set`. -/
def Cache.set (fuel : Nat) (c : Cache) (rc : Refs) (id fileNum offset : UInt64) (value : Value) :
    Except Fault (Cache × Refs × Handle) := do
  let i ← c.getShard id fileNum offset
  c.onShard i fun s => (s.set fuel rc id fileNum offset value).map fun (s, rc, h) => (s, rc, h)

/-- `Cache.Delete`. -/
def Cache.delete (c : Cache) (rc : Refs) (id fileNum offset : UInt64) :
    Except Fault (Cache × Refs) := do
  let i ← c.getShard id fileNum offset
  c.onShard i fun s => s.delete rc id fileNum offset

/-- Run a shard operation on every shard in turn, threading the reference counts. -/
def forEachShard (f : Shard → Refs → Except Fault (Shard × Refs)) :
    List Shard → Refs → Except Fault (List Shard × Refs)
  | [], rc => .ok ([], rc)
  | s :: rest, rc => do
    let (s, rc) ← f s rc
    let (rest, rc) ← forEachShard f rest rc
    pure (s :: rest, rc)

/-- `Cache.EvictFile`: a zero ID panics; otherwise every shard evicts the file. -/
def Cache.evictFile (fuel : Nat) (c : Cache) (rc : Refs) (id fileNum : UInt64) :
    Except Fault (Cache × Refs) :=
  if id = 0 then .error (.panic "pebble: 0 cache ID is invalid")
  else (forEachShard (fun s rc => s.evictFile fuel rc id fileNum) c.shards rc).map
    fun (shards, rc) => ({ c with shards }, rc)

/-- `Cache.Reserve`: every shard reserves the rounded-up share `shardN`, which the
returned release action captures. The share is taken in `int64`, and a cache without shards
divides by zero. -/
def Cache.reserve (fuel : Nat) (c : Cache) (rc : Refs) (n : Int) :
    Except Fault (Cache × Refs × Int) :=
  let len : Int := c.shards.length
  if len = 0 then .error (.panic "runtime error: integer divide by zero")
  else
    let shardN := (wrap64 (n + len - 1)).tdiv len
    (forEachShard (fun s rc => s.reserve fuel rc shardN) c.shards rc).map
      fun (shards, rc) => ({ c with shards }, rc, shardN)

/-- The release action `Cache.Reserve` returns, with its captured `shardN`: a second call
panics; the new captured value is returned. -/
def Cache.releaseReservation (fuel : Nat) (c : Cache) (rc : Refs) (shardN : Int) :
    Except Fault (Cache × Refs × Int) :=
  if shardN = -1 then .error (.panic "pebble: cache reservation already released")
  else (forEachShard (fun s rc => s.reserve fuel rc (wrap64 (-shardN))) c.shards rc).map
    fun (shards, rc) => ({ c with shards }, rc, -1)

/-- `Cache.Ref`. -/
def Cache.ref (c : Cache) : Except Fault Cache :=
  let v := c.refs + 1
  if v ≤ 1 then .error (.panic s!"pebble: inconsistent reference count: {v}")
  else .ok { c with refs := v }

/-- `Cache.Unref`: dropping the last reference frees every shard. -/
def Cache.unref (fuel : Nat) (c : Cache) (rc : Refs) : Except Fault (Cache × Refs) :=
  let v := c.refs - 1
  let c := { c with refs := v }
  if v < 0 then .error (.panic s!"pebble: inconsistent reference count: {v}")
  else if v = 0 then
    (forEachShard (fun s rc => s.free fuel rc) c.shards rc).map
      fun (shards, rc) => ({ c with shards }, rc)
  else .ok (c, rc)

/-- `Cache.Size`: the resident bytes of all shards. -/
def Cache.size (c : Cache) : Int := (c.shards.map Shard.size).sum

/-- `Cache.NewID`. -/
def Cache.newID (c : Cache) : Cache × UInt64 :=
  let id := c.idAlloc + 1
  ({ c with idAlloc := id }, id)

/-- Modelled from the spec: `Alloc`, at a fresh address `addr`, a value of `n` bytes with one
reference; `newValue`, which it calls, is not in the source. -/
def alloc (rc : Refs) (addr n : Nat) : Value × Refs :=
  (⟨addr, n⟩, Function.update rc addr 1)

/-- `Free`: a value with more than one reference panics; otherwise it is released. -/
def free (rc : Refs) (v : Value) : Except Fault Refs :=
  let n := rc v.addr
  if n > 1 then .error (.panic s!"pebble: Value has been added to the cache: refs={n}")
  else .ok (release rc (some v))

end Vecble.ClockPro
