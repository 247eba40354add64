import Vecble.Cache.Shard

/-! The shard's public operations: `Get`, `Set`, `Delete`, `EvictFile`, `Free` and
`Reserve`. Values given up after the mutex is dropped are released by the callers of the
locked parts, as the source's deferred releases do.
-/

namespace Vecble.ClockPro

open EntryType

namespace Shard

/-- The part of `shard.Get` under the shared lock: the value of the key's entry, whose
referenced bit is set when it has one. -/
def getLocked (c : Shard) (rc : Refs) (k : Key) : Except Fault (Shard × Refs × Option Value) :=
  match c.blocks k with
  | none => pure (c, rc, none)
  | some p => do
    let e ← c.entry p
    match e.val with
    | none => pure (c, rc, none)
    | some v => pure (c.setEntry p { e with referenced := true }, acquire rc v, some v)

/-- `shard.Get`: a handle on the key's value, counted as a hit or a miss. -/
def get (c : Shard) (rc : Refs) (id fileNum offset : UInt64) :
    Except Fault (Shard × Refs × Handle) := do
  let (c, rc, value) ← c.getLocked rc ⟨id, fileNum, offset⟩
  match value with
  | none => pure ({ c with misses := c.misses + 1 }, rc, ⟨none⟩)
  | some v => pure ({ c with hits := c.hits + 1 }, rc, ⟨some v⟩)

/-- The absent-key case of `shard.Set`: a new cold entry, declined when it does not fit. -/
def setAbsent (fuel : Nat) (c : Shard) (rc : Refs) (k : Key) (value : Value) :
    Except Fault (Shard × Refs) := do
  let p := c.entryAlloc
  let e := newEntry k value.len
  let c := { c with entryAlloc := p + 1, arena := Function.update c.arena p (some e) }
  let (c, rc) := c.setValue rc p e (some value)
  let (c, rc, added) ← c.metaAdd fuel rc k p
  if added then
    pure ({ c with sizeCold := c.sizeCold + value.len, countCold := c.countCold + 1 }, rc)
  else pure (c.freeEntry rc p)

/-- The resident case of `shard.Set`: replace the value of the hot or cold entry `e` at
`p`, recount its size and evict. -/
def setResident (fuel : Nat) (c : Shard) (rc : Refs) (p : Nat) (e : Entry) (value : Value) :
    Except Fault (Shard × Refs) :=
  let (c, rc) := c.setValue rc p e (some value)
  let delta := (value.len : Int) - e.size
  let c := c.setEntry p { e with val := some value, referenced := true, size := value.len }
  let c := if e.ptype = etHot then { c with sizeHot := c.sizeHot + delta }
    else { c with sizeCold := c.sizeCold + delta }
  c.evict fuel rc

/-- The ghost case of `shard.Set`: take the test entry `e` at `p` out, raise `coldTarget`
by the new size and add the entry back as a hot page. -/
def setTest (fuel : Nat) (c : Shard) (rc : Refs) (k : Key) (p : Nat) (e : Entry)
    (value : Value) : Except Fault (Shard × Refs) := do
  let c := { c with sizeTest := c.sizeTest - e.size, countTest := c.countTest - 1 }
  let (c, v) ← c.metaDel p
  let rc := release rc v
  let e := { e with val := none, size := value.len }
  let coldTarget := c.coldTarget + e.size
  let c := { c with coldTarget :=
    if coldTarget > c.targetSize then c.targetSize else coldTarget }
  let e := { e with referenced := false }
  let (c, rc) := c.setValue rc p e (some value)
  let c := c.setEntry p { e with val := some value, ptype := etHot }
  let (c, rc, added) ← c.metaAdd fuel rc k p
  if added then
    pure ({ c with sizeHot := c.sizeHot + e.size, countHot := c.countHot + 1 }, rc)
  else pure (c.freeEntry rc p)

/-- `shard.Set`: the value must carry exactly one reference, which passes to the returned
handle; the cache takes a reference of its own when it keeps the value. -/
def set (fuel : Nat) (c : Shard) (rc : Refs) (id fileNum offset : UInt64) (value : Value) :
    Except Fault (Shard × Refs × Handle) :=
  let n := rc value.addr
  if n ≠ 1 then .error (.panic s!"pebble: Value has already been added to the cache: refs={n}")
  else do
    let k : Key := ⟨id, fileNum, offset⟩
    let (c, rc) ←
      match c.blocks k with
      | none => setAbsent fuel c rc k value
      | some p => do
        let e ← c.entry p
        match e.val with
        | some _ => setResident fuel c rc p e value
        | none => setTest fuel c rc k p e value
    c.checkConsistency
    pure (c, rc, ⟨some value⟩)

/-- The part of `shard.Delete` under the exclusive lock; the evicted value is released
by the caller after unlocking. -/
def deleteLocked (c : Shard) (rc : Refs) (k : Key) :
    Except Fault (Shard × Refs × Option Value) :=
  match c.blocks k with
  | none => pure (c, rc, none)
  | some p => do
    let (c, rc, v) ← c.metaEvict rc p
    c.checkConsistency
    pure (c, rc, v)

/-- `shard.Delete`: a shared-lock check, the locked eviction, then the release. -/
def delete (c : Shard) (rc : Refs) (id fileNum offset : UInt64) :
    Except Fault (Shard × Refs) :=
  let k : Key := ⟨id, fileNum, offset⟩
  if (c.blocks k).isNone then .ok (c, rc)
  else do
    let (c, rc, deletedValue) ← c.deleteLocked rc k
    pure (c, release rc deletedValue)

/-- `blocksPerMutexAcquisition` in `shard.evictFileRun`. -/
def blocksPerMutexAcquisition : Nat := 5

/-- The loop of `shard.evictFileRun`: evict `b` and go on along its file ring while the
batch has room; returns the collected values and whether entries remain. -/
def evictFileRunLoop : Nat → Shard → Refs → Nat → List (Option Value) →
    Except Fault (Shard × Refs × List (Option Value) × Bool)
  | 0, c, rc, _, obsoleteValues => pure (c, rc, obsoleteValues, true)
  | room + 1, c, rc, b, obsoleteValues => do
    let e ← c.entry b
    let n := ringNext (c.fileLinks e.key.file) b
    let (c, rc, v) ← c.metaEvict rc b
    let obsoleteValues := obsoleteValues ++ [v]
    if b = n then
      c.checkConsistency
      pure (c, rc, obsoleteValues, false)
    else evictFileRunLoop room c rc n obsoleteValues

/-- `shard.evictFileRun`: one batch under the lock, the releases after unlocking; the flag
says whether more of the file remains. -/
def evictFileRun (c : Shard) (rc : Refs) (fkey : Key) : Except Fault (Shard × Refs × Bool) :=
  match c.files fkey with
  | none => pure (c, rc, false)
  | some b => do
    let (c, rc, obsoleteValues, more) ← evictFileRunLoop blocksPerMutexAcquisition c rc b []
    pure (c, obsoleteValues.foldl release rc, more)

/-- The loop of `shard.EvictFile`, given a budget of batches. -/
def evictFileLoop : Nat → Shard → Refs → Key → Except Fault (Shard × Refs)
  | 0, _, _, _ => .error .outOfFuel
  | n + 1, c, rc, fkey => do
    let (c, rc, more) ← c.evictFileRun rc fkey
    if more then evictFileLoop n c rc fkey else pure (c, rc)

/-- `shard.EvictFile`. -/
def evictFile (fuel : Nat) (c : Shard) (rc : Refs) (id fileNum : UInt64) :
    Except Fault (Shard × Refs) :=
  c.evictFileLoop fuel rc ⟨id, fileNum, 0⟩

/-- The loop of `shard.Free`: remove the entry under the hot hand until none is left. -/
def freeLoop : Nat → Shard → Refs → Except Fault (Shard × Refs)
  | 0, _, _ => .error .outOfFuel
  | n + 1, c, rc =>
    match c.handHot with
    | none => pure (c, rc)
    | some p => do
      let (c, v) ← c.metaDel p
      let (c, rc) := c.freeEntry (release rc v) p
      freeLoop n c rc

/-- `shard.Free`: release every entry, then close both maps. -/
def free (fuel : Nat) (c : Shard) (rc : Refs) : Except Fault (Shard × Refs) := do
  let (c, rc) ← c.freeLoop fuel rc
  pure ({ c with blocks := fun _ => none, files := fun _ => none }, rc)

/-- `shard.Reserve`: shrink (or, for negative `n`, grow back) the target size, keep
`coldTarget` within it and evict. -/
def reserve (fuel : Nat) (c : Shard) (rc : Refs) (n : Int) : Except Fault (Shard × Refs) := do
  let c := { c with reservedSize := wrap64 (c.reservedSize + n) }
  let targetSize := c.targetSize
  let c := if c.coldTarget > targetSize then { c with coldTarget := targetSize } else c
  let (c, rc) ← c.evict fuel rc
  c.checkConsistency
  pure (c, rc)

end Shard

end Vecble.ClockPro
