import Vecble.Cache.Entry

/-! A shard of the block cache: its state, the bookkeeping of `metaAdd`, `metaDel` and
`metaEvict`, the three clock hands, and the operations run under the shard's mutex.
The build without the `invariants` tag is modelled, where `metaCheck` does nothing.
-/

namespace Vecble.ClockPro

open EntryType

/-- How a model run ends other than normally: a Go panic with its message, a read through
a nil entry pointer, a read of an entry that was freed, or an exhausted step budget. -/
inductive Fault where
  | panic (msg : String)
  | nilEntry
  | freedEntry
  | outOfFuel
deriving DecidableEq, Repr

/-- A `Handle`: a strong reference to a value, or none. -/
structure Handle where
  value : Option Value
deriving DecidableEq, Repr

/-- `Handle.Valid`. -/
def Handle.valid (h : Handle) : Bool := h.value.isSome

/-- `Handle.Release`: drop the handle's reference. -/
def Handle.release (h : Handle) (rc : Refs) : Refs := ClockPro.release rc h.value

/-- A `shard`. `blockLinks` lists the clock ring in link order and `fileLinks k` the file
ring of the file key `k`; `arena` holds the live entries by address, `entryAlloc` is the
next fresh address. -/
structure Shard where
  hits : Nat
  misses : Nat
  reservedSize : Int
  maxSize : Int
  coldTarget : Int
  blocks : Key → Option Nat
  files : Key → Option Nat
  arena : Nat → Option Entry
  blockLinks : List Nat
  fileLinks : Key → List Nat
  entryAlloc : Nat
  handHot : Option Nat
  handCold : Option Nat
  handTest : Option Nat
  sizeHot : Int
  sizeCold : Int
  sizeTest : Int
  countHot : Int
  countCold : Int
  countTest : Int

/-- Go's `int64` arithmetic: the two's-complement residue of `x` in `[-2^63, 2^63)`. -/
def wrap64 (x : Int) : Int :=
  (x + 9223372036854775808) % 18446744073709551616 - 9223372036854775808

/-- A value of Go's `int64`. -/
def InInt64 (x : Int) : Prop := -9223372036854775808 ≤ x ∧ x < 9223372036854775808

instance : DecidablePred InInt64 := fun _ => inferInstanceAs (Decidable (_ ∧ _))

theorem wrap64_mem (x : Int) : InInt64 (wrap64 x) := by
  unfold InInt64 wrap64; omega

/-- `int64` arithmetic is exact on results that fit. -/
theorem wrap64_of_mem {x : Int} (h : InInt64 x) : wrap64 x = x := by
  unfold InInt64 at h; unfold wrap64; omega

/-- Adding `int64(-n)` after `n` gives an `int64` back. -/
theorem wrap64_add_neg {x n : Int} (h : InInt64 x) : wrap64 (wrap64 (x + n) + wrap64 (-n)) = x := by
  unfold InInt64 at h; unfold wrap64; omega

namespace Shard

/-- `shard.targetSize`: the budget for resident bytes, never below one. -/
def targetSize (c : Shard) : Int :=
  let target := wrap64 (c.maxSize - c.reservedSize)
  if target < 1 then 1 else target

/-- `shard.Size`: the resident bytes. -/
def size (c : Shard) : Int := c.sizeHot + c.sizeCold

/-- Read the entry at an address; reading a freed entry is a fault. -/
def entry (c : Shard) (p : Nat) : Except Fault Entry :=
  match c.arena p with
  | some e => .ok e
  | none => .error .freedEntry

/-- Read the entry a possibly nil pointer designates. -/
def deref (c : Shard) : Option Nat → Except Fault (Nat × Entry)
  | none => .error .nilEntry
  | some p => (c.entry p).map (p, ·)

/-- Write an entry back. -/
def setEntry (c : Shard) (p : Nat) (e : Entry) : Shard :=
  { c with arena := Function.update c.arena p (some e) }

/-- `entry.next` through a possibly nil pointer. -/
def next (c : Shard) (h : Option Nat) : Option Nat := h.map (ringNext c.blockLinks)

/-- `entry.prev` through a possibly nil pointer. -/
def prev (c : Shard) (h : Option Nat) : Option Nat := h.map (ringPrev c.blockLinks)

/-- Modelled from the spec: `entry.setValue`, acquire the new value, then release the
one the entry `e` at `p` held. -/
def setValue (c : Shard) (rc : Refs) (p : Nat) (e : Entry) (v : Option Value) :
    Shard × Refs :=
  let rc := match v with
    | some v => acquire rc v
    | none => rc
  (c.setEntry p { e with val := v }, release rc e.val)

/-- Modelled from the spec: `entry.free`, drop the entry's value and return its memory. -/
def freeEntry (c : Shard) (rc : Refs) (p : Nat) : Shard × Refs :=
  match c.arena p with
  | some e => ({ c with arena := Function.update c.arena p none }, release rc e.val)
  | none => (c, rc)

/-- `shard.checkConsistency`: panic on a negative or mismatched counter. -/
def checkConsistency (c : Shard) : Except Fault Unit :=
  let ch := c.countHot
  let sh := c.sizeHot
  let cc := c.countCold
  let sc := c.sizeCold
  let ct := c.countTest
  let st := c.sizeTest
  if sh < 0 ∨ sc < 0 ∨ st < 0 ∨ ch < 0 ∨ cc < 0 ∨ ct < 0 then
    .error (.panic s!"pebble: unexpected negative: {ch} ({sh} bytes) hot, {cc} ({sc} bytes) cold, {ct} ({st} bytes) test")
  else if sh > 0 ∧ ch = 0 then
    .error (.panic s!"pebble: mismatch {sh} hot size, {ch} hot count")
  else if sc > 0 ∧ cc = 0 then
    .error (.panic s!"pebble: mismatch {sc} cold size, {cc} cold count")
  else if st > 0 ∧ ct = 0 then
    .error (.panic s!"pebble: mismatch {st} test size, {ct} test count")
  else .ok ()

-----------------------------------------------------------------------------------------
-- metaAdd, metaDel and metaEvict
-----------------------------------------------------------------------------------------

/-- `metaAdd`'s linking of the entry at `p` into the clock ring: the first entry takes all
three hands, any later one joins just before the hot hand (`handHot.link(e)`); a cold hand
left on the hot hand steps back. -/
def linkBlock (c : Shard) (p : Nat) : Shard :=
  let c := match c.handHot with
    | none => { c with handHot := some p, handCold := some p, handTest := some p,
                       blockLinks := [p] }
    | some h => { c with blockLinks := linkBefore h p c.blockLinks }
  if c.handCold = c.handHot then { c with handCold := c.prev c.handCold } else c

/-- `metaAdd`'s linking of the entry at `p` into the ring of file `fkey`: the first entry of
the file enters the files map, a later one joins just before it (`fileBlocks.linkFile(e)`). -/
def linkFile (c : Shard) (fkey : Key) (p : Nat) : Shard :=
  match c.files fkey with
  | none => { c with files := Function.update c.files fkey (some p),
                     fileLinks := Function.update c.fileLinks fkey [p] }
  | some b =>
    { c with fileLinks := Function.update c.fileLinks fkey (linkBefore b p (c.fileLinks fkey)) }

/-- The linking half of `metaAdd`, after its eviction and size check: enter the entry at
`p` in the blocks map, the clock ring and its file ring. -/
def link (c : Shard) (key : Key) (p : Nat) : Shard :=
  let c := { c with blocks := Function.update c.blocks key (some p) }
  (c.linkBlock p).linkFile key.file p

section LinkFields

variable {c : Shard} {fkey : Key} {p : Nat}

@[simp] theorem linkBlock_arena : (c.linkBlock p).arena = c.arena := by
  unfold linkBlock; cases c.handHot <;> dsimp only <;> split <;> rfl
@[simp] theorem linkBlock_blocks : (c.linkBlock p).blocks = c.blocks := by
  unfold linkBlock; cases c.handHot <;> dsimp only <;> split <;> rfl
@[simp] theorem linkBlock_files : (c.linkBlock p).files = c.files := by
  unfold linkBlock; cases c.handHot <;> dsimp only <;> split <;> rfl
@[simp] theorem linkBlock_fileLinks : (c.linkBlock p).fileLinks = c.fileLinks := by
  unfold linkBlock; cases c.handHot <;> dsimp only <;> split <;> rfl
@[simp] theorem linkBlock_entryAlloc : (c.linkBlock p).entryAlloc = c.entryAlloc := by
  unfold linkBlock; cases c.handHot <;> dsimp only <;> split <;> rfl
@[simp] theorem linkBlock_coldTarget : (c.linkBlock p).coldTarget = c.coldTarget := by
  unfold linkBlock; cases c.handHot <;> dsimp only <;> split <;> rfl
@[simp] theorem linkBlock_targetSize : (c.linkBlock p).targetSize = c.targetSize := by
  unfold linkBlock; cases c.handHot <;> dsimp only <;> split <;> rfl
@[simp] theorem linkBlock_sizeHot : (c.linkBlock p).sizeHot = c.sizeHot := by
  unfold linkBlock; cases c.handHot <;> dsimp only <;> split <;> rfl
@[simp] theorem linkBlock_sizeCold : (c.linkBlock p).sizeCold = c.sizeCold := by
  unfold linkBlock; cases c.handHot <;> dsimp only <;> split <;> rfl
@[simp] theorem linkBlock_sizeTest : (c.linkBlock p).sizeTest = c.sizeTest := by
  unfold linkBlock; cases c.handHot <;> dsimp only <;> split <;> rfl
@[simp] theorem linkBlock_countHot : (c.linkBlock p).countHot = c.countHot := by
  unfold linkBlock; cases c.handHot <;> dsimp only <;> split <;> rfl
@[simp] theorem linkBlock_countCold : (c.linkBlock p).countCold = c.countCold := by
  unfold linkBlock; cases c.handHot <;> dsimp only <;> split <;> rfl
@[simp] theorem linkBlock_countTest : (c.linkBlock p).countTest = c.countTest := by
  unfold linkBlock; cases c.handHot <;> dsimp only <;> split <;> rfl

@[simp] theorem linkFile_arena : (c.linkFile fkey p).arena = c.arena := by
  unfold linkFile; split <;> rfl
@[simp] theorem linkFile_blocks : (c.linkFile fkey p).blocks = c.blocks := by
  unfold linkFile; split <;> rfl
@[simp] theorem linkFile_blockLinks : (c.linkFile fkey p).blockLinks = c.blockLinks := by
  unfold linkFile; split <;> rfl
@[simp] theorem linkFile_handHot : (c.linkFile fkey p).handHot = c.handHot := by
  unfold linkFile; split <;> rfl
@[simp] theorem linkFile_handCold : (c.linkFile fkey p).handCold = c.handCold := by
  unfold linkFile; split <;> rfl
@[simp] theorem linkFile_handTest : (c.linkFile fkey p).handTest = c.handTest := by
  unfold linkFile; split <;> rfl
@[simp] theorem linkFile_entryAlloc : (c.linkFile fkey p).entryAlloc = c.entryAlloc := by
  unfold linkFile; split <;> rfl
@[simp] theorem linkFile_coldTarget : (c.linkFile fkey p).coldTarget = c.coldTarget := by
  unfold linkFile; split <;> rfl
@[simp] theorem linkFile_targetSize : (c.linkFile fkey p).targetSize = c.targetSize := by
  unfold linkFile; split <;> rfl
@[simp] theorem linkFile_sizeHot : (c.linkFile fkey p).sizeHot = c.sizeHot := by
  unfold linkFile; split <;> rfl
@[simp] theorem linkFile_sizeCold : (c.linkFile fkey p).sizeCold = c.sizeCold := by
  unfold linkFile; split <;> rfl
@[simp] theorem linkFile_sizeTest : (c.linkFile fkey p).sizeTest = c.sizeTest := by
  unfold linkFile; split <;> rfl
@[simp] theorem linkFile_countHot : (c.linkFile fkey p).countHot = c.countHot := by
  unfold linkFile; split <;> rfl
@[simp] theorem linkFile_countCold : (c.linkFile fkey p).countCold = c.countCold := by
  unfold linkFile; split <;> rfl
@[simp] theorem linkFile_countTest : (c.linkFile fkey p).countTest = c.countTest := by
  unfold linkFile; split <;> rfl

end LinkFields

/-- The pointer work of `shard.metaDel` on the entry `e` at `p`: clear its value, drop
it from the blocks map, move each hand on it to its predecessor (every hand to nil when
`e.unlink()` finds it was the last entry), unlink it from the clock ring and from its file
ring, and point the files map at the entry after it (or drop the file key). -/
def detach (c : Shard) (p : Nat) (e : Entry) : Shard :=
  let fkey := e.key.file
  let last := ringNext c.blockLinks p = p
  let fnext := ringNext (c.fileLinks fkey) p
  let moveOff (h : Option Nat) : Option Nat :=
    if last then none else if h = some p then c.prev h else h
  { c with
    arena := Function.update c.arena p (some { e with val := none })
    blocks := Function.update c.blocks e.key none
    handHot := moveOff c.handHot
    handCold := moveOff c.handCold
    handTest := moveOff c.handTest
    blockLinks := c.blockLinks.erase p
    fileLinks := Function.update c.fileLinks fkey ((c.fileLinks fkey).erase p)
    files := Function.update c.files fkey (if p = fnext then none else some fnext) }

/-- `shard.metaDel`: take the entry at `p` out of the cache's structures; returns the
value it held, which the caller releases. -/
def metaDel (c : Shard) (p : Nat) : Except Fault (Shard × Option Value) := do
  let e ← c.entry p
  pure (c.detach p e, e.val)

/-- `shard.metaEvict`: uncount the entry at `p`, unlink it and free it; returns its value. -/
def metaEvict (c : Shard) (rc : Refs) (p : Nat) : Except Fault (Shard × Refs × Option Value) := do
  let e ← c.entry p
  let c := match e.ptype with
    | etHot => { c with sizeHot := c.sizeHot - e.size, countHot := c.countHot - 1 }
    | etCold => { c with sizeCold := c.sizeCold - e.size, countCold := c.countCold - 1 }
    | etTest => { c with sizeTest := c.sizeTest - e.size, countTest := c.countTest - 1 }
  let (c, evictedValue) ← c.metaDel p
  let (c, rc) := c.freeEntry rc p
  pure (c, rc, evictedValue)

-----------------------------------------------------------------------------------------
-- The three hands
-----------------------------------------------------------------------------------------

/-- The cold hand on a referenced cold page `e` at `p`: the page turns hot, its bit
cleared. -/
def promote (c : Shard) (p : Nat) (e : Entry) : Shard :=
  { c.setEntry p { e with referenced := false, ptype := etHot } with
    sizeCold := c.sizeCold - e.size, countCold := c.countCold - 1,
    sizeHot := c.sizeHot + e.size, countHot := c.countHot + 1 }

/-- The cold hand on an unreferenced cold page: the page becomes a ghost without a value
(the caller releases the value, as `e.setValue(nil)` does). -/
def demote (c : Shard) (p : Nat) (e : Entry) : Shard :=
  { c.setEntry p { e with val := none, ptype := etTest } with
    sizeCold := c.sizeCold - e.size, countCold := c.countCold - 1,
    sizeTest := c.sizeTest + e.size, countTest := c.countTest + 1 }

/-- The hot hand's own step in `runHandHot`: a referenced hot page loses its bit, an
unreferenced one turns cold; then the hand moves on. -/
def hotStep (c : Shard) : Except Fault Shard := do
  let (p, e) ← c.deref c.handHot
  let c :=
    if e.ptype = etHot then
      if e.referenced then c.setEntry p { e with referenced := false }
      else { c.setEntry p { e with ptype := etCold } with
        sizeHot := c.sizeHot - e.size, countHot := c.countHot - 1,
        sizeCold := c.sizeCold + e.size, countCold := c.countCold + 1 }
    else c
  pure { c with handHot := c.next c.handHot }

/-- The test hand's own step in `runHandTest`: a ghost under it is uncounted, lowers
`coldTarget` (not below zero), is unlinked and freed; then the hand moves on. -/
def testStep (c : Shard) (rc : Refs) : Except Fault (Shard × Refs) := do
  let (p, e) ← c.deref c.handTest
  let (c, rc) ←
    if e.ptype = etTest then do
      let coldTarget := c.coldTarget - e.size
      let c := { c with sizeTest := c.sizeTest - e.size, countTest := c.countTest - 1,
                        coldTarget := if coldTarget < 0 then 0 else coldTarget }
      let (c, v) ← c.metaDel p
      pure (c.freeEntry (release rc v) p)
    else pure (c, rc)
  pure ({ c with handTest := c.next c.handTest }, rc)

mutual

/-- `shard.evict`: run the cold hand while the resident bytes reach the target size. -/
def evict : Nat → Shard → Refs → Except Fault (Shard × Refs)
  | 0, _, _ => .error .outOfFuel
  | n + 1, c, rc =>
    if c.targetSize ≤ c.sizeHot + c.sizeCold ∧ c.handCold.isSome then do
      let (c, rc) ← runHandCold n c rc c.countCold c.sizeCold
      evict n c rc
    else pure (c, rc)

/-- `shard.runHandCold`: a referenced cold page turns hot, an unreferenced one becomes a
ghost and the test hand runs while ghosts exceed the target; the hand moves on, and the
hot hand runs while hot pages exceed `targetSize - coldTarget`. -/
def runHandCold : Nat → Shard → Refs → Int → Int → Except Fault (Shard × Refs)
  | 0, _, _, _, _ => .error .outOfFuel
  | n + 1, c, rc, countColdDebug, sizeColdDebug =>
    if c.countCold ≠ countColdDebug ∨ c.sizeCold ≠ sizeColdDebug then
      .error (.panic s!"runHandCold: cold count and size are {c.countCold}, {c.sizeCold}, arguments are {countColdDebug} and {sizeColdDebug}")
    else do
      let (p, e) ← c.deref c.handCold
      let (c, rc) ←
        if e.ptype = etCold then
          if e.referenced then pure (c.promote p e, rc)
          else runHandColdTestLoop n (c.demote p e) (release rc e.val)
        else pure (c, rc)
      runHandColdHotLoop n { c with handCold := c.next c.handCold } rc

/-- The loop of `runHandCold` that runs the test hand while ghosts exceed the target. -/
def runHandColdTestLoop : Nat → Shard → Refs → Except Fault (Shard × Refs)
  | 0, _, _ => .error .outOfFuel
  | n + 1, c, rc =>
    if c.targetSize < c.sizeTest ∧ c.handTest.isSome then do
      let (c, rc) ← runHandTest n c rc
      runHandColdTestLoop n c rc
    else pure (c, rc)

/-- The loop of `runHandCold` that runs the hot hand while hot pages exceed
`targetSize - coldTarget`. -/
def runHandColdHotLoop : Nat → Shard → Refs → Except Fault (Shard × Refs)
  | 0, _, _ => .error .outOfFuel
  | n + 1, c, rc =>
    if c.targetSize - c.coldTarget ≤ c.sizeHot ∧ c.handHot.isSome then do
      let (c, rc) ← runHandHot n c rc
      runHandColdHotLoop n c rc
    else pure (c, rc)

/-- `shard.runHandHot`: the test hand goes first when the two hands coincide, and the
hot hand stops if that emptied the ring. -/
def runHandHot : Nat → Shard → Refs → Except Fault (Shard × Refs)
  | 0, _, _ => .error .outOfFuel
  | n + 1, c, rc =>
    if c.handHot = c.handTest ∧ c.handTest.isSome then do
      let (c, rc) ← runHandTest n c rc
      if c.handHot.isNone then return (c, rc)
      let c ← c.hotStep
      pure (c, rc)
    else do
      let c ← c.hotStep
      pure (c, rc)

/-- `shard.runHandTest`: the cold hand goes first when the two hands coincide on a shard
with cold bytes, and the test hand stops if that emptied the ring. -/
def runHandTest : Nat → Shard → Refs → Except Fault (Shard × Refs)
  | 0, _, _ => .error .outOfFuel
  | n + 1, c, rc =>
    if c.sizeCold > 0 ∧ c.handTest = c.handCold ∧ c.handCold.isSome then
      if c.countCold = 0 then
        .error (.panic s!"pebble: mismatch {c.sizeCold} cold size, {c.countCold} cold count")
      else do
        let (c, rc) ← runHandCold n c rc c.countCold c.sizeCold
        if c.handTest.isNone then return (c, rc)
        c.testStep rc
    else c.testStep rc

end

/-- `shard.metaAdd`: evict, then decline an entry larger than the target size or link it
in; the flag says whether it was added. -/
def metaAdd (fuel : Nat) (c : Shard) (rc : Refs) (key : Key) (p : Nat) :
    Except Fault (Shard × Refs × Bool) := do
  let (c, rc) ← c.evict fuel rc
  let e ← c.entry p
  if e.size > c.targetSize then return (c, rc, false)
  pure (c.link key p, rc, true)

end Shard

end Vecble.ClockPro
