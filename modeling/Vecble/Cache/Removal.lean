import Vecble.Cache.Operations

/-! What `Delete` and `EvictFile` take out of a shard, and what they leave alone: the
frame of removing one entry, and the batches of `evictFileRun` along a file ring.
-/

namespace Vecble.ClockPro

open EntryType

namespace Shard

/-- Where `metaDel` leaves a hand that may sit on the removed entry `p`: nil when `p` was
the last entry, its predecessor when the hand was on it, else where it was. -/
def handAfter (ring : List Nat) (p : Nat) (h : Option Nat) : Option Nat :=
  if ring = [p] then none else if h = some p then some (ringPrev ring p) else h

/-- The shard `c'` is `c` with the entry `e` at `p` removed: out of the blocks map, the
clock ring and its file ring, the files map moved past it, the hands moved off it, the
counters of its type lowered by it, everything else as it was. -/
structure Removed (c c' : Shard) (p : Nat) (e : Entry) : Prop where
  blocks : c'.blocks = Function.update c.blocks e.key none
  ring : c'.blockLinks = c.blockLinks.erase p
  fileRing : c'.fileLinks = Function.update c.fileLinks e.key.file ((c.fileLinks e.key.file).erase p)
  /-- The file's slot goes exactly when this was the file's last entry ... -/
  filesLast : c'.files e.key.file = none ↔ c.fileLinks e.key.file = [p]
  /-- ... and otherwise names a remaining entry of the file. -/
  filesNext : ∀ q, c'.files e.key.file = some q → q ∈ c'.fileLinks e.key.file
  filesOther : ∀ f, f ≠ e.key.file → c'.files f = c.files f
  handHot : c'.handHot = handAfter c.blockLinks p c.handHot
  handCold : c'.handCold = handAfter c.blockLinks p c.handCold
  handTest : c'.handTest = handAfter c.blockLinks p c.handTest
  others : ∀ q, q ≠ p → c'.arena q = c.arena q
  freed : c'.arena p = none
  countHot : c'.countHot = c.countHot - oneOf etHot e
  countCold : c'.countCold = c.countCold - oneOf etCold e
  countTest : c'.countTest = c.countTest - oneOf etTest e
  sizeHot : c'.sizeHot = c.sizeHot - bytesOf etHot e
  sizeCold : c'.sizeCold = c.sizeCold - bytesOf etCold e
  sizeTest : c'.sizeTest = c.sizeTest - bytesOf etTest e
  coldTarget : c'.coldTarget = c.coldTarget

/-- `metaEvict` on a ring entry removes exactly that entry. -/
theorem Tallied.removed_metaEvict {c : Shard} {rc : Refs} {p : Nat} {e : Entry} (hi : c.Tallied)
    (hp : p ∈ c.blockLinks) (he : c.arena p = some e)
    : Removed c (((c.uncount e).detach p e).freeEntry rc p).1 p e := by
  have hi' := (hi.detach hp he).freeEntry (r := rc) hi.nodup.not_mem_erase
  have hf : p ∈ c.fileLinks e.key.file := (hi.fileLinks _ _).mpr ⟨hp, by simp [keyAt, he]⟩
  have hlast : ringNext c.blockLinks p = p ↔ c.blockLinks = [p] := ringNext_eq_self_iff hi.nodup hp
  have hflast : p = ringNext (c.fileLinks e.key.file) p ↔ c.fileLinks e.key.file = [p] :=
    eq_comm.trans (ringNext_eq_self_iff (hi.fileNodup _) hf)
  refine {
    blocks := by simp [freeEntry_fst, Shard.detach, uncount]
    ring := by simp [freeEntry_fst, Shard.detach, uncount]
    fileRing := by simp [freeEntry_fst, Shard.detach, uncount]
    filesLast := by simp [freeEntry_fst, Shard.detach, uncount, hflast]
    filesNext := fun q hq => hi'.filesHead _ q hq
    filesOther := fun f hf => by simp [freeEntry_fst, Shard.detach, uncount, hf]
    handHot := by
      simp only [freeEntry_fst, Shard.detach, uncount, handAfter, hlast, prev]
      split_ifs <;> simp_all
    handCold := by
      simp only [freeEntry_fst, Shard.detach, uncount, handAfter, hlast, prev]
      split_ifs <;> simp_all
    handTest := by
      simp only [freeEntry_fst, Shard.detach, uncount, handAfter, hlast, prev]
      split_ifs <;> simp_all
    others := fun q hq => by simp [freeEntry_fst, Shard.detach, uncount, hq]
    freed := by simp [freeEntry_fst]
    countHot := by simp [freeEntry_fst, Shard.detach, uncount]
    countCold := by simp [freeEntry_fst, Shard.detach, uncount]
    countTest := by simp [freeEntry_fst, Shard.detach, uncount]
    sizeHot := by simp [freeEntry_fst, Shard.detach, uncount]
    sizeCold := by simp [freeEntry_fst, Shard.detach, uncount]
    sizeTest := by simp [freeEntry_fst, Shard.detach, uncount]
    coldTarget := by simp [freeEntry_fst, Shard.detach, uncount] }

-----------------------------------------------------------------------------------------
-- Delete
-----------------------------------------------------------------------------------------

/-- What `Delete` of `(id, fileNum, offset)` does to a shard `c`: nothing when the key has
no entry; otherwise the locked part removes exactly the key's entry and releases nothing,
and the one release of the entry's value comes after it. -/
def DeleteFrame (c : Shard) (rc : Refs) (id fileNum offset : UInt64) : Prop :=
  (c.blocks ⟨id, fileNum, offset⟩ = none → c.delete rc id fileNum offset = .ok (c, rc)) ∧
  ∀ p e, c.blocks ⟨id, fileNum, offset⟩ = some p → c.arena p = some e →
    e.key = ⟨id, fileNum, offset⟩ ∧
    ∃ c', Removed c c' p e ∧ c.deleteLocked rc ⟨id, fileNum, offset⟩ = .ok (c', rc, e.val) ∧
      c.delete rc id fileNum offset = .ok (c', release rc e.val)

/-- `Delete` on a shard satisfying the invariant (every reachable shard does) changes
nothing for an absent key, and otherwise removes exactly the key's entry. -/
theorem delete_frame {c : Shard} {rc : Refs} {id fileNum offset : UInt64} (hi : c.Tallied)
    : DeleteFrame c rc id fileNum offset := by
  refine ⟨fun hb => by simp [Shard.delete, hb], fun p e hb he => ?_⟩
  obtain ⟨hp, hk⟩ := (hi.blocks _ _).mp hb
  have hi' := (hi.detach hp he).freeEntry (r := rc) hi.nodup.not_mem_erase
  have hlocked : c.deleteLocked rc ⟨id, fileNum, offset⟩ =
      .ok ((((c.uncount e).detach p e).freeEntry rc p).1, rc, e.val) := by
    simp [Shard.deleteLocked, hb, metaEvict_eq he, hi'.checkConsistency, bind, Except.bind, pure,
      Except.pure]
  refine ⟨by simpa [keyAt, he] using hk, _, hi.removed_metaEvict hp he, hlocked, ?_⟩
  simp [Shard.delete, hb, hlocked, bind, Except.bind, pure, Except.pure]

set_option smartUnfolding false in
/-- `Delete` of the first of two pages, the one under the hot and the test hands. -/
theorem delete_frame_underHands
    : ∃ c, runCalls (Shard.empty 10)
        [.set 50 (fun _ => 1) 1 1 0 ⟨0, 3⟩, .set 50 (fun _ => 1) 1 1 1 ⟨1, 3⟩] = some c ∧
      c.blocks ⟨1, 1, 0⟩ = some 0 ∧ c.handHot = some 0 ∧ c.handTest = some 0 ∧ c.Tallied ∧
      DeleteFrame c (fun _ => 1) 1 1 0 :=
  let ⟨c, hc, hb, hh, ht⟩ : ∃ c, runCalls (Shard.empty 10)
      [.set 50 (fun _ => 1) 1 1 0 ⟨0, 3⟩, .set 50 (fun _ => 1) 1 1 1 ⟨1, 3⟩] = some c ∧
      c.blocks ⟨1, 1, 0⟩ = some 0 ∧ c.handHot = some 0 ∧ c.handTest = some 0 :=
    ⟨_, rfl, by decide, by decide, by decide⟩
  have hi := (Tallied.empty 10).reachable (runCalls_reachable hc)
  ⟨c, hc, hb, hh, ht, hi, delete_frame hi⟩

-----------------------------------------------------------------------------------------
-- EvictFile
-----------------------------------------------------------------------------------------

/-- The sum of `f` over the entries of the file ring of `fkey`. -/
def fileTally (c : Shard) (fkey : Key) (f : Entry → Int) : Int :=
  ((c.fileLinks fkey).map fun q => ((c.arena q).map f).getD 0).sum

/-- `max(1, ⌈n/5⌉)`: the batches `EvictFile` runs for a file of `n` entries. -/
def evictFileRuns (n : Nat) : Nat :=
  max 1 ((n + blocksPerMutexAcquisition - 1) / blocksPerMutexAcquisition)

/-- Part of a file's entries have left: the ring keeps every entry of other files, the
entries still on it are unchanged and keep the hands that were on them, the maps of other
files are untouched, and `coldTarget` and the budget stay. -/
structure FileFrame (c c' : Shard) (fkey : Key) : Prop where
  sub : ∀ q ∈ c'.blockLinks, q ∈ c.blockLinks
  keep : ∀ q ∈ c.blockLinks, q ∉ c.fileLinks fkey → q ∈ c'.blockLinks
  arena : ∀ q ∈ c'.blockLinks, c'.arena q = c.arena q
  blocksOther : ∀ k, k.file ≠ fkey → c'.blocks k = c.blocks k
  filesOther : ∀ f, f ≠ fkey → c'.files f = c.files f
  fileLinksOther : ∀ f, f ≠ fkey → c'.fileLinks f = c.fileLinks f
  handHot : ∀ q ∈ c'.blockLinks, c.handHot = some q → c'.handHot = some q
  handCold : ∀ q ∈ c'.blockLinks, c.handCold = some q → c'.handCold = some q
  handTest : ∀ q ∈ c'.blockLinks, c.handTest = some q → c'.handTest = some q
  coldTarget : c'.coldTarget = c.coldTarget
  maxSize : c'.maxSize = c.maxSize
  reservedSize : c'.reservedSize = c.reservedSize

theorem FileFrame.refl (c : Shard) (fkey : Key) : FileFrame c c fkey :=
  ⟨fun _ h => h, fun _ h _ => h, fun _ _ => rfl, fun _ _ => rfl, fun _ _ => rfl, fun _ _ => rfl,
    fun _ _ h => h, fun _ _ h => h, fun _ _ h => h, rfl, rfl, rfl⟩

theorem FileFrame.trans {c c1 c2 : Shard} {fkey : Key} (hi : c.Tallied) (hi1 : c1.Tallied)
    (h1 : FileFrame c c1 fkey) (h2 : FileFrame c1 c2 fkey)
    : FileFrame c c2 fkey where
  sub q hq := h1.sub q (h2.sub q hq)
  keep q hq hf := by
    have hq1 := h1.keep q hq hf
    refine h2.keep q hq1 fun hf1 => hf ((hi.fileLinks _ _).mpr ⟨hq, ?_⟩)
    have := ((hi1.fileLinks _ _).mp hf1).2
    rwa [keyAt, h1.arena q hq1] at this
  arena q hq := (h2.arena q hq).trans (h1.arena q (h2.sub q hq))
  blocksOther k hk := (h2.blocksOther k hk).trans (h1.blocksOther k hk)
  filesOther f hf := (h2.filesOther f hf).trans (h1.filesOther f hf)
  fileLinksOther f hf := (h2.fileLinksOther f hf).trans (h1.fileLinksOther f hf)
  handHot q hq h := h2.handHot q hq (h1.handHot q (h2.sub q hq) h)
  handCold q hq h := h2.handCold q hq (h1.handCold q (h2.sub q hq) h)
  handTest q hq h := h2.handTest q hq (h1.handTest q (h2.sub q hq) h)
  coldTarget := h2.coldTarget.trans h1.coldTarget
  maxSize := h2.maxSize.trans h1.maxSize
  reservedSize := h2.reservedSize.trans h1.reservedSize

/-- `metaDel` of `p` leaves a hand on an entry that stays on the ring where it is: it moves
only a hand on `p`, or every hand when `p` is the last entry. -/
theorem moveOff_keep {l : List Nat} {p q : Nat} {h y : Option Nat} (hnd : l.Nodup) (hp : p ∈ l)
    (hq : q ∈ l.erase p) (hh : h = some q)
    : (if ringNext l p = p then none else if h = some p then y else h) = some q := by
  have hqp : q ≠ p := ((List.Nodup.mem_erase_iff hnd).mp hq).1
  have hlast : ringNext l p ≠ p := fun h1 => by
    rw [(ringNext_eq_self_iff hnd hp).mp h1] at hq; simp at hq
  rw [if_neg hlast, if_neg (by rw [hh]; exact fun h => hqp (Option.some.inj h)), hh]

theorem Tallied.fileFrame_metaEvict {c : Shard} {rc : Refs} {b : Nat} {e : Entry} {fkey : Key}
    (hi : c.Tallied) (hb : b ∈ c.fileLinks fkey) (he : c.arena b = some e)
    : FileFrame c (((c.uncount e).detach b e).freeEntry rc b).1 fkey := by
  have hmem : ∀ q, q ∈ c.blockLinks.erase b ↔ q ≠ b ∧ q ∈ c.blockLinks :=
    fun q => List.Nodup.mem_erase_iff hi.nodup
  obtain ⟨hbr, hkb⟩ := (hi.fileLinks _ _).mp hb
  have hfile : e.key.file = fkey := by simpa [keyAt, he] using hkb
  subst hfile
  refine ⟨fun q hq => ?_, fun q hq hf => ?_, fun q hq => ?_, fun k hk => ?_, fun f hf => ?_,
    fun f hf => ?_, fun q hq h => ?_, fun q hq h => ?_, fun q hq h => ?_, ?_, ?_, ?_⟩
  · simp only [freeEntry_fst, Shard.detach, uncount] at hq
    exact ((hmem q).mp hq).2
  · simp only [freeEntry_fst, Shard.detach, uncount]
    exact (hmem q).mpr ⟨fun h => hf (h ▸ hb), hq⟩
  · simp only [freeEntry_fst, Shard.detach, uncount] at hq ⊢
    simp [Function.update_noteq ((hmem q).mp hq).1]
  · have hke : k ≠ e.key := fun h => hk (by rw [h])
    simp [freeEntry_fst, Shard.detach, uncount, Function.update_noteq hke]
  · simp [freeEntry_fst, Shard.detach, uncount, Function.update_noteq hf]
  · simp [freeEntry_fst, Shard.detach, uncount, Function.update_noteq hf]
  · simp only [freeEntry_fst, Shard.detach, uncount] at hq ⊢; exact moveOff_keep hi.nodup hbr hq h
  · simp only [freeEntry_fst, Shard.detach, uncount] at hq ⊢; exact moveOff_keep hi.nodup hbr hq h
  · simp only [freeEntry_fst, Shard.detach, uncount] at hq ⊢; exact moveOff_keep hi.nodup hbr hq h
  all_goals simp [freeEntry_fst, Shard.detach, uncount]

/-- One batch of `evictFileRun` from the head `b` of a file of `m` entries evicts `room`
of them along the file ring, or all when fewer remain; by induction on the room left. -/
theorem evictFileRunLoop_spec {fkey : Key} (rc : Refs)
    : ∀ (room : Nat) {c : Shard} {b : Nat} (obs : List (Option Value)), c.Tallied →
      c.files fkey = some b →
      ∃ c' obs' more, c.evictFileRunLoop room rc b obs = .ok (c', rc, obs', more) ∧ c'.Tallied ∧
        FileFrame c c' fkey ∧ (c'.fileLinks fkey).length = (c.fileLinks fkey).length - room ∧
        (more = true ↔ room < (c.fileLinks fkey).length) ∧
        (more = false ↔ c'.files fkey = none) ∧
        ∀ f : Option Value → Int,
          c'.tally (fun e => f e.val) + (obs'.map f).sum = c.tally (fun e => f e.val) + (obs.map f).sum
  | 0, c, b, obs, hi, hb => by
    have hm := List.length_pos_of_mem (hi.filesHead _ _ hb)
    exact ⟨c, obs, true, rfl, hi, .refl c fkey, rfl, by simpa using hm, by simp [hb], fun _ => rfl⟩
  | room + 1, c, b, obs, hi, hb => by
    have hbf := hi.filesHead _ _ hb
    obtain ⟨hbr, hkb⟩ := (hi.fileLinks _ _).mp hbf
    obtain ⟨e, he⟩ := Option.isSome_iff_exists.mp (hi.live b hbr)
    have hfile : e.key.file = fkey := by simpa [keyAt, he] using hkb
    subst hfile
    obtain ⟨c1, hc1⟩ : ∃ c1, c1 = (((c.uncount e).detach b e).freeEntry rc b).1 := ⟨_, rfl⟩
    have hi1 : c1.Tallied := hc1 ▸ (hi.detach hbr he).freeEntry hi.nodup.not_mem_erase
    have hf1 : FileFrame c c1 e.key.file := hc1 ▸ hi.fileFrame_metaEvict hbf he
    have htl : ∀ g : Entry → Int, c1.tally g = c.tally g - g e := fun g => by
      rw [hc1, tally_freeEntry _ hi.nodup.not_mem_erase]
      exact tally_detach (c := c.uncount e) g hi.nodup hbr he
    have hfl1 : c1.fileLinks e.key.file = (c.fileLinks e.key.file).erase b := by
      simp [hc1, freeEntry_fst, Shard.detach, uncount]
    have hlen1 : (c1.fileLinks e.key.file).length = (c.fileLinks e.key.file).length - 1 := by
      rw [hfl1, List.length_erase_of_mem hbf]
    have hfiles1 : c1.files e.key.file =
        if b = ringNext (c.fileLinks e.key.file) b then none
        else some (ringNext (c.fileLinks e.key.file) b) := by
      simp [hc1, freeEntry_fst, Shard.detach, uncount]
    have hstep : c.evictFileRunLoop (room + 1) rc b obs =
        if b = ringNext (c.fileLinks e.key.file) b then
          (do c1.checkConsistency; pure (c1, rc, obs ++ [e.val], false))
        else c1.evictFileRunLoop room rc (ringNext (c.fileLinks e.key.file) b) (obs ++ [e.val]) := by
      rw [Shard.evictFileRunLoop, hc1]
      simp only [Shard.entry, he, metaEvict_eq he]
      rfl
    by_cases hlast : b = ringNext (c.fileLinks e.key.file) b
    · have hone := (ringNext_eq_self_iff (hi.fileNodup _) hbf).mp hlast.symm
      refine ⟨c1, obs ++ [e.val], false, ?_, hi1, hf1, ?_, ?_, ?_, fun f => ?_⟩
      · rw [hstep, if_pos hlast, hi1.checkConsistency]; rfl
      · simp [hlen1, hone]
      · simp [hone]
      · rw [hfiles1, if_pos hlast]; simp
      · rw [htl, List.map_append, List.sum_append, List.map_singleton, List.sum_singleton]; omega
    · obtain ⟨c', obs', more, hrun, hi', hf', hlen', hmore, hnone, hsum⟩ :=
        evictFileRunLoop_spec rc room (obs ++ [e.val]) hi1 (by rw [hfiles1, if_neg hlast])
      have hm : 1 < (c.fileLinks e.key.file).length := by
        rcases hc : c.fileLinks e.key.file with _ | ⟨x, _ | ⟨y, l⟩⟩
        · simp [hc] at hbf
        · have hx : x = b := by simp [hc] at hbf; exact hbf.symm
          exact absurd ((ringNext_eq_self_iff (hi.fileNodup _) hbf).mpr (by rw [hc, hx]))
            (Ne.symm hlast)
        · simp
      refine ⟨c', obs', more, by rw [hstep, if_neg hlast]; exact hrun, hi', hf1.trans hi hi1 hf',
        by rw [hlen', hlen1]; omega, by rw [hmore, hlen1]; omega, hnone, fun f => ?_⟩
      rw [hsum, htl, List.map_append, List.sum_append, List.map_singleton, List.sum_singleton]
      omega

/-- One `evictFileRun` evicts `min(5, m)` of the file's `m` entries and says whether some
remain; the values of the evicted entries go back to their owners after the mutex. -/
theorem evictFileRun_spec {c : Shard} (rc : Refs) (fkey : Key) (hi : c.Tallied)
    : ∃ c' rc' more, c.evictFileRun rc fkey = .ok (c', rc', more) ∧ c'.Tallied ∧ FileFrame c c' fkey ∧
      (c'.fileLinks fkey).length = (c.fileLinks fkey).length - blocksPerMutexAcquisition ∧
      (more = true ↔ blocksPerMutexAcquisition < (c.fileLinks fkey).length) ∧
      (more = false ↔ c'.files fkey = none) ∧
      ∃ obs : List (Option Value), rc' = obs.foldl release rc ∧
        ∀ f : Option Value → Int, c'.tally (fun e => f e.val) + (obs.map f).sum =
          c.tally (fun e => f e.val) := by
  unfold Shard.evictFileRun
  split
  · next hn =>
    have hl := (hi.files fkey).mp hn
    exact ⟨c, rc, false, rfl, hi, .refl c fkey, by simp [hl], by simp [hl], by simp [hn],
      [], rfl, fun _ => by simp⟩
  · next b hb =>
    obtain ⟨c', obs', more, hrun, hi', hf', hlen', hmore, hnone, hsum⟩ :=
      evictFileRunLoop_spec rc blocksPerMutexAcquisition [] hi hb
    exact ⟨c', _, more, by rw [hrun]; rfl, hi', hf', hlen', hmore, hnone, obs', rfl,
      fun f => by simpa using hsum f⟩

/-- `EvictFile` needs exactly `max(1, ⌈m/5⌉)` batches for a file of `m` entries, and then
no entry of the file is left; by induction on the batch budget. -/
theorem evictFileLoop_spec {fkey : Key}
    : ∀ (fuel : Nat) {c : Shard} (rc : Refs), c.Tallied →
      ((∃ r, c.evictFileLoop fuel rc fkey = .ok r) ↔
          evictFileRuns (c.fileLinks fkey).length ≤ fuel) ∧
        ∀ c' rc', c.evictFileLoop fuel rc fkey = .ok (c', rc') →
          c'.Tallied ∧ FileFrame c c' fkey ∧ c'.files fkey = none
  | 0, c, _, _ => by
    refine ⟨⟨fun ⟨_, h⟩ => (by cases h), fun h => ?_⟩, fun _ _ h => (by cases h)⟩
    simp [evictFileRuns] at h
  | fuel + 1, c, rc, hi => by
    obtain ⟨c1, rc1, more, hrun, hi1, hf1, hlen1, hmore, hnone, -⟩ := evictFileRun_spec rc fkey hi
    have hstep : c.evictFileLoop (fuel + 1) rc fkey =
        if more then c1.evictFileLoop fuel rc1 fkey else .ok (c1, rc1) := by
      rw [Shard.evictFileLoop, hrun]; cases more <;> rfl
    rw [hstep]
    cases more with
    | false =>
      have hm : (c.fileLinks fkey).length ≤ blocksPerMutexAcquisition := by
        simpa using hmore
      refine ⟨⟨fun _ => ?_, fun _ => ⟨_, rfl⟩⟩, fun c' rc' h => ?_⟩
      · simp only [evictFileRuns, blocksPerMutexAcquisition] at hm ⊢; omega
      · cases h; exact ⟨hi1, hf1, hnone.mp rfl⟩
    | true =>
      have hm : blocksPerMutexAcquisition < (c.fileLinks fkey).length := hmore.mp rfl
      obtain ⟨hok, hres⟩ := evictFileLoop_spec fuel rc1 hi1
      refine ⟨?_, fun c' rc' h => ?_⟩
      · simp only [if_true]
        rw [hok, hlen1]
        simp only [evictFileRuns, blocksPerMutexAcquisition] at hm ⊢
        omega
      · obtain ⟨hi', hf', hn'⟩ := hres c' rc' h
        exact ⟨hi', hf1.trans hi hi1 hf', hn'⟩

/-- `c'` is `c` with every entry of the file `fkey` evicted: no key of the file is left in
the blocks map or the files map, every other entry is still on the ring, unchanged, with
the hands that were on it, the maps of other files are untouched, and each counter has lost
exactly the file's share of it. -/
structure FileEvicted (c c' : Shard) (fkey : Key) : Prop where
  blocks : ∀ k, k.file = fkey → c'.blocks k = none
  files : c'.files fkey = none
  ring : ∀ q, q ∈ c'.blockLinks ↔ q ∈ c.blockLinks ∧ q ∉ c.fileLinks fkey
  arena : ∀ q ∈ c'.blockLinks, c'.arena q = c.arena q
  blocksOther : ∀ k, k.file ≠ fkey → c'.blocks k = c.blocks k
  filesOther : ∀ f, f ≠ fkey → c'.files f = c.files f
  fileLinksOther : ∀ f, f ≠ fkey → c'.fileLinks f = c.fileLinks f
  handHot : ∀ q ∈ c'.blockLinks, c.handHot = some q → c'.handHot = some q
  handCold : ∀ q ∈ c'.blockLinks, c.handCold = some q → c'.handCold = some q
  handTest : ∀ q ∈ c'.blockLinks, c.handTest = some q → c'.handTest = some q
  coldTarget : c'.coldTarget = c.coldTarget
  countHot : c'.countHot = c.countHot - c.fileTally fkey (oneOf etHot)
  countCold : c'.countCold = c.countCold - c.fileTally fkey (oneOf etCold)
  countTest : c'.countTest = c.countTest - c.fileTally fkey (oneOf etTest)
  sizeHot : c'.sizeHot = c.sizeHot - c.fileTally fkey (bytesOf etHot)
  sizeCold : c'.sizeCold = c.sizeCold - c.fileTally fkey (bytesOf etCold)
  sizeTest : c'.sizeTest = c.sizeTest - c.fileTally fkey (bytesOf etTest)

/-- A ring that lost exactly the file's entries has lost exactly the file's tally. -/
theorem tally_of_evicted {c c' : Shard} {fkey : Key} (hi : c.Tallied) (hi' : c'.Tallied)
    (hring : ∀ q, q ∈ c'.blockLinks ↔ q ∈ c.blockLinks ∧ q ∉ c.fileLinks fkey)
    (harena : ∀ q ∈ c'.blockLinks, c'.arena q = c.arena q) (f : Entry → Int)
    : c'.tally f = c.tally f - c.fileTally fkey f := by
  have hperm : c.blockLinks.Perm (c'.blockLinks ++ c.fileLinks fkey) := by
    refine (List.perm_ext_iff_of_nodup hi.nodup (List.nodup_append.mpr
      ⟨hi'.nodup, hi.fileNodup _, fun a ha hb => ((hring a).mp ha).2 hb⟩)).mpr fun q => ?_
    rw [List.mem_append, hring]
    by_cases hq : q ∈ c.fileLinks fkey
    · simp [hq, ((hi.fileLinks _ _).mp hq).1]
    · simp [hq]
  have hsum := (hperm.map fun q => ((c.arena q).map f).getD 0).sum_eq
  rw [List.map_append, List.sum_append] at hsum
  have hsame : (c'.blockLinks.map fun q => ((c'.arena q).map f).getD 0) =
      c'.blockLinks.map fun q => ((c.arena q).map f).getD 0 :=
    List.map_congr_left fun q hq => by rw [harena q hq]
  simp only [tally, fileTally, hsame]
  omega

theorem fileEvicted_of_frame {c c' : Shard} {fkey : Key} (hi : c.Tallied) (hi' : c'.Tallied)
    (hf : FileFrame c c' fkey) (hn : c'.files fkey = none)
    : FileEvicted c c' fkey := by
  have hempty := (hi'.files fkey).mp hn
  have hring : ∀ q, q ∈ c'.blockLinks ↔ q ∈ c.blockLinks ∧ q ∉ c.fileLinks fkey := by
    refine fun q => ⟨fun hq => ⟨hf.sub q hq, fun hfl => ?_⟩, fun ⟨hq, hfl⟩ => hf.keep q hq hfl⟩
    have hk := ((hi.fileLinks _ _).mp hfl).2
    rw [keyAt, ← hf.arena q hq] at hk
    simpa [hempty] using (hi'.fileLinks fkey q).mpr ⟨hq, hk⟩
  have tl := tally_of_evicted hi hi' hring hf.arena
  refine {
    blocks := fun k hk => ?_
    files := hn
    ring := hring
    arena := hf.arena
    blocksOther := hf.blocksOther
    filesOther := hf.filesOther
    fileLinksOther := hf.fileLinksOther
    handHot := hf.handHot
    handCold := hf.handCold
    handTest := hf.handTest
    coldTarget := hf.coldTarget
    countHot := by rw [hi'.countHot, tl, hi.countHot]
    countCold := by rw [hi'.countCold, tl, hi.countCold]
    countTest := by rw [hi'.countTest, tl, hi.countTest]
    sizeHot := by rw [hi'.sizeHot, tl, hi.sizeHot]
    sizeCold := by rw [hi'.sizeCold, tl, hi.sizeCold]
    sizeTest := by rw [hi'.sizeTest, tl, hi.sizeTest] }
  cases h : c'.blocks k with
  | none => rfl
  | some q =>
    obtain ⟨hq, hkq⟩ := (hi'.blocks k q).mp h
    simpa [hempty] using (hi'.fileLinks fkey q).mpr ⟨hq, by simp [hkq, hk]⟩

end Shard

-----------------------------------------------------------------------------------------
-- Every shard in turn
-----------------------------------------------------------------------------------------

/-- A shard operation run on every shard relates each shard to its result. -/
theorem forEachShard_forall₂ {f : Shard → Refs → Except Fault (Shard × Refs)}
    {P : Shard → Shard → Prop}
    : ∀ {ss ss' : List Shard} {rc rc' : Refs},
      (∀ s ∈ ss, ∀ r s' r', f s r = .ok (s', r') → P s s') →
      forEachShard f ss rc = .ok (ss', rc') → List.Forall₂ P ss ss'
  | [], _, _, _, _, h => by cases h; exact .nil
  | s :: rest, _, rc, _, hP, h => by
    obtain ⟨⟨s1, rc1⟩, h1, h⟩ := bind_eq_ok.mp h
    obtain ⟨⟨rest', rc2⟩, h2, h⟩ := bind_eq_ok.mp h
    cases h
    exact .cons (hP s (List.mem_cons_self _ _) _ _ _ h1)
      (forEachShard_forall₂ (fun s hs => hP s (List.mem_cons_of_mem _ hs)) h2)

/-- Running on every shard succeeds exactly when it succeeds on each, whatever the counts. -/
theorem forEachShard_ok_iff {f : Shard → Refs → Except Fault (Shard × Refs)} {Q : Shard → Prop}
    : ∀ (ss : List Shard) (rc : Refs), (∀ s ∈ ss, ∀ r, (∃ x, f s r = .ok x) ↔ Q s) →
      ((∃ x, forEachShard f ss rc = .ok x) ↔ ∀ s ∈ ss, Q s)
  | [], rc, _ => by simp [forEachShard]
  | s :: rest, rc, hQ => by
    have hrest := fun r => forEachShard_ok_iff rest r fun s hs => hQ s (List.mem_cons_of_mem _ hs)
    simp only [List.mem_cons, forall_eq_or_imp, ← hQ s (List.mem_cons_self _ _) rc]
    constructor
    · rintro ⟨x, h⟩
      obtain ⟨⟨s1, rc1⟩, h1, h⟩ := bind_eq_ok.mp h
      obtain ⟨⟨rest', rc2⟩, h2, -⟩ := bind_eq_ok.mp h
      exact ⟨⟨_, h1⟩, (hrest rc1).mp ⟨_, h2⟩⟩
    · rintro ⟨⟨⟨s1, rc1⟩, h1⟩, hall⟩
      obtain ⟨⟨rest', rc2⟩, h2⟩ := (hrest rc1).mpr hall
      exact ⟨(s1 :: rest', rc2), by simp [forEachShard, h1, h2, bind, Except.bind, pure,
        Except.pure]⟩

/-- What `Cache.EvictFile(id, fileNum)` does on a cache `c`: each batch of a shard evicts
`min(5, m)` of its `m` entries of the file and says whether some remain; a shard needs
exactly `max(1, ⌈m/5⌉)` batches; and once every shard has run, each has lost exactly the
file's entries. -/
def EvictFileExact (c : Cache) (rc : Refs) (id fileNum : UInt64) : Prop :=
  (∀ s ∈ c.shards, ∀ r, ∃ s' r' more, s.evictFileRun r ⟨id, fileNum, 0⟩ = .ok (s', r', more) ∧
    (s'.fileLinks ⟨id, fileNum, 0⟩).length =
      (s.fileLinks ⟨id, fileNum, 0⟩).length - Shard.blocksPerMutexAcquisition ∧
    (more = true ↔ Shard.blocksPerMutexAcquisition < (s.fileLinks ⟨id, fileNum, 0⟩).length)) ∧
  (∀ s ∈ c.shards, ∀ fuel r, (∃ x, s.evictFile fuel r id fileNum = .ok x) ↔
    Shard.evictFileRuns (s.fileLinks ⟨id, fileNum, 0⟩).length ≤ fuel) ∧
  (∀ fuel, (∃ x, c.evictFile fuel rc id fileNum = .ok x) ↔
    ∀ s ∈ c.shards, Shard.evictFileRuns (s.fileLinks ⟨id, fileNum, 0⟩).length ≤ fuel) ∧
  ∀ fuel c' rc', c.evictFile fuel rc id fileNum = .ok (c', rc') →
    List.Forall₂ (fun s s' => Shard.FileEvicted s s' ⟨id, fileNum, 0⟩) c.shards c'.shards

/-- `EvictFile` on a cache whose shards satisfy the invariant (those of every reachable
cache do) evicts exactly the file's entries from every shard, in the number of batches
the file's size fixes. -/
theorem evictFile_exact {c : Cache} {rc : Refs} {id fileNum : UInt64}
    (hinv : ∀ s ∈ c.shards, s.Tallied) (hid : id ≠ 0)
    : EvictFileExact c rc id fileNum := by
  have hloop : ∀ s ∈ c.shards, ∀ fuel r, (∃ x, s.evictFile fuel r id fileNum = .ok x) ↔
      Shard.evictFileRuns (s.fileLinks ⟨id, fileNum, 0⟩).length ≤ fuel :=
    fun s hs fuel r => (Shard.evictFileLoop_spec fuel r (hinv s hs)).1
  refine ⟨fun s hs r => ?_, hloop, fun fuel => ?_, fun fuel c' rc' h => ?_⟩
  · obtain ⟨s', r', more, hrun, -, -, hlen, hmore, -⟩ := Shard.evictFileRun_spec r
      ⟨id, fileNum, 0⟩ (hinv s hs)
    exact ⟨s', r', more, hrun, hlen, hmore⟩
  · simp only [Cache.evictFile, hid, if_false, map_ok_iff]
    exact forEachShard_ok_iff c.shards rc fun s hs r => hloop s hs fuel r
  · simp only [Cache.evictFile, hid, if_false] at h
    obtain ⟨⟨ss, r⟩, hall, hc⟩ := map_eq_ok.mp h
    cases hc
    refine forEachShard_forall₂ (fun s hs r s' r' hrun => ?_) hall
    obtain ⟨hi', hf', hn'⟩ := (Shard.evictFileLoop_spec fuel r (hinv s hs)).2 s' r' hrun
    exact Shard.fileEvicted_of_frame (hinv s hs) hi' hf' hn'

set_option smartUnfolding false in
open Shard in
/-- A shard holding six pages of file `(1, 1)` and one of file `(1, 2)`: evicting the first
file takes two batches. -/
theorem evictFile_exact_twoFiles
    : ∃ s, runCalls (Shard.empty 10)
        [.set 50 (fun _ => 1) 1 1 0 ⟨0, 1⟩, .set 50 (fun _ => 1) 1 2 0 ⟨1, 2⟩,
          .set 50 (fun _ => 1) 1 1 1 ⟨2, 1⟩, .set 50 (fun _ => 1) 1 1 2 ⟨3, 1⟩,
          .set 50 (fun _ => 1) 1 1 3 ⟨4, 1⟩, .set 50 (fun _ => 1) 1 1 4 ⟨5, 1⟩,
          .set 50 (fun _ => 1) 1 1 5 ⟨6, 1⟩] = some s ∧
      (s.fileLinks ⟨1, 1, 0⟩).length = 6 ∧ (s.fileLinks ⟨1, 2, 0⟩).length = 1 ∧
      (∀ s' ∈ [s], s'.Tallied) ∧ (1 : UInt64) ≠ 0 ∧
      EvictFileExact ⟨1, 10, 1, [s]⟩ (fun _ => 1) 1 1 :=
  let ⟨s, hs, h1, h2⟩ : ∃ s, runCalls (Shard.empty 10)
      [.set 50 (fun _ => 1) 1 1 0 ⟨0, 1⟩, .set 50 (fun _ => 1) 1 2 0 ⟨1, 2⟩,
        .set 50 (fun _ => 1) 1 1 1 ⟨2, 1⟩, .set 50 (fun _ => 1) 1 1 2 ⟨3, 1⟩,
        .set 50 (fun _ => 1) 1 1 3 ⟨4, 1⟩, .set 50 (fun _ => 1) 1 1 4 ⟨5, 1⟩,
        .set 50 (fun _ => 1) 1 1 5 ⟨6, 1⟩] = some s ∧
      (s.fileLinks ⟨1, 1, 0⟩).length = 6 ∧ (s.fileLinks ⟨1, 2, 0⟩).length = 1 :=
    ⟨_, rfl, by decide, by decide⟩
  have hi : ∀ s' ∈ [s], s'.Tallied :=
    List.forall_mem_singleton.mpr ((Tallied.empty 10).reachable (runCalls_reachable hs))
  ⟨s, hs, h1, h2, hi, by decide, evictFile_exact hi (by decide)⟩

end Vecble.ClockPro
