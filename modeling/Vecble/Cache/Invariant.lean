import Vecble.Cache.Sweep

/-! The shard's representation invariant: the clock ring, the blocks map and the file
rings describe the same live entries, the hands sit on the ring, ghosts alone hold no
value, and the six counters are the counts and byte sums of the ring by type.
-/

namespace Vecble.ClockPro

open EntryType

/-- A hand is nil exactly when the ring is empty, and otherwise names a ring entry. -/
def HandOn (ring : List Nat) : Option Nat → Prop
  | none => ring = []
  | some p => p ∈ ring

@[simp] theorem handOn_none {ring : List Nat} : HandOn ring none ↔ ring = [] := Iff.rfl
@[simp] theorem handOn_some {ring : List Nat} {p : Nat} : HandOn ring (some p) ↔ p ∈ ring :=
  Iff.rfl

/-- The bytes an entry contributes to the counter of type `t`. -/
def bytesOf (t : EntryType) (e : Entry) : Int := if e.ptype = t then e.size else 0

/-- The count an entry contributes to the counter of type `t`. -/
def oneOf (t : EntryType) (e : Entry) : Int := if e.ptype = t then 1 else 0

namespace Shard

/-- The sum of `f` over the entries on the clock ring. -/
def tally (c : Shard) (f : Entry → Int) : Int :=
  (c.blockLinks.map fun p => ((c.arena p).map f).getD 0).sum

/-- The key of the live entry at an address. -/
def keyAt (c : Shard) (p : Nat) : Option Key := (c.arena p).map Entry.key

/-- The value of the live entry at an address. -/
def valAt (c : Shard) (p : Nat) : Option Value := (c.arena p).bind Entry.val

/-- The layout part of the representation invariant: the clock ring, the blocks map,
the hands and the file rings describe the same live entries. It reads no counter, no
value and no type, so updates of those keep it as it is. -/
structure Shape (c : Shard) : Prop where
  /-- The clock ring lists no entry twice. -/
  nodup : c.blockLinks.Nodup
  /-- No entry on the ring has been freed. -/
  live : ∀ p ∈ c.blockLinks, (c.arena p).isSome
  /-- The blocks map holds exactly the ring entries, each under its own key. -/
  blocks : ∀ k p, c.blocks k = some p ↔ p ∈ c.blockLinks ∧ c.keyAt p = some k
  handHot : HandOn c.blockLinks c.handHot
  handCold : HandOn c.blockLinks c.handCold
  handTest : HandOn c.blockLinks c.handTest
  /-- The files map holds a file key exactly when its file ring is nonempty ... -/
  files : ∀ f, c.files f = none ↔ c.fileLinks f = []
  /-- ... and then names an entry of that ring. -/
  filesHead : ∀ f p, c.files f = some p → p ∈ c.fileLinks f
  fileNodup : ∀ f, (c.fileLinks f).Nodup
  /-- The file ring of `f` holds exactly the ring entries of file `f`. -/
  fileLinks : ∀ f p, p ∈ c.fileLinks f ↔ p ∈ c.blockLinks ∧ (c.keyAt p).map Key.file = some f
  /-- Addresses from `entryAlloc` on are unused. -/
  fresh : ∀ p, c.entryAlloc ≤ p → c.arena p = none

/-- The representation invariant short of `coldTarget`: the layout, well-formed entries, and
counters that are the counts and byte sums of the ring by type. It holds on shards of every
size, a negative one included. -/
structure Tallied (c : Shard) extends Shape c : Prop where
  /-- Ghosts, and only ghosts, hold no value. -/
  vals : ∀ p ∈ c.blockLinks, ∀ e, c.arena p = some e → (e.val = none ↔ e.ptype = etTest)
  /-- Entry sizes are buffer lengths. -/
  sizes : ∀ p ∈ c.blockLinks, ∀ e, c.arena p = some e → 0 ≤ e.size
  countHot : c.countHot = c.tally (oneOf etHot)
  countCold : c.countCold = c.tally (oneOf etCold)
  countTest : c.countTest = c.tally (oneOf etTest)
  sizeHot : c.sizeHot = c.tally (bytesOf etHot)
  sizeCold : c.sizeCold = c.tally (bytesOf etCold)
  sizeTest : c.sizeTest = c.tally (bytesOf etTest)

/-- The representation invariant of a shard: its layout, well-formed entries, counters
that are the counts and byte sums of the ring by type, and `coldTarget` within range. -/
structure Inv (c : Shard) extends Tallied c : Prop where
  coldTarget : 0 ≤ c.coldTarget ∧ c.coldTarget ≤ c.targetSize

-----------------------------------------------------------------------------------------
-- Sums over the ring
-----------------------------------------------------------------------------------------

theorem sum_map_update_of_not_mem {l : List Nat} {a : Nat → Option Entry} {p : Nat}
    {x : Option Entry} (g : Option Entry → Int) (h : p ∉ l)
    : (l.map fun q => g (Function.update a p x q)).sum = (l.map fun q => g (a q)).sum := by
  congr 1
  exact List.map_congr_left fun q hq => by
    rw [Function.update_noteq (fun (he : q = p) => h (he ▸ hq))]

theorem sum_map_erase {l : List Nat} {p : Nat} (g : Nat → Int) (h : p ∈ l)
    : (l.map g).sum = g p + ((l.erase p).map g).sum := by
  rw [((List.perm_cons_erase h).map g).sum_eq, List.map_cons, List.sum_cons]

theorem sum_map_update {l : List Nat} {a : Nat → Option Entry} {p : Nat} {x : Option Entry}
    (g : Option Entry → Int) (hn : l.Nodup) (h : p ∈ l)
    : (l.map fun q => g (Function.update a p x q)).sum =
      (l.map fun q => g (a q)).sum - g (a p) + g x := by
  rw [sum_map_erase _ h, sum_map_erase (fun q => g (a q)) h,
    sum_map_update_of_not_mem g (hn.not_mem_erase), Function.update_same]
  omega

/-- Rewriting one ring entry changes a tally by the difference of its contributions. -/
theorem tally_setEntry {c : Shard} {p : Nat} {e d : Entry} (f : Entry → Int)
    (hn : c.blockLinks.Nodup) (h : p ∈ c.blockLinks) (he : c.arena p = some e)
    : (c.setEntry p d).tally f = c.tally f - f e + f d := by
  simp only [tally, setEntry]
  rw [sum_map_update (fun o => (o.map f).getD 0) hn h, he]
  rfl

-----------------------------------------------------------------------------------------
-- The layout under the pointer operations
-----------------------------------------------------------------------------------------

theorem entry_eq_ok {c : Shard} {p : Nat} {e : Entry} : c.entry p = .ok e ↔ c.arena p = some e := by
  unfold entry; split <;> simp_all

theorem metaDel_ok {c c' : Shard} {p : Nat} {v : Option Value} (h : c.metaDel p = .ok (c', v))
    : ∃ e, c.arena p = some e ∧ c' = c.detach p e ∧ v = e.val := by
  obtain ⟨e, he, h⟩ := bind_eq_ok.mp h
  cases h
  exact ⟨e, entry_eq_ok.mp he, rfl, rfl⟩

theorem keyAt_setEntry {c : Shard} {p : Nat} {e e' : Entry} (he : c.arena p = some e)
    (hk : e'.key = e.key)
    : (c.setEntry p e').keyAt = c.keyAt := by
  funext q
  by_cases hq : q = p
  · subst hq; simp [keyAt, setEntry, he, hk]
  · simp [keyAt, setEntry, Function.update_noteq hq]

theorem Shape.lt_entryAlloc {c : Shard} {p : Nat} {e : Entry} (hs : c.Shape)
    (he : c.arena p = some e)
    : p < c.entryAlloc :=
  Nat.lt_of_not_le fun hp => by simp [hs.fresh p hp] at he

theorem Shape.setEntry {c : Shard} {p : Nat} {e e' : Entry} (hs : c.Shape)
    (he : c.arena p = some e) (hk : e'.key = e.key)
    : (c.setEntry p e').Shape := by
  have hkey := keyAt_setEntry he hk
  have hp := hs.lt_entryAlloc he
  exact {
    nodup := hs.nodup
    live := fun q hq => by
      by_cases h : q = p
      · simp [Shard.setEntry, h]
      · simpa [Shard.setEntry, h] using hs.live q hq
    blocks := fun k q => by rw [hkey]; exact hs.blocks k q
    handHot := hs.handHot
    handCold := hs.handCold
    handTest := hs.handTest
    files := hs.files
    filesHead := hs.filesHead
    fileNodup := hs.fileNodup
    fileLinks := fun f q => by rw [hkey]; exact hs.fileLinks f q
    fresh := fun q (hq : c.entryAlloc ≤ q) => by
      simpa [Shard.setEntry, Function.update_noteq (show q ≠ p by omega)] using hs.fresh q hq }

theorem handOn_next {ring : List Nat} {h : Option Nat} (hh : HandOn ring h)
    : HandOn ring (h.map (ringNext ring)) := by
  cases h with
  | none => exact hh
  | some p => exact ringNext_mem hh

theorem Shape.advanceCold {c : Shard} (hs : c.Shape)
    : Shape { c with handCold := c.next c.handCold } :=
  { hs with handCold := handOn_next hs.handCold }

theorem Shape.advanceHot {c : Shard} (hs : c.Shape)
    : Shape { c with handHot := c.next c.handHot } :=
  { hs with handHot := handOn_next hs.handHot }

theorem Shape.advanceTest {c : Shard} (hs : c.Shape)
    : Shape { c with handTest := c.next c.handTest } :=
  { hs with handTest := handOn_next hs.handTest }

/-- The layout depends only on the ring, the maps, the hands, the arena and the
allocator, so a shard agreeing on those has the same layout. -/
theorem Shape.congr {c c' : Shard} (hs : c.Shape) (h1 : c'.blockLinks = c.blockLinks)
    (h2 : c'.arena = c.arena) (h3 : c'.blocks = c.blocks) (h4 : c'.files = c.files)
    (h5 : c'.fileLinks = c.fileLinks) (h6 : c'.handHot = c.handHot)
    (h7 : c'.handCold = c.handCold) (h8 : c'.handTest = c.handTest)
    (h9 : c'.entryAlloc = c.entryAlloc)
    : c'.Shape := by
  have hk : c'.keyAt = c.keyAt := by funext q; simp [keyAt, h2]
  obtain ⟨a1, a2, a3, a4, a5, a6, a7, a8, a9, a10, a11⟩ := hs
  exact ⟨h1 ▸ a1, by rwa [h1, h2], by rwa [h1, h3, hk], by rwa [h1, h6], by rwa [h1, h7],
    by rwa [h1, h8], by rwa [h4, h5], by rwa [h4, h5], by rwa [h5], by rwa [h5, h1, hk],
    by rwa [h9, h2]⟩

end Shard

theorem erase_eq_nil_iff {l : List Nat} {p : Nat} (h : p ∈ l) : l.erase p = [] ↔ l = [p] := by
  constructor
  · intro he
    simpa [he] using List.perm_cons_erase h
  · rintro rfl; simp

namespace Shard

theorem handOn_moveOff {ring : List Nat} {p : Nat} {h : Option Nat} (hn : ring.Nodup)
    (hp : p ∈ ring) (hh : HandOn ring h)
    : HandOn (ring.erase p)
      (if ringNext ring p = p then none else if h = some p then h.map (ringPrev ring) else h) := by
  split
  next hl => exact (erase_eq_nil_iff hp).mpr ((ringNext_eq_self_iff hn hp).mp hl)
  next hl =>
    split
    next hq =>
      subst hq
      have hne : ringPrev ring p ≠ p := fun he =>
        hl ((ringNext_eq_self_iff hn hp).mpr ((ringPrev_eq_self_iff hn hp).mp he))
      exact ringPrev_mem_erase hn hp hne
    next hq =>
      cases h with
      | none => simp_all
      | some q => exact (List.Nodup.mem_erase_iff hn).mpr ⟨fun he => hq (he ▸ rfl), hh⟩

theorem keyAt_detach {c : Shard} {p : Nat} {e : Entry} (he : c.arena p = some e)
    : (c.detach p e).keyAt = c.keyAt := by
  funext q
  by_cases hq : q = p
  · subst hq; simp [keyAt, detach, he]
  · simp [keyAt, detach, Function.update_noteq hq]

/-- `metaDel`'s pointer work keeps the layout, by a case split on the file key. -/
theorem Shape.detach {c : Shard} {p : Nat} {e : Entry} (hs : c.Shape) (hp : p ∈ c.blockLinks)
    (he : c.arena p = some e)
    : (c.detach p e).Shape := by
  have hkey := keyAt_detach he
  have hkp : c.keyAt p = some e.key := by simp [keyAt, he]
  have hblk : c.blocks e.key = some p := (hs.blocks _ _).mpr ⟨hp, hkp⟩
  have hfile : p ∈ c.fileLinks e.key.file := (hs.fileLinks _ _).mpr ⟨hp, by simp [hkp]⟩
  have hmem : ∀ q, q ∈ c.blockLinks.erase p ↔ q ≠ p ∧ q ∈ c.blockLinks :=
    fun q => List.Nodup.mem_erase_iff hs.nodup
  refine {
    nodup := hs.nodup.erase p
    live := fun q hq => ?_
    blocks := fun k q => ?_
    handHot := handOn_moveOff hs.nodup hp hs.handHot
    handCold := handOn_moveOff hs.nodup hp hs.handCold
    handTest := handOn_moveOff hs.nodup hp hs.handTest
    files := fun f => ?_
    filesHead := fun f q hq => ?_
    fileNodup := fun f => ?_
    fileLinks := fun f q => ?_
    fresh := fun q hq => ?_ }
  · have hq' := (hmem q).mp hq
    simpa [Shard.detach, Function.update_noteq hq'.1] using hs.live q hq'.2
  · rw [hkey]
    show Function.update c.blocks e.key none k = some q ↔
      q ∈ c.blockLinks.erase p ∧ c.keyAt q = some k
    rw [hmem]
    by_cases hk : k = e.key
    · subst hk
      rw [Function.update_same]
      refine ⟨(fun h => by cases h), fun ⟨⟨hqp, hq'⟩, hk⟩ => absurd ?_ hqp⟩
      exact Option.some.inj (((hs.blocks _ _).mpr ⟨hq', hk⟩).symm.trans hblk)
    · rw [Function.update_noteq hk, hs.blocks]
      constructor
      · rintro ⟨hq, hk'⟩
        refine ⟨⟨fun hqp => hk ?_, hq⟩, hk'⟩
        subst hqp
        exact (Option.some.inj (hkp.symm.trans hk')).symm
      · exact fun ⟨⟨_, hq⟩, hk'⟩ => ⟨hq, hk'⟩
  · show Function.update c.files e.key.file _ f = none ↔
      Function.update c.fileLinks e.key.file _ f = []
    by_cases hf : f = e.key.file
    · subst hf
      rw [Function.update_same, Function.update_same, erase_eq_nil_iff hfile,
        ← ringNext_eq_self_iff (hs.fileNodup _) hfile]
      by_cases hn : p = ringNext (c.fileLinks e.key.file) p
      · rw [if_pos hn]; exact ⟨fun _ => hn.symm, fun _ => rfl⟩
      · rw [if_neg hn]; exact ⟨(fun h => by cases h), fun h => absurd h.symm hn⟩
    · rw [Function.update_noteq hf, Function.update_noteq hf]; exact hs.files f
  · change Function.update c.files e.key.file _ f = some q at hq
    show q ∈ Function.update c.fileLinks e.key.file _ f
    by_cases hf : f = e.key.file
    · subst hf
      rw [Function.update_same] at hq ⊢
      by_cases hn : p = ringNext (c.fileLinks e.key.file) p
      · rw [if_pos hn] at hq; cases hq
      · rw [if_neg hn] at hq; cases hq
        exact ringNext_mem_erase (hs.fileNodup _) hfile (Ne.symm hn)
    · rw [Function.update_noteq hf] at hq ⊢; exact hs.filesHead f q hq
  · show (Function.update c.fileLinks e.key.file _ f).Nodup
    by_cases hf : f = e.key.file
    · subst hf; rw [Function.update_same]; exact (hs.fileNodup _).erase p
    · rw [Function.update_noteq hf]; exact hs.fileNodup f
  · rw [hkey]
    show q ∈ Function.update c.fileLinks e.key.file _ f ↔
      q ∈ c.blockLinks.erase p ∧ (c.keyAt q).map Key.file = some f
    rw [hmem]
    by_cases hf : f = e.key.file
    · subst hf
      rw [Function.update_same, List.Nodup.mem_erase_iff (hs.fileNodup _), hs.fileLinks]
      tauto
    · rw [Function.update_noteq hf, hs.fileLinks]
      constructor
      · rintro ⟨hq, hq'⟩
        refine ⟨⟨fun hqp => hf ?_, hq⟩, hq'⟩
        subst hqp; simpa [hkp] using hq'.symm
      · exact fun ⟨⟨_, hq⟩, hq'⟩ => ⟨hq, hq'⟩
  · have hpq : q ≠ p := fun h => by have := hs.lt_entryAlloc he; simp only [Shard.detach] at hq; omega
    simpa [Shard.detach, Function.update_noteq hpq] using hs.fresh q hq

theorem freeEntry_fst {c : Shard} {rc : Refs} {p : Nat}
    : (c.freeEntry rc p).1 = { c with arena := Function.update c.arena p none } := by
  unfold freeEntry
  split
  · rfl
  · next hn =>
    have : Function.update c.arena p none = c.arena := by rw [← hn, Function.update_eq_self]
    simp only [this]

theorem Shape.freeEntry {c : Shard} {rc : Refs} {p : Nat} (hs : c.Shape) (hp : p ∉ c.blockLinks)
    : (c.freeEntry rc p).1.Shape := by
  rw [freeEntry_fst]
  have hkey : ∀ q, q ∈ c.blockLinks → (Function.update c.arena p none q) = c.arena q :=
    fun q hq => Function.update_noteq (fun (h : q = p) => hp (h ▸ hq)) _ _
  have hkeyAt : ∀ q, q ∈ c.blockLinks →
      ({ c with arena := Function.update c.arena p none } : Shard).keyAt q = c.keyAt q :=
    fun q hq => by simp only [keyAt, hkey q hq]
  exact {
    nodup := hs.nodup
    live := fun q hq => by simpa [hkey q hq] using hs.live q hq
    blocks := fun k q => by
      constructor
      · intro h
        have hq := ((hs.blocks k q).mp h).1
        exact ⟨hq, (hkeyAt q hq).trans ((hs.blocks k q).mp h).2⟩
      · rintro ⟨hq, hk⟩
        exact (hs.blocks k q).mpr ⟨hq, (hkeyAt q hq).symm.trans hk⟩
    handHot := hs.handHot
    handCold := hs.handCold
    handTest := hs.handTest
    files := hs.files
    filesHead := hs.filesHead
    fileNodup := hs.fileNodup
    fileLinks := fun f q => by
      constructor
      · intro h
        have hq := ((hs.fileLinks f q).mp h).1
        exact ⟨hq, (hkeyAt q hq) ▸ ((hs.fileLinks f q).mp h).2⟩
      · rintro ⟨hq, hk⟩
        exact (hs.fileLinks f q).mpr ⟨hq, (hkeyAt q hq) ▸ hk⟩
    fresh := fun q hq => by
      by_cases h : q = p
      · subst h; simp
      · simpa [Function.update_noteq h] using hs.fresh q hq }

theorem tally_detach {c : Shard} {p : Nat} {e : Entry} (f : Entry → Int) (hn : c.blockLinks.Nodup)
    (hp : p ∈ c.blockLinks) (he : c.arena p = some e)
    : (c.detach p e).tally f = c.tally f - f e := by
  simp only [tally, detach]
  rw [sum_map_update_of_not_mem (fun o => (o.map f).getD 0) (hn.not_mem_erase),
    sum_map_erase (fun q => ((c.arena q).map f).getD 0) hp, he]
  simp

theorem tally_freeEntry {c : Shard} {r : Refs} {p : Nat} (f : Entry → Int)
    (hp : p ∉ c.blockLinks)
    : (c.freeEntry r p).1.tally f = c.tally f := by
  rw [freeEntry_fst]
  exact sum_map_update_of_not_mem (fun o => (o.map f).getD 0) hp

-----------------------------------------------------------------------------------------
-- Linking a new entry
-----------------------------------------------------------------------------------------

theorem handOn_mono {ring ring' : List Nat} {h : Option Nat} (hh : HandOn ring h)
    (hne : ring ≠ []) (hsub : ring ⊆ ring')
    : HandOn ring' h := by
  cases h with
  | none => exact absurd hh hne
  | some q => exact hsub hh

/-- `linkBlock` puts `p` on the clock ring and keeps the three hands on it, by cases on
whether the ring was empty. -/
theorem linkBlock_ring {c : Shard} {p : Nat} (hh : HandOn c.blockLinks c.handHot)
    (hc : HandOn c.blockLinks c.handCold) (ht : HandOn c.blockLinks c.handTest)
    : (c.linkBlock p).blockLinks.Perm (p :: c.blockLinks) ∧
      HandOn (c.linkBlock p).blockLinks (c.linkBlock p).handHot ∧
      HandOn (c.linkBlock p).blockLinks (c.linkBlock p).handCold ∧
      HandOn (c.linkBlock p).blockLinks (c.linkBlock p).handTest := by
  unfold linkBlock
  cases hH : c.handHot with
  | none =>
      rw [hH, handOn_none] at hh
      simp [hh, prev, ringPrev, ringNext, ringNext.go]
  | some h =>
      rw [hH, handOn_some] at hh
      have hsub : c.blockLinks ⊆ linkBefore h p c.blockLinks :=
        fun q hq => mem_linkBefore.mpr (.inr hq)
      have hne := List.ne_nil_of_mem hh
      dsimp only
      split
      next hcold =>
        rw [hcold]
        exact ⟨linkBefore_perm h p _, hsub hh, ringPrev_mem (hsub hh), handOn_mono ht hne hsub⟩
      next => exact ⟨linkBefore_perm h p _, hsub hh, handOn_mono hc hne hsub, handOn_mono ht hne hsub⟩

/-- `linkFile` puts `p` on the ring of `fkey`, which the files map then names, and leaves
every other file as it was. -/
theorem linkFile_spec {c : Shard} {k : Key} {p : Nat}
    (hf : c.files k = none → c.fileLinks k = [])
    (hh : ∀ b, c.files k = some b → b ∈ c.fileLinks k)
    : (∀ f, f ≠ k →
        (c.linkFile k p).files f = c.files f ∧ (c.linkFile k p).fileLinks f = c.fileLinks f) ∧
      ((c.linkFile k p).fileLinks k).Perm (p :: c.fileLinks k) ∧
      ∃ b, (c.linkFile k p).files k = some b ∧ b ∈ (c.linkFile k p).fileLinks k := by
  unfold linkFile
  split
  next hn =>
    refine ⟨fun f hne => ?_, ?_, p, ?_, ?_⟩ <;>
      simp [Function.update_noteq, hf hn, *]
  next b hb =>
    refine ⟨fun f hne => ?_, ?_, b, hb, ?_⟩
    · simp [Function.update_noteq hne]
    · simpa using linkBefore_perm b p (c.fileLinks k)
    · simpa using Or.inr (hh b hb)

/-- `metaAdd`'s linking keeps the layout when the new entry is live, off the ring and its
key is not yet in the blocks map. -/
theorem Shape.link {c : Shard} {key : Key} {p : Nat} {e : Entry} (hs : c.Shape)
    (hp : p ∉ c.blockLinks) (he : c.arena p = some e) (hk : e.key = key)
    (hb : c.blocks key = none)
    : (c.link key p).Shape := by
  obtain ⟨hperm, hH, hC, hT⟩ := linkBlock_ring
    (c := { c with blocks := Function.update c.blocks key (some p) }) (p := p)
    hs.handHot hs.handCold hs.handTest
  obtain ⟨hne, hfperm, b, hfb, hbm⟩ := linkFile_spec
    (c := ({ c with blocks := Function.update c.blocks key (some p) } : Shard).linkBlock p)
    (k := key.file) (p := p) (by simpa using (hs.files key.file).mp)
    (by simpa using hs.filesHead key.file)
  have hring : ∀ q, q ∈ (c.link key p).blockLinks ↔ q = p ∨ q ∈ c.blockLinks := fun q => by
    simpa [Shard.link] using hperm.mem_iff (a := q)
  have hkey : (c.link key p).keyAt = c.keyAt := by funext q; simp [keyAt, Shard.link]
  have hkp : c.keyAt p = some key := by simp [keyAt, he, hk]
  have hpf : p ∉ c.fileLinks key.file := fun h => hp ((hs.fileLinks _ _).mp h).1
  have hfl : ∀ f q, q ∈ (c.link key p).fileLinks f ↔ (f = key.file ∧ q = p) ∨ q ∈ c.fileLinks f := by
    intro f q
    by_cases hf : f = key.file
    · subst hf; simpa [Shard.link] using hfperm.mem_iff (a := q)
    · simp [Shard.link, (hne f hf).2, hf]
  refine {
    nodup := by simpa [Shard.link] using hperm.nodup_iff.mpr (List.nodup_cons.mpr ⟨hp, hs.nodup⟩)
    live := fun q hq => ?_
    blocks := fun k q => ?_
    handHot := by simpa [Shard.link] using hH
    handCold := by simpa [Shard.link] using hC
    handTest := by simpa [Shard.link] using hT
    files := fun f => ?_
    filesHead := fun f q hq => ?_
    fileNodup := fun f => ?_
    fileLinks := fun f q => ?_
    fresh := fun q hq => by simpa [Shard.link] using hs.fresh q (by simpa [Shard.link] using hq) }
  · rcases (hring q).mp hq with rfl | hq
    · simp [Shard.link, he]
    · simpa [Shard.link] using hs.live q hq
  · rw [hkey, hring]
    simp only [Shard.link, linkFile_blocks, linkBlock_blocks]
    by_cases hkk : k = key
    · subst hkk
      rw [Function.update_same]
      constructor
      · rintro ⟨⟩; exact ⟨.inl rfl, hkp⟩
      · rintro ⟨rfl | hq, hq'⟩
        · rfl
        · simp [(hs.blocks _ _).mpr ⟨hq, hq'⟩] at hb
    · rw [Function.update_noteq hkk, hs.blocks]
      constructor
      · exact fun ⟨hq, hq'⟩ => ⟨.inr hq, hq'⟩
      · rintro ⟨rfl | hq, hq'⟩
        · exact absurd (Option.some.inj (hkp.symm.trans hq')) (Ne.symm hkk)
        · exact ⟨hq, hq'⟩
  · by_cases hf : f = key.file
    · subst hf
      have : (c.link key p).fileLinks key.file ≠ [] := fun h => by
        simpa [h] using (hfl _ p).mpr (.inl ⟨rfl, rfl⟩)
      simpa [Shard.link, hfb] using this
    · simpa [Shard.link, (hne f hf).1, (hne f hf).2] using hs.files f
  · by_cases hf : f = key.file
    · subst hf
      have : q = b := by simpa [Shard.link, hfb] using hq.symm
      subst this; simpa [Shard.link] using hbm
    · have hq' : c.files f = some q := by simpa [Shard.link, (hne f hf).1] using hq
      exact (hfl f q).mpr (.inr (hs.filesHead f q hq'))
  · by_cases hf : f = key.file
    · subst hf
      simpa [Shard.link] using hfperm.nodup_iff.mpr
        (List.nodup_cons.mpr ⟨by simpa using hpf, by simpa using hs.fileNodup _⟩)
    · simpa [Shard.link, (hne f hf).2] using hs.fileNodup f
  · rw [hfl, hkey, hring, hs.fileLinks]
    by_cases hqp : q = p
    · subst hqp; simp [hkp, hp, eq_comm]
    · simp [hqp]

/-- Add an entry's contributions to the six counters. -/
def count (c : Shard) (e : Entry) : Shard :=
  { c with
    countHot := c.countHot + oneOf etHot e
    countCold := c.countCold + oneOf etCold e
    countTest := c.countTest + oneOf etTest e
    sizeHot := c.sizeHot + bytesOf etHot e
    sizeCold := c.sizeCold + bytesOf etCold e
    sizeTest := c.sizeTest + bytesOf etTest e }

theorem tally_link {c : Shard} {k : Key} {p : Nat} {e : Entry} (f : Entry → Int)
    (hh : HandOn c.blockLinks c.handHot) (hc : HandOn c.blockLinks c.handCold)
    (ht : HandOn c.blockLinks c.handTest) (he : c.arena p = some e)
    : (c.link k p).tally f = c.tally f + f e := by
  obtain ⟨hperm, -⟩ := linkBlock_ring (c := { c with blocks := Function.update c.blocks k (some p) })
    (p := p) hh hc ht
  have h := (hperm.map fun q => ((c.arena q).map f).getD 0).sum_eq
  simp only [List.map_cons, List.sum_cons, he] at h
  simp only [tally, link, linkFile_blockLinks, linkFile_arena, linkBlock_arena]
  rw [h]; simp; omega

/-- Linking a well-formed new entry and counting it keeps the invariant. -/
theorem Tallied.link {c : Shard} {key : Key} {p : Nat} {e : Entry} (hi : c.Tallied)
    (hp : p ∉ c.blockLinks) (he : c.arena p = some e) (hk : e.key = key)
    (hb : c.blocks key = none) (hv : e.val = none ↔ e.ptype = etTest) (hsz : 0 ≤ e.size)
    : ((c.link key p).count e).Tallied := by
  have hs := hi.toShape.link hp he hk hb
  have tl := fun f => tally_link (k := key) f hi.handHot hi.handCold hi.handTest he
  have hat : ∀ q ∈ (c.link key p).blockLinks, ∀ e', (c.link key p).arena q = some e' →
      (q = p ∧ e' = e) ∨ (q ∈ c.blockLinks ∧ c.arena q = some e') := by
    intro q hq e' h
    obtain ⟨hperm, -⟩ := linkBlock_ring (c := { c with blocks := Function.update c.blocks key (some p) })
      (p := p) hi.handHot hi.handCold hi.handTest
    have hq' : q = p ∨ q ∈ c.blockLinks := by
      simpa [Shard.link] using hperm.mem_iff.mp (by simpa [Shard.link] using hq)
    simp only [Shard.link, linkFile_arena, linkBlock_arena] at h
    rcases hq' with rfl | hq'
    · exact .inl ⟨rfl, Option.some.inj (h.symm.trans he)⟩
    · exact .inr ⟨hq', h⟩
  exact {
    toShape := hs.congr rfl rfl rfl rfl rfl rfl rfl rfl rfl
    vals := fun q hq e' h => by
      rcases hat q hq e' h with ⟨-, rfl⟩ | ⟨hq, h⟩
      · exact hv
      · exact hi.vals q hq e' h
    sizes := fun q hq e' h => by
      rcases hat q hq e' h with ⟨-, rfl⟩ | ⟨hq, h⟩
      · exact hsz
      · exact hi.sizes q hq e' h
    countHot := by
      show (c.link key p).countHot + oneOf etHot e = (c.link key p).tally (oneOf etHot)
      rw [tl, ← hi.countHot]; simp [Shard.link]
    countCold := by
      show (c.link key p).countCold + oneOf etCold e = (c.link key p).tally (oneOf etCold)
      rw [tl, ← hi.countCold]; simp [Shard.link]
    countTest := by
      show (c.link key p).countTest + oneOf etTest e = (c.link key p).tally (oneOf etTest)
      rw [tl, ← hi.countTest]; simp [Shard.link]
    sizeHot := by
      show (c.link key p).sizeHot + bytesOf etHot e = (c.link key p).tally (bytesOf etHot)
      rw [tl, ← hi.sizeHot]; simp [Shard.link]
    sizeCold := by
      show (c.link key p).sizeCold + bytesOf etCold e = (c.link key p).tally (bytesOf etCold)
      rw [tl, ← hi.sizeCold]; simp [Shard.link]
    sizeTest := by
      show (c.link key p).sizeTest + bytesOf etTest e = (c.link key p).tally (bytesOf etTest)
      rw [tl, ← hi.sizeTest]; simp [Shard.link] }

-----------------------------------------------------------------------------------------
-- Rewriting, uncounting and removing one entry
-----------------------------------------------------------------------------------------

/-- Move each counter by the change from `e` to `e'` of that entry's contribution. -/
def recount (c : Shard) (e e' : Entry) : Shard :=
  { c with
    countHot := c.countHot - oneOf etHot e + oneOf etHot e'
    countCold := c.countCold - oneOf etCold e + oneOf etCold e'
    countTest := c.countTest - oneOf etTest e + oneOf etTest e'
    sizeHot := c.sizeHot - bytesOf etHot e + bytesOf etHot e'
    sizeCold := c.sizeCold - bytesOf etCold e + bytesOf etCold e'
    sizeTest := c.sizeTest - bytesOf etTest e + bytesOf etTest e' }

theorem Shape.recount {c : Shard} {e e' : Entry} (hs : c.Shape) : (c.recount e e').Shape :=
  ⟨hs.nodup, hs.live, hs.blocks, hs.handHot, hs.handCold, hs.handTest, hs.files, hs.filesHead,
    hs.fileNodup, hs.fileLinks, hs.fresh⟩

theorem tally_recount {c : Shard} {e e' : Entry} (f : Entry → Int)
    : (c.recount e e').tally f = c.tally f := rfl

theorem recount_of_same {c : Shard} {e d : Entry} (ht : d.ptype = e.ptype)
    (hs : d.size = e.size)
    : c.recount e d = c := by
  simp [recount, oneOf, bytesOf, ht, hs]

theorem Shape.mem_of_handCold {c : Shard} {p : Nat} (hi : c.Shape) (h : c.handCold = some p)
    : p ∈ c.blockLinks := by
  have := hi.handCold; rwa [h] at this

theorem Shape.mem_of_handHot {c : Shard} {p : Nat} (hi : c.Shape) (h : c.handHot = some p)
    : p ∈ c.blockLinks := by
  have := hi.handHot; rwa [h] at this

theorem Shape.mem_of_handTest {c : Shard} {p : Nat} (hi : c.Shape) (h : c.handTest = some p)
    : p ∈ c.blockLinks := by
  have := hi.handTest; rwa [h] at this

/-- Rewriting a ring entry in place keeps the invariant when the new entry keeps the key,
holds a value unless it is a ghost, and the counters follow the change. -/
theorem Tallied.rewrite {c : Shard} {p : Nat} {e d : Entry} (hi : c.Tallied) (hp : p ∈ c.blockLinks)
    (he : c.arena p = some e) (hk : d.key = e.key) (hv : d.val = none ↔ d.ptype = etTest)
    (hs : 0 ≤ d.size)
    : ((c.setEntry p d).recount e d).Tallied := by
  have hat : ∀ q e'', (c.setEntry p d).arena q = some e'' →
      (q = p ∧ e'' = d) ∨ (q ≠ p ∧ c.arena q = some e'') := by
    intro q e'' h
    by_cases hq : q = p
    · subst hq; simp [Shard.setEntry] at h; exact .inl ⟨rfl, h.symm⟩
    · simp [Shard.setEntry, Function.update_noteq hq] at h; exact .inr ⟨hq, h⟩
  have tl := fun f => tally_setEntry (d := d) f hi.nodup hp he
  exact {
    toShape := (hi.toShape.setEntry he hk).recount
    vals := fun q hq e'' h => by
      rcases hat q e'' h with ⟨-, rfl⟩ | ⟨-, h⟩
      · exact hv
      · exact hi.vals q hq e'' h
    sizes := fun q hq e'' h => by
      rcases hat q e'' h with ⟨-, rfl⟩ | ⟨-, h⟩
      · exact hs
      · exact hi.sizes q hq e'' h
    countHot := by rw [tally_recount, tl, ← hi.countHot]; rfl
    countCold := by rw [tally_recount, tl, ← hi.countCold]; rfl
    countTest := by rw [tally_recount, tl, ← hi.countTest]; rfl
    sizeHot := by rw [tally_recount, tl, ← hi.sizeHot]; rfl
    sizeCold := by rw [tally_recount, tl, ← hi.sizeCold]; rfl
    sizeTest := by rw [tally_recount, tl, ← hi.sizeTest]; rfl }

/-- Take away an entry's contributions from the six counters. -/
def uncount (c : Shard) (e : Entry) : Shard :=
  { c with
    countHot := c.countHot - oneOf etHot e
    countCold := c.countCold - oneOf etCold e
    countTest := c.countTest - oneOf etTest e
    sizeHot := c.sizeHot - bytesOf etHot e
    sizeCold := c.sizeCold - bytesOf etCold e
    sizeTest := c.sizeTest - bytesOf etTest e }

theorem Tallied.withColdTarget {c : Shard} (hi : c.Tallied) (ct : Int)
    : Tallied { c with coldTarget := ct } :=
  { hi with toShape := hi.toShape.congr rfl rfl rfl rfl rfl rfl rfl rfl rfl }

/-- Uncounting the ring entry at `p` and unlinking it keeps the invariant; the entry
stays in the arena, off the ring and without a value. -/
theorem Tallied.detach {c : Shard} {p : Nat} {e : Entry} (hi : c.Tallied) (hp : p ∈ c.blockLinks)
    (he : c.arena p = some e)
    : ((c.uncount e).detach p e).Tallied := by
  have hs1 : (c.uncount e).Shape := hi.toShape.congr rfl rfl rfl rfl rfl rfl rfl rfl rfl
  have tl : ∀ f, ((c.uncount e).detach p e).tally f = c.tally f - f e :=
    fun f => tally_detach (c := c.uncount e) f hi.nodup hp he
  have hat : ∀ q ∈ ((c.uncount e).detach p e).blockLinks, ∀ e',
      ((c.uncount e).detach p e).arena q = some e' → q ∈ c.blockLinks ∧ c.arena q = some e' := by
    intro q hq e' h
    have hq' := (List.Nodup.mem_erase_iff hi.nodup).mp hq
    simp only [Shard.detach, uncount, Function.update_noteq hq'.1] at h
    exact ⟨hq'.2, h⟩
  exact {
    toShape := hs1.detach hp he
    vals := fun q hq e' h => hi.vals q (hat q hq e' h).1 e' (hat q hq e' h).2
    sizes := fun q hq e' h => hi.sizes q (hat q hq e' h).1 e' (hat q hq e' h).2
    countHot := by rw [tl, ← hi.countHot]; rfl
    countCold := by rw [tl, ← hi.countCold]; rfl
    countTest := by rw [tl, ← hi.countTest]; rfl
    sizeHot := by rw [tl, ← hi.sizeHot]; rfl
    sizeCold := by rw [tl, ← hi.sizeCold]; rfl
    sizeTest := by rw [tl, ← hi.sizeTest]; rfl }

/-- Freeing an entry off the ring keeps the invariant. -/
theorem Tallied.freeEntry {c : Shard} {r : Refs} {p : Nat} (hi : c.Tallied) (hp : p ∉ c.blockLinks)
    : (c.freeEntry r p).1.Tallied := by
  have tl := fun f => tally_freeEntry (r := r) f hp
  have hat : ∀ q ∈ c.blockLinks, (c.freeEntry r p).1.arena q = c.arena q := fun q hq => by
    rw [freeEntry_fst]; exact Function.update_noteq (fun (h : q = p) => hp (h ▸ hq)) _ _
  have hl : (c.freeEntry r p).1.blockLinks = c.blockLinks := by rw [freeEntry_fst]
  exact {
    toShape := hi.toShape.freeEntry hp
    vals := fun q hq e' h => hi.vals q (hl ▸ hq) e' (hat q (hl ▸ hq) ▸ h)
    sizes := fun q hq e' h => hi.sizes q (hl ▸ hq) e' (hat q (hl ▸ hq) ▸ h)
    countHot := by rw [tl, ← hi.countHot, freeEntry_fst]
    countCold := by rw [tl, ← hi.countCold, freeEntry_fst]
    countTest := by rw [tl, ← hi.countTest, freeEntry_fst]
    sizeHot := by rw [tl, ← hi.sizeHot, freeEntry_fst]
    sizeCold := by rw [tl, ← hi.sizeCold, freeEntry_fst]
    sizeTest := by rw [tl, ← hi.sizeTest, freeEntry_fst] }

end Shard

end Vecble.ClockPro
