import Vecble.Cache.Cache
import Vecble.Cache.Eviction

/-! The representation invariant across the shard's operations: it holds of a new shard,
`Get`, `Set`, the locked parts of `Delete` and `EvictFile`, and `Reserve` keep it, so it
holds of every reachable shard, and `checkConsistency` never panics there.
-/

namespace Vecble.ClockPro

open EntryType

namespace Shard

theorem targetSize_pos (c : Shard) : 1 ≤ c.targetSize := by
  unfold targetSize; dsimp only; split <;> omega

/-- A new shard of any size, a negative one included, has the invariant short of
`coldTarget`. -/
theorem Tallied.empty (size : Int) : (Shard.empty size).Tallied where
  nodup := List.nodup_nil
  live := by simp [Shard.empty]
  blocks := by simp [Shard.empty]
  handHot := rfl
  handCold := rfl
  handTest := rfl
  files := by simp [Shard.empty]
  filesHead := by simp [Shard.empty]
  fileNodup := fun _ => List.nodup_nil
  fileLinks := by simp [Shard.empty]
  fresh := by simp [Shard.empty]
  vals := by simp [Shard.empty]
  sizes := by simp [Shard.empty]
  countHot := rfl
  countCold := rfl
  countTest := rfl
  sizeHot := rfl
  sizeCold := rfl
  sizeTest := rfl

/-- A new shard of a nonnegative `int64` size starts with `coldTarget` within range. -/
theorem Inv.empty {size : Int} (h : 0 ≤ size) (h64 : InInt64 size) : (Shard.empty size).Inv :=
  ⟨Tallied.empty size, by simp only [Shard.empty, targetSize, sub_zero, wrap64_of_mem h64]; split <;> omega⟩

/-- Every shard of a cache `newShards` builds from a nonnegative `int64` size has the
invariant: each gets a share of the size, which is again such a size. -/
theorem Inv.newShards {size : Int} {shards : Nat} {cache : Cache} (hsize : 0 ≤ size)
    (h64 : InInt64 size) (hnew : newShards size shards = .ok cache)
    : ∀ s ∈ cache.shards, s.Inv := fun s hs => by
  have h0 : 0 ≤ size.tdiv shards := Int.tdiv_nonneg hsize (Int.ofNat_nonneg shards)
  have hle : size.tdiv shards ≤ size := by
    rw [Int.tdiv_eq_ediv hsize (Int.ofNat_nonneg shards)]; exact Int.ediv_le_self _ hsize
  rw [mem_newShards hnew hs]
  exact Inv.empty h0 (by unfold InInt64 at h64 ⊢; omega)

-----------------------------------------------------------------------------------------
-- The counters are consistent
-----------------------------------------------------------------------------------------

theorem sum_pos_of_pos {l : List Nat} {g h : Nat → Int} (hg : ∀ q ∈ l, 0 ≤ g q)
    (hh : ∀ q ∈ l, 0 ≤ h q) (hgh : ∀ q ∈ l, 0 < g q → 0 < h q)
    : 0 < (l.map g).sum → 0 < (l.map h).sum := by
  induction l with
  | nil => simp
  | cons a l ih =>
      simp only [List.map_cons, List.sum_cons, List.mem_cons, forall_eq_or_imp] at *
      have h1 := List.sum_nonneg (l := l.map h) (by simpa using hh.2)
      intro hs
      by_cases ha : 0 < g a
      · have := hgh.1 ha; omega
      · have := ih hg.2 hh.2 hgh.2 (by omega); omega

theorem Tallied.tally_nonneg {c : Shard} {f : Entry → Int} (hi : c.Tallied)
    (hf : ∀ e, 0 ≤ e.size → 0 ≤ f e)
    : 0 ≤ c.tally f := by
  refine List.sum_nonneg fun x hx => ?_
  obtain ⟨q, hq, rfl⟩ := List.mem_map.mp hx
  cases he : c.arena q with
  | none => simp
  | some e => exact hf e (hi.sizes q hq e he)

/-- A type with bytes on the ring has an entry on the ring. -/
theorem Tallied.count_pos {c : Shard} (hi : c.Tallied) (t : EntryType)
    : 0 < c.tally (bytesOf t) → 0 < c.tally (oneOf t) := by
  refine sum_pos_of_pos (fun q hq => ?_) (fun q hq => ?_) (fun q hq => ?_) <;>
    cases he : c.arena q <;> simp only [Option.map_none', Option.map_some', Option.getD_none,
      Option.getD_some, le_refl, lt_irrefl, false_imp_iff, bytesOf, oneOf]
  all_goals have := hi.sizes q hq _ he
  all_goals split <;> omega

theorem Tallied.checkConsistency {c : Shard} (hi : c.Tallied) : c.checkConsistency = .ok () := by
  have hsize : ∀ t, 0 ≤ c.tally (bytesOf t) := fun t =>
    hi.tally_nonneg fun e he => by unfold bytesOf; split <;> omega
  have hcount : ∀ t, 0 ≤ c.tally (oneOf t) := fun t =>
    hi.tally_nonneg fun e _ => by unfold oneOf; split <;> omega
  have hH := hi.count_pos etHot
  have hC := hi.count_pos etCold
  have hT := hi.count_pos etTest
  have := hsize etHot; have := hsize etCold; have := hsize etTest
  have := hcount etHot; have := hcount etCold; have := hcount etTest
  simp only [Shard.checkConsistency, hi.countHot, hi.countCold, hi.countTest, hi.sizeHot,
    hi.sizeCold, hi.sizeTest]
  rw [if_neg (by omega), if_neg (fun h => by have := hH h.1; omega),
    if_neg (fun h => by have := hC h.1; omega), if_neg (fun h => by have := hT h.1; omega)]

-----------------------------------------------------------------------------------------
-- Entries off the ring
-----------------------------------------------------------------------------------------

/-- Writing an allocated entry off the ring keeps the invariant. -/
theorem Tallied.setOff {c : Shard} {p : Nat} {e : Entry} (hi : c.Tallied) (hp : p ∉ c.blockLinks)
    (hlt : p < c.entryAlloc)
    : (c.setEntry p e).Tallied := by
  have hat : ∀ q ∈ c.blockLinks, (c.setEntry p e).arena q = c.arena q :=
    fun q hq => Function.update_noteq (fun (h : q = p) => hp (h ▸ hq)) _ _
  have hkey : ∀ q ∈ c.blockLinks, (c.setEntry p e).keyAt q = c.keyAt q :=
    fun q hq => by simp only [keyAt, hat q hq]
  have tl : ∀ f, (c.setEntry p e).tally f = c.tally f := fun f =>
    sum_map_update_of_not_mem (fun o => (o.map f).getD 0) hp
  exact {
    nodup := hi.nodup
    live := fun q hq => by rw [hat q hq]; exact hi.live q hq
    blocks := fun k q => by
      show c.blocks k = some q ↔ q ∈ c.blockLinks ∧ _
      rw [hi.blocks]
      exact ⟨fun ⟨hq, h⟩ => ⟨hq, (hkey q hq).trans h⟩, fun ⟨hq, h⟩ => ⟨hq, (hkey q hq).symm.trans h⟩⟩
    handHot := hi.handHot
    handCold := hi.handCold
    handTest := hi.handTest
    files := hi.files
    filesHead := hi.filesHead
    fileNodup := hi.fileNodup
    fileLinks := fun f q => by
      show q ∈ c.fileLinks f ↔ q ∈ c.blockLinks ∧ _
      rw [hi.fileLinks]
      exact ⟨fun ⟨hq, h⟩ => ⟨hq, (hkey q hq) ▸ h⟩, fun ⟨hq, h⟩ => ⟨hq, (hkey q hq) ▸ h⟩⟩
    fresh := fun q (hq : c.entryAlloc ≤ q) => by
      show Function.update c.arena p (some e) q = none
      rw [Function.update_noteq (by omega)]; exact hi.fresh q hq
    vals := fun q hq e' h => hi.vals q hq e' (hat q hq ▸ h)
    sizes := fun q hq e' h => hi.sizes q hq e' (hat q hq ▸ h)
    countHot := by rw [tl]; exact hi.countHot
    countCold := by rw [tl]; exact hi.countCold
    countTest := by rw [tl]; exact hi.countTest
    sizeHot := by rw [tl]; exact hi.sizeHot
    sizeCold := by rw [tl]; exact hi.sizeCold
    sizeTest := by rw [tl]; exact hi.sizeTest }

/-- Taking the next address keeps the invariant. -/
theorem Tallied.bumpAlloc {c : Shard} (hi : c.Tallied) : Tallied { c with entryAlloc := c.entryAlloc + 1 } :=
  { hi with
    toShape := { hi.toShape with
      fresh := fun q (hq : c.entryAlloc + 1 ≤ q) => hi.fresh q (by omega) } }

/-- A key the blocks map lacks stays absent over a run of the hands. -/
theorem Shape.blocks_none {c c' : Shard} {k : Key} (hi : c.Shape) (hi' : c'.Shape)
    (ev : Evolves c c') (hb : c.blocks k = none)
    : c'.blocks k = none := by
  cases h : c'.blocks k with
  | none => rfl
  | some q =>
      obtain ⟨hq, hkq⟩ := (hi'.blocks k q).mp h
      have := (hi.blocks k q).mpr ⟨ev.ring.subset hq, (ev.keyAt q hq) ▸ hkq⟩
      simp [hb] at this

-----------------------------------------------------------------------------------------
-- metaAdd and metaEvict
-----------------------------------------------------------------------------------------

/-- What `metaAdd` does: evict, then decline an entry larger than the target size or link
it in. -/
theorem metaAdd_ok {c c' : Shard} {rc rc' : Refs} {fuel : Nat} {key : Key} {p : Nat}
    {added : Bool} (h : c.metaAdd fuel rc key p = .ok (c', rc', added))
    : ∃ c1 e, c.evict fuel rc = .ok (c1, rc') ∧ c1.arena p = some e ∧
      (c1.targetSize < e.size ∧ c' = c1 ∧ added = false ∨
        e.size ≤ c1.targetSize ∧ c' = c1.link key p ∧ added = true) := by
  obtain ⟨⟨c1, rc1⟩, hev, h⟩ := bind_eq_ok.mp h
  obtain ⟨e, he, h⟩ := bind_eq_ok.mp h
  refine ⟨c1, e, ?_, entry_eq_ok.mp he, ?_⟩
  · split at h
    · cases h; exact hev
    · cases h; exact hev
  · split at h
    · cases h; exact .inl ⟨by assumption, rfl, rfl⟩
    · cases h; exact .inr ⟨by omega, rfl, rfl⟩

/-- `metaAdd` on an allocated entry off the ring whose k is absent: once counted, a
linked entry keeps the invariant, and a declined one can be freed. -/
theorem Tallied.metaAdd {c c' : Shard} {rc rc' : Refs} {fuel : Nat} {k : Key} {p : Nat}
    {e : Entry} {added : Bool} (hi : c.Tallied) (hp : p ∉ c.blockLinks) (he : c.arena p = some e)
    (hk : e.key = k) (hb : c.blocks k = none) (hv : e.val = none ↔ e.ptype = etTest)
    (hsz : 0 ≤ e.size) (h : c.metaAdd fuel rc k p = .ok (c', rc', added))
    : (added = true → (c'.count e).Tallied) ∧ (added = false → (c'.freeEntry rc' p).1.Tallied) := by
  obtain ⟨c1, e1, hev, he1, hc⟩ := metaAdd_ok h
  have hi1 := hi.evict hev
  have ev := Evolves.evict hi hev
  have hp1 : p ∉ c1.blockLinks := fun h => hp (ev.ring.subset h)
  obtain rfl : e1 = e := Option.some.inj (he1.symm.trans ((ev.offRing p hp).trans he))
  rcases hc with ⟨-, rfl, rfl⟩ | ⟨-, rfl, rfl⟩
  · exact ⟨nofun, fun _ => hi1.freeEntry hp1⟩
  · exact ⟨fun _ => hi1.link hp1 he1 hk (hi.blocks_none hi1.toShape ev hb) hv hsz, nofun⟩

/-- What `metaEvict` does: uncount the entry, unlink it and free it, releasing nothing. -/
theorem metaEvict_ok {c c' : Shard} {rc rc' : Refs} {p : Nat} {v : Option Value}
    (h : c.metaEvict rc p = .ok (c', rc', v))
    : ∃ e, c.arena p = some e ∧ c' = (((c.uncount e).detach p e).freeEntry rc p).1 ∧ rc' = rc ∧
      v = e.val := by
  obtain ⟨e, he, h⟩ := bind_eq_ok.mp h
  have he := entry_eq_ok.mp he
  refine ⟨e, he, ?_⟩
  split at h
  all_goals
    rename_i hpt
    obtain ⟨⟨c2, v2⟩, h2, h⟩ := bind_eq_ok.mp h
    obtain ⟨e2, he2, rfl, rfl⟩ := metaDel_ok h2
    cases h
    obtain rfl : e = e2 := Option.some.inj (he.symm.trans he2)
    refine ⟨by simp [uncount, oneOf, bytesOf, hpt, Shard.freeEntry, Shard.detach], ?_, rfl⟩
    simp [Shard.freeEntry, Shard.detach, release]

/-- `metaEvict` on a live entry succeeds. -/
theorem metaEvict_eq {c : Shard} {rc : Refs} {p : Nat} {e : Entry} (he : c.arena p = some e)
    : c.metaEvict rc p = .ok ((((c.uncount e).detach p e).freeEntry rc p).1, rc, e.val) := by
  cases hpt : e.ptype <;>
    simp [Shard.metaEvict, Shard.metaDel, Shard.entry, he, hpt, uncount, oneOf, bytesOf,
      Shard.freeEntry, Shard.detach, release, bind, Except.bind, pure, Except.pure]

/-- Evicting a ring entry keeps the invariant. -/
theorem Tallied.metaEvict {c c' : Shard} {rc rc' : Refs} {p : Nat} {v : Option Value} (hi : c.Tallied)
    (hp : p ∈ c.blockLinks) (h : c.metaEvict rc p = .ok (c', rc', v))
    : c'.Tallied := by
  obtain ⟨e, he, rfl, -, -⟩ := metaEvict_ok h
  exact (hi.detach hp he).freeEntry hi.nodup.not_mem_erase

-----------------------------------------------------------------------------------------
-- The three cases of Set
-----------------------------------------------------------------------------------------

@[simp] theorem setEntry_setEntry {c : Shard} {p : Nat} {e e' : Entry}
    : (c.setEntry p e).setEntry p e' = c.setEntry p e' := by
  simp [setEntry]

/-- `Set` on an absent key: a new cold entry at the next address holds the value and one
reference to it, and `metaAdd` either links it (then it is counted) or declines it (then
it is freed). -/
theorem setAbsent_ok {c c' : Shard} {rc rc' : Refs} {fuel : Nat} {k : Key} {value : Value}
    (h : setAbsent fuel c rc k value = .ok (c', rc'))
    : ∃ c3 rc3 added,
      ({ c with entryAlloc := c.entryAlloc + 1 }.setEntry c.entryAlloc
          { newEntry k value.len with val := some value }).metaAdd fuel (acquire rc value) k
          c.entryAlloc = .ok (c3, rc3, added) ∧
      (added = true ∧ c' = c3.count { newEntry k value.len with val := some value } ∧ rc' = rc3 ∨
        added = false ∧ (c', rc') = c3.freeEntry rc3 c.entryAlloc) := by
  simp only [setAbsent, setValue] at h
  obtain ⟨⟨c3, rc3, added⟩, h3, h⟩ := bind_eq_ok.mp h
  refine ⟨c3, rc3, added, by simpa [setEntry, Function.update_idem, newEntry, release] using h3, ?_⟩
  cases added with
  | true =>
      cases h
      exact .inl ⟨rfl, by simp [count, oneOf, bytesOf, newEntry], rfl⟩
  | false => exact .inr ⟨rfl, (Except.ok.inj h).symm⟩

/-- `Set` on a resident key: the entry takes the new value and its size, its bit set, the
counters follow, and `evict` runs. -/
theorem setResident_ok {c c' : Shard} {rc rc' : Refs} {fuel p : Nat} {e : Entry}
    {value : Value} (hnt : e.ptype ≠ etTest) (h : setResident fuel c rc p e value = .ok (c', rc'))
    : ((c.setEntry p { e with val := some value, referenced := true, size := value.len }).recount e
      { e with val := some value, referenced := true, size := value.len }).evict fuel
      (release (acquire rc value) e.val) = .ok (c', rc') := by
  simp only [setResident, setValue, setEntry_setEntry] at h
  convert h using 2
  split
  next hpt => simp [recount, oneOf, bytesOf, hpt]; omega
  next hpt =>
    have hc : e.ptype = etCold := by cases hq : e.ptype <;> simp_all
    simp [recount, oneOf, bytesOf, hc]; omega

/-- `Set` on a ghost: the ghost is uncounted and unlinked, `coldTarget` grows by the new
size up to the target, the entry comes back hot with the value, and `metaAdd` links it
(then it is counted) or declines it (then it is freed). -/
theorem setTest_ok {c c' : Shard} {rc rc' : Refs} {fuel p : Nat} {k : Key} {e : Entry}
    {value : Value} (he : c.arena p = some e) (hte : e.ptype = etTest)
    (h : setTest fuel c rc k p e value = .ok (c', rc'))
    : ∃ c6 rc6 added,
      metaAdd fuel
        (Shard.setEntry { (c.uncount e).detach p e with
            coldTarget := if c.coldTarget + value.len > c.targetSize then c.targetSize
              else c.coldTarget + value.len }
          p { e with val := some value, size := value.len, referenced := false, ptype := etHot })
        (acquire (release rc e.val) value) k p = .ok (c6, rc6, added) ∧
      (added = true ∧ rc' = rc6 ∧ c' = c6.count
          { e with val := some value, size := value.len, referenced := false, ptype := etHot } ∨
        added = false ∧ (c', rc') = c6.freeEntry rc6 p) := by
  simp only [setTest, setValue] at h
  obtain ⟨⟨c2, v⟩, h2, h⟩ := bind_eq_ok.mp h
  obtain ⟨e2, he2, rfl, rfl⟩ := metaDel_ok h2
  obtain rfl : e = e2 := Option.some.inj (he.symm.trans he2)
  obtain ⟨⟨c6, rc6, added⟩, h6, h⟩ := bind_eq_ok.mp h
  have hu : ({ c with sizeTest := c.sizeTest - e.size, countTest := c.countTest - 1 } : Shard) =
      c.uncount e := by simp [uncount, oneOf, bytesOf, hte]
  rw [hu, setEntry_setEntry] at h6
  refine ⟨c6, rc6, added, h6, ?_⟩
  cases added with
  | true =>
      cases h
      exact .inl ⟨rfl, rfl, by simp [count, oneOf, bytesOf]⟩
  | false => exact .inr ⟨rfl, (Except.ok.inj h).symm⟩

/-- What `Set` does: the value carries one reference, which passes to the handle; the key's
entry decides the case; and the counters pass the consistency check. -/
theorem set_ok {c c' : Shard} {rc rc' : Refs} {fuel : Nat} {id fileNum offset : UInt64}
    {value : Value} {hd : Handle} (h : c.set fuel rc id fileNum offset value = .ok (c', rc', hd))
    : rc value.addr = 1 ∧ hd = ⟨some value⟩ ∧ c'.checkConsistency = .ok () ∧
      (c.blocks ⟨id, fileNum, offset⟩ = none ∧
          setAbsent fuel c rc ⟨id, fileNum, offset⟩ value = .ok (c', rc') ∨
        ∃ p e, c.blocks ⟨id, fileNum, offset⟩ = some p ∧ c.arena p = some e ∧
          (e.val ≠ none ∧ setResident fuel c rc p e value = .ok (c', rc') ∨
            e.val = none ∧ setTest fuel c rc ⟨id, fileNum, offset⟩ p e value = .ok (c', rc'))) := by
  unfold Shard.set at h
  dsimp only at h
  split at h
  · cases h
  next hn =>
  have tail : ∀ x : Except Fault (Shard × Refs),
      (x >>= fun y => do y.1.checkConsistency; pure (y.1, y.2, ⟨some value⟩)) = .ok (c', rc', hd) →
        x = .ok (c', rc') ∧ hd = ⟨some value⟩ ∧ c'.checkConsistency = .ok () := by
    intro x hx
    obtain ⟨⟨c1, rc1⟩, h1, hx⟩ := bind_eq_ok.mp hx
    obtain ⟨_, h2, hx⟩ := bind_eq_ok.mp hx
    cases hx
    exact ⟨h1, rfl, h2⟩
  split at h
  · next hb =>
    obtain ⟨h1, rfl, h2⟩ := tail _ h
    exact ⟨not_not.mp hn, rfl, h2, .inl ⟨hb, h1⟩⟩
  · next p hb =>
    obtain ⟨e, he, h⟩ := bind_eq_ok.mp h
    split at h
    · next v hv =>
      obtain ⟨h1, rfl, h2⟩ := tail _ h
      exact ⟨not_not.mp hn, rfl, h2, .inr ⟨p, e, hb, entry_eq_ok.mp he, .inl ⟨by simp [hv], h1⟩⟩⟩
    · next hv =>
      obtain ⟨h1, rfl, h2⟩ := tail _ h
      exact ⟨not_not.mp hn, rfl, h2, .inr ⟨p, e, hb, entry_eq_ok.mp he, .inr ⟨hv, h1⟩⟩⟩

/-- What `Get` does: a miss counts and returns an empty handle; a hit sets the entry's bit,
acquires its value and returns a handle on it. -/
theorem get_ok {c c' : Shard} {rc rc' : Refs} {id fileNum offset : UInt64} {hd : Handle}
    (h : c.get rc id fileNum offset = .ok (c', rc', hd))
    : hd = ⟨none⟩ ∧ rc' = rc ∧ c' = { c with misses := c.misses + 1 } ∨
      ∃ p e v, c.blocks ⟨id, fileNum, offset⟩ = some p ∧ c.arena p = some e ∧ e.val = some v ∧
        hd = ⟨some v⟩ ∧ rc' = acquire rc v ∧
        c' = { c.setEntry p { e with referenced := true } with hits := c.hits + 1 } := by
  obtain ⟨⟨c1, rc1, value⟩, h1, h⟩ := bind_eq_ok.mp h
  unfold getLocked at h1
  split at h1
  · cases h1; cases h; exact .inl ⟨rfl, rfl, rfl⟩
  · next p hb =>
    obtain ⟨e, he, h1⟩ := bind_eq_ok.mp h1
    split at h1
    · cases h1; cases h; exact .inl ⟨rfl, rfl, rfl⟩
    · next v hv =>
      cases h1; cases h
      exact .inr ⟨p, e, v, hb, entry_eq_ok.mp he, hv, rfl, rfl, rfl⟩

-----------------------------------------------------------------------------------------
-- Each operation keeps the invariant
-----------------------------------------------------------------------------------------

/-- The slot `Set` takes for an absent key is off the ring, and writing the new entry there
keeps the invariant. -/
theorem Tallied.newSlot {c : Shard} (hi : c.Tallied) (e : Entry)
    : c.entryAlloc ∉ c.blockLinks ∧
      (Shard.setEntry { c with entryAlloc := c.entryAlloc + 1 } c.entryAlloc e).Tallied :=
  have hp : c.entryAlloc ∉ c.blockLinks := fun hm => by
    simpa [hi.fresh _ le_rfl] using hi.live _ hm
  ⟨hp, hi.bumpAlloc.setOff hp (Nat.lt_succ_self _)⟩

theorem Inv.newSlot {c : Shard} (hi : c.Inv) (e : Entry)
    : c.entryAlloc ∉ c.blockLinks ∧
      (Shard.setEntry { c with entryAlloc := c.entryAlloc + 1 } c.entryAlloc e).Inv :=
  let ⟨hp, ht⟩ := hi.toTallied.newSlot e
  ⟨hp, ht, hi.coldTarget⟩

/-- The state in which `Set` re-adds a ghost's entry as hot: the ghost is out, `coldTarget`
has grown up to the target and the entry holds the value, off the ring, with the
invariant. -/
theorem Tallied.ghostSlot {c : Shard} {p : Nat} {e : Entry} (hi : c.Tallied) (hp : p ∈ c.blockLinks)
    (he : c.arena p = some e) (value : Value)
    : p ∉ ((c.uncount e).detach p e).blockLinks ∧
      (Shard.setEntry { (c.uncount e).detach p e with
          coldTarget := if c.coldTarget + value.len > c.targetSize then c.targetSize
            else c.coldTarget + value.len }
        p { e with val := some value, size := value.len, referenced := false, ptype := etHot }).Tallied :=
  have hp2 : p ∉ ((c.uncount e).detach p e).blockLinks := hi.nodup.not_mem_erase
  ⟨hp2, ((hi.detach hp he).withColdTarget _).setOff hp2 (hi.lt_entryAlloc he)⟩

/-- A ghost hit moves `coldTarget` up by the new size, up to the target, which keeps it
within range. -/
theorem ghostHit_coldTarget {c : Shard} (hct : 0 ≤ c.coldTarget ∧ c.coldTarget ≤ c.targetSize)
    {len : Int} (hlen : 0 ≤ len)
    : 0 ≤ (if c.coldTarget + len > c.targetSize then c.targetSize else c.coldTarget + len) ∧
      (if c.coldTarget + len > c.targetSize then c.targetSize else c.coldTarget + len) ≤
        c.targetSize := by
  have := c.targetSize_pos; split <;> omega

theorem Inv.ghostSlot {c : Shard} {p : Nat} {e : Entry} (hi : c.Inv) (hp : p ∈ c.blockLinks)
    (he : c.arena p = some e) (value : Value)
    : p ∉ ((c.uncount e).detach p e).blockLinks ∧
      (Shard.setEntry { (c.uncount e).detach p e with
          coldTarget := if c.coldTarget + value.len > c.targetSize then c.targetSize
            else c.coldTarget + value.len }
        p { e with val := some value, size := value.len, referenced := false, ptype := etHot }).Inv :=
  let ⟨hp2, ht⟩ := hi.toTallied.ghostSlot hp he value
  ⟨hp2, ht, ghostHit_coldTarget hi.coldTarget (Int.ofNat_nonneg _)⟩

theorem Tallied.setAbsent {c c' : Shard} {rc rc' : Refs} {fuel : Nat} {k : Key} {value : Value}
    (hi : c.Tallied) (hb : c.blocks k = none) (h : setAbsent fuel c rc k value = .ok (c', rc'))
    : c'.Tallied := by
  obtain ⟨c3, rc3, added, h3, hc⟩ := setAbsent_ok h
  obtain ⟨hp, hi2⟩ := hi.newSlot { newEntry k value.len with val := some value }
  have hadd := hi2.metaAdd (k := k) (e := { newEntry k value.len with val := some value }) hp
    (Function.update_same _ _ _) rfl hb (by simp [newEntry]) (Int.ofNat_nonneg _) h3
  rcases hc with ⟨rfl, rfl, rfl⟩ | ⟨rfl, hc⟩
  · exact hadd.1 rfl
  · rw [show c' = (c3.freeEntry rc3 c.entryAlloc).1 from congrArg Prod.fst hc]; exact hadd.2 rfl

/-- `Set` on a resident key rewrites the entry, which keeps the invariant, and evicts. -/
theorem Tallied.setResident_evict {c c' : Shard} {rc rc' : Refs} {fuel p : Nat} {e : Entry}
    {value : Value} (hi : c.Tallied) (hp : p ∈ c.blockLinks) (he : c.arena p = some e)
    (hv : e.val ≠ none) (h : setResident fuel c rc p e value = .ok (c', rc'))
    : ((c.setEntry p { e with val := some value, referenced := true, size := value.len }).recount e
        { e with val := some value, referenced := true, size := value.len }).Tallied ∧
      ((c.setEntry p { e with val := some value, referenced := true, size := value.len }).recount e
        { e with val := some value, referenced := true, size := value.len }).evict fuel
        (release (acquire rc value) e.val) = .ok (c', rc') := by
  have hnt : e.ptype ≠ etTest := fun ht => hv ((hi.vals p hp e he).mpr ht)
  exact ⟨hi.rewrite hp he rfl (by simp [hnt]) (Int.ofNat_nonneg _), setResident_ok hnt h⟩

theorem Inv.setResident_evict {c c' : Shard} {rc rc' : Refs} {fuel p : Nat} {e : Entry}
    {value : Value} (hi : c.Inv) (hp : p ∈ c.blockLinks) (he : c.arena p = some e)
    (hv : e.val ≠ none) (h : setResident fuel c rc p e value = .ok (c', rc'))
    : ((c.setEntry p { e with val := some value, referenced := true, size := value.len }).recount e
        { e with val := some value, referenced := true, size := value.len }).Inv ∧
      ((c.setEntry p { e with val := some value, referenced := true, size := value.len }).recount e
        { e with val := some value, referenced := true, size := value.len }).evict fuel
        (release (acquire rc value) e.val) = .ok (c', rc') :=
  let ⟨ht, h0⟩ := hi.toTallied.setResident_evict hp he hv h
  ⟨⟨ht, hi.coldTarget⟩, h0⟩

theorem Tallied.setResident {c c' : Shard} {rc rc' : Refs} {fuel p : Nat} {e : Entry}
    {value : Value} (hi : c.Tallied) (hp : p ∈ c.blockLinks) (he : c.arena p = some e)
    (hv : e.val ≠ none) (h : setResident fuel c rc p e value = .ok (c', rc'))
    : c'.Tallied :=
  let ⟨hi0, h0⟩ := hi.setResident_evict hp he hv h
  hi0.evict h0

theorem Tallied.setTest {c c' : Shard} {rc rc' : Refs} {fuel p : Nat} {k : Key} {e : Entry}
    {value : Value} (hi : c.Tallied) (hp : p ∈ c.blockLinks) (he : c.arena p = some e)
    (hk : e.key = k) (hte : e.ptype = etTest) (h : setTest fuel c rc k p e value = .ok (c', rc'))
    : c'.Tallied := by
  obtain ⟨c6, rc6, added, h6, hc⟩ := setTest_ok he hte h
  obtain ⟨hp2, hi3⟩ := hi.ghostSlot hp he value
  have hb : ((c.uncount e).detach p e).blocks k = none := by simp [Shard.detach, uncount, hk]
  have hadd := hi3.metaAdd (k := k)
    (e := { e with val := some value, size := value.len, referenced := false, ptype := etHot })
    hp2 (Function.update_same _ _ _) hk hb (by simp) (Int.ofNat_nonneg _) h6
  rcases hc with ⟨rfl, rfl, rfl⟩ | ⟨rfl, hc⟩
  · exact hadd.1 rfl
  · rw [show c' = (c6.freeEntry rc6 p).1 from congrArg Prod.fst hc]; exact hadd.2 rfl

theorem Tallied.set {c c' : Shard} {rc rc' : Refs} {fuel : Nat} {id fileNum offset : UInt64}
    {value : Value} {hd : Handle} (hi : c.Tallied)
    (h : c.set fuel rc id fileNum offset value = .ok (c', rc', hd))
    : c'.Tallied := by
  obtain ⟨-, -, -, hc⟩ := set_ok h
  rcases hc with ⟨hb, h⟩ | ⟨p, e, hb, he, ⟨hv, h⟩ | ⟨hv, h⟩⟩
  · exact hi.setAbsent hb h
  · exact hi.setResident ((hi.blocks _ _).mp hb).1 he hv h
  · obtain ⟨hp, hk⟩ := (hi.blocks _ _).mp hb
    exact hi.setTest hp he (by simpa [keyAt, he] using hk) ((hi.vals p hp e he).mp hv) h

theorem Tallied.get {c c' : Shard} {rc rc' : Refs} {id fileNum offset : UInt64} {hd : Handle}
    (hi : c.Tallied) (h : c.get rc id fileNum offset = .ok (c', rc', hd))
    : c'.Tallied := by
  obtain ⟨⟨c1, rc1, value⟩, h1, h⟩ := bind_eq_ok.mp h
  unfold getLocked at h1
  have hi1 : c1.Tallied := by
    split at h1
    · cases h1; exact hi
    · next p hb =>
      obtain ⟨e, he, h1⟩ := bind_eq_ok.mp h1
      have he := entry_eq_ok.mp he
      have hp := ((hi.blocks _ _).mp hb).1
      split at h1
      · cases h1; exact hi
      · cases h1
        have h := hi.rewrite hp he (d := { e with referenced := true }) rfl (hi.vals p hp e he)
          (hi.sizes p hp e he)
        rwa [recount_of_same (e := e) (d := { e with referenced := true }) rfl rfl] at h
  cases value <;> cases h <;>
    exact { hi1 with toShape := hi1.toShape.congr rfl rfl rfl rfl rfl rfl rfl rfl rfl }

theorem Tallied.deleteLocked {c c' : Shard} {rc rc' : Refs} {k : Key} {v : Option Value}
    (hi : c.Tallied) (h : c.deleteLocked rc k = .ok (c', rc', v))
    : c'.Tallied := by
  unfold Shard.deleteLocked at h
  split at h
  · cases h; exact hi
  · next p hb =>
    obtain ⟨⟨c1, rc1, v1⟩, h1, h⟩ := bind_eq_ok.mp h
    obtain ⟨_, -, h⟩ := bind_eq_ok.mp h
    cases h
    exact hi.metaEvict ((hi.blocks _ _).mp hb).1 h1

/-- The batch loop of `evictFileRun` keeps the invariant: the next entry of the file ring
is still on the clock ring after `metaEvict`, by induction on the room left. -/
theorem Tallied.evictFileRunLoop {c c' : Shard} {rc rc' : Refs} {b : Nat} {obs obs' : List (Option Value)}
    {more : Bool}
    : ∀ {room : Nat}, c.Tallied → b ∈ c.blockLinks →
        evictFileRunLoop room c rc b obs = .ok (c', rc', obs', more) → c'.Tallied
  | 0, hi, _, h => by cases h; exact hi
  | room + 1, hi, hb, h => by
    obtain ⟨e, he, h⟩ := bind_eq_ok.mp h
    have he := entry_eq_ok.mp he
    obtain ⟨⟨c1, rc1, v⟩, h1, h⟩ := bind_eq_ok.mp h
    have hi1 := hi.metaEvict hb h1
    dsimp only at h
    split at h
    · obtain ⟨_, -, h⟩ := bind_eq_ok.mp h
      cases h; exact hi1
    · next hn =>
      refine Tallied.evictFileRunLoop hi1 ?_ h
      obtain ⟨e1, he1, rfl, -, -⟩ := metaEvict_ok h1
      have hbf : b ∈ c.fileLinks e.key.file := (hi.fileLinks _ _).mpr ⟨hb, by simp [keyAt, he]⟩
      rw [freeEntry_fst]
      exact (List.Nodup.mem_erase_iff hi.nodup).mpr
        ⟨Ne.symm hn, ((hi.fileLinks _ _).mp (ringNext_mem hbf)).1⟩

theorem Tallied.evictFileRun {c c' : Shard} {rc rc' : Refs} {fkey : Key} {more : Bool} (hi : c.Tallied)
    (h : c.evictFileRun rc fkey = .ok (c', rc', more))
    : c'.Tallied := by
  unfold Shard.evictFileRun at h
  split at h
  · cases h; exact hi
  · next b hb =>
    obtain ⟨⟨c1, rc1, obs, more1⟩, h1, h⟩ := bind_eq_ok.mp h
    cases h
    exact hi.evictFileRunLoop ((hi.fileLinks _ _).mp (hi.filesHead _ _ hb)).1 h1

/-- What `Reserve` does: it moves the budget by the amount in `int64`, clamps `coldTarget`
to the new target, which keeps the invariant, and evicts. -/
theorem reserve_ok {c c' : Shard} {rc rc' : Refs} {fuel : Nat} {n : Int}
    (h : c.reserve fuel rc n = .ok (c', rc'))
    : ∃ c0 : Shard, (c.Tallied → c0.Tallied) ∧ (c.Inv → c0.Inv) ∧ c0.blockLinks = c.blockLinks ∧
      c0.arena = c.arena ∧
      (c0.reservedSize = wrap64 (c.reservedSize + n) ∧ c0.maxSize = c.maxSize) ∧
      c0.evict fuel rc = .ok (c', rc') := by
  obtain ⟨⟨c1, rc1⟩, h1, h⟩ := bind_eq_ok.mp h
  obtain ⟨_, -, h⟩ := bind_eq_ok.mp h
  cases h
  refine ⟨_, fun hi => ?_, fun hi => ?_, by split <;> rfl, by split <;> rfl,
    by split <;> exact ⟨rfl, rfl⟩, h1⟩
  · split <;> exact { hi with toShape := hi.toShape.congr rfl rfl rfl rfl rfl rfl rfl rfl rfl }
  · have hpos := targetSize_pos { c with reservedSize := wrap64 (c.reservedSize + n) }
    split
    · exact { hi with
        toShape := hi.toShape.congr rfl rfl rfl rfl rfl rfl rfl rfl rfl
        coldTarget := ⟨le_trans (by decide) hpos, le_rfl⟩ }
    · next hle => exact { hi with
        toShape := hi.toShape.congr rfl rfl rfl rfl rfl rfl rfl rfl rfl
        coldTarget := ⟨hi.coldTarget.1, not_lt.mp hle⟩ }

theorem Tallied.reserve {c c' : Shard} {rc rc' : Refs} {fuel : Nat} {n : Int} (hi : c.Tallied)
    (h : c.reserve fuel rc n = .ok (c', rc'))
    : c'.Tallied :=
  let ⟨_, hi0, _, _, _, _, h0⟩ := reserve_ok h
  (hi0 hi).evict h0

theorem Inv.reserve {c c' : Shard} {rc rc' : Refs} {fuel : Nat} {n : Int} (hi : c.Inv)
    (h : c.reserve fuel rc n = .ok (c', rc'))
    : c'.Inv :=
  let ⟨_, _, hi0, _, _, _, h0⟩ := reserve_ok h
  (hi0 hi).evict h0

-----------------------------------------------------------------------------------------
-- The range of coldTarget
-----------------------------------------------------------------------------------------

/-- A step that keeps `coldTarget` and the budget keeps `coldTarget` within range. -/
theorem coldTarget_mem_of_eq {c c' : Shard}
    (hct : 0 ≤ c.coldTarget ∧ c.coldTarget ≤ c.targetSize) (h1 : c'.coldTarget = c.coldTarget)
    (h2 : c'.maxSize = c.maxSize) (h3 : c'.reservedSize = c.reservedSize)
    : 0 ≤ c'.coldTarget ∧ c'.coldTarget ≤ c'.targetSize := by
  simp only [targetSize, h1, h2, h3]; exact hct

/-- `metaAdd` keeps `coldTarget` within range: its eviction does, and linking the entry or
declining it reads neither `coldTarget` nor the budget. -/
theorem Tallied.metaAdd_coldTarget {c c' : Shard} {rc rc' : Refs} {fuel : Nat} {k : Key} {p : Nat}
    {added : Bool} (hi : c.Tallied) (h : c.metaAdd fuel rc k p = .ok (c', rc', added))
    (hct : 0 ≤ c.coldTarget ∧ c.coldTarget ≤ c.targetSize)
    : 0 ≤ c'.coldTarget ∧ c'.coldTarget ≤ c'.targetSize := by
  obtain ⟨c1, e1, hev, -, hc⟩ := metaAdd_ok h
  have h1 := (Evolves.evict hi hev).coldTarget_mem hct
  rcases hc with ⟨-, rfl, -⟩ | ⟨-, rfl, -⟩
  · exact h1
  · simp only [Shard.link, linkFile_coldTarget, linkBlock_coldTarget, linkFile_targetSize,
      linkBlock_targetSize]
    exact h1

/-- `Set` keeps `coldTarget` within range; on a ghost it grows up to the target before
`metaAdd` runs. -/
theorem Tallied.set_coldTarget {c c' : Shard} {rc rc' : Refs} {fuel : Nat}
    {id fileNum offset : UInt64} {value : Value} {hd : Handle} (hi : c.Tallied)
    (h : c.set fuel rc id fileNum offset value = .ok (c', rc', hd))
    (hct : 0 ≤ c.coldTarget ∧ c.coldTarget ≤ c.targetSize)
    : 0 ≤ c'.coldTarget ∧ c'.coldTarget ≤ c'.targetSize := by
  obtain ⟨-, -, -, hc⟩ := set_ok h
  rcases hc with ⟨hb, h⟩ | ⟨p, e, hb, he, ⟨hv, h⟩ | ⟨hv, h⟩⟩
  · obtain ⟨c3, rc3, added, h3, hc⟩ := setAbsent_ok h
    have h3' := (hi.newSlot { newEntry ⟨id, fileNum, offset⟩ value.len with val := some value }).2
      |>.metaAdd_coldTarget h3 hct
    rcases hc with ⟨-, rfl, -⟩ | ⟨-, hc⟩
    · exact h3'
    · rw [show c' = (c3.freeEntry rc3 c.entryAlloc).1 from congrArg Prod.fst hc, freeEntry_fst]
      exact h3'
  · obtain ⟨hi0, h0⟩ := hi.setResident_evict ((hi.blocks _ _).mp hb).1 he hv h
    exact (Evolves.evict hi0 h0).coldTarget_mem hct
  · obtain ⟨hp, hk⟩ := (hi.blocks _ _).mp hb
    obtain ⟨c6, rc6, added, h6, hc⟩ := setTest_ok he ((hi.vals p hp e he).mp hv) h
    have h6' := (hi.ghostSlot hp he value).2.metaAdd_coldTarget h6
      (ghostHit_coldTarget hct (Int.ofNat_nonneg _))
    rcases hc with ⟨-, -, rfl⟩ | ⟨-, hc⟩
    · exact h6'
    · rw [show c' = (c6.freeEntry rc6 p).1 from congrArg Prod.fst hc, freeEntry_fst]
      exact h6'

/-- A batch of `EvictFile` moves neither `coldTarget` nor the budget, by induction on the
room left. -/
theorem evictFileRunLoop_budget {c c' : Shard} {rc rc' : Refs} {b : Nat}
    {obs obs' : List (Option Value)} {more : Bool}
    : ∀ {room : Nat},
        evictFileRunLoop room c rc b obs = .ok (c', rc', obs', more) →
        c'.coldTarget = c.coldTarget ∧ c'.maxSize = c.maxSize ∧ c'.reservedSize = c.reservedSize
  | 0, h => by cases h; exact ⟨rfl, rfl, rfl⟩
  | room + 1, h => by
    obtain ⟨e, -, h⟩ := bind_eq_ok.mp h
    obtain ⟨⟨c1, rc1, v⟩, h1, h⟩ := bind_eq_ok.mp h
    obtain ⟨e1, -, rfl, -, -⟩ := metaEvict_ok h1
    dsimp only at h
    split at h
    · obtain ⟨_, -, h⟩ := bind_eq_ok.mp h
      cases h; simp [freeEntry_fst, Shard.detach, uncount]
    · have := evictFileRunLoop_budget h
      simpa [freeEntry_fst, Shard.detach, uncount] using this

-----------------------------------------------------------------------------------------
-- Reachable shards
-----------------------------------------------------------------------------------------

/-- One step of a shard under its mutex: `Get`, `Set`, the locked part of `Delete`, one
batch of `EvictFile`, or `Reserve`. What runs after unlocking changes only reference
counts, so the phases of `Delete` and `EvictFile` interleave freely with other steps. -/
inductive Step : Shard → Shard → Prop
  | get {c c' : Shard} {rc rc' : Refs} {id fileNum offset : UInt64} {hd : Handle}
      (run : c.get rc id fileNum offset = .ok (c', rc', hd)) : Step c c'
  | set {c c' : Shard} {fuel : Nat} {rc rc' : Refs} {id fileNum offset : UInt64} {value : Value}
      {hd : Handle} (run : c.set fuel rc id fileNum offset value = .ok (c', rc', hd)) : Step c c'
  | delete {c c' : Shard} {rc rc' : Refs} {k : Key} {v : Option Value}
      (run : c.deleteLocked rc k = .ok (c', rc', v)) : Step c c'
  | evictFileRun {c c' : Shard} {rc rc' : Refs} {fkey : Key} {more : Bool}
      (run : c.evictFileRun rc fkey = .ok (c', rc', more)) : Step c c'
  | reserve {c c' : Shard} {fuel : Nat} {rc rc' : Refs} {n : Int}
      (run : c.reserve fuel rc n = .ok (c', rc')) : Step c c'

/-- The shards reachable from `c` by any sequence of steps. -/
abbrev Reachable (c : Shard) : Shard → Prop := Relation.ReflTransGen Step c

/-- A property that each step keeps holds all along a run. -/
theorem Reachable.keep {P : Shard → Prop} (hP : ∀ {c c'}, Step c c' → P c → P c') {c c' : Shard}
    (h : Reachable c c') (hc : P c)
    : P c' := by
  induction h with
  | refl => exact hc
  | tail _ st ih => exact hP st ih

theorem Tallied.step {c c' : Shard} (hi : c.Tallied) : Step c c' → c'.Tallied
  | .get run => hi.get run
  | .set run => hi.set run
  | .delete run => hi.deleteLocked run
  | .evictFileRun run => hi.evictFileRun run
  | .reserve run => hi.reserve run

theorem Tallied.reachable {c c' : Shard} (hi : c.Tallied) (h : Reachable c c') : c'.Tallied :=
  h.keep (fun st hi => hi.step st) hi

/-- Every step keeps `coldTarget` within range: only the eviction sweep, a ghost hit and
`Reserve` move it, and each of them clamps it. -/
theorem Inv.step {c c' : Shard} (hi : c.Inv) (st : Step c c') : c'.Inv := by
  refine ⟨hi.toTallied.step st, ?_⟩
  have hct := hi.coldTarget
  cases st with
  | get run =>
    rcases get_ok run with ⟨-, -, rfl⟩ | ⟨p, e, v, -, -, -, -, -, rfl⟩ <;> exact hct
  | set run => exact hi.toTallied.set_coldTarget run hct
  | delete run =>
    unfold Shard.deleteLocked at run
    split at run
    · cases run; exact hct
    · obtain ⟨⟨c1, rc1, v1⟩, h1, h⟩ := bind_eq_ok.mp run
      obtain ⟨_, -, h⟩ := bind_eq_ok.mp h
      cases h
      obtain ⟨e, -, rfl, -, -⟩ := metaEvict_ok h1
      exact coldTarget_mem_of_eq hct (by simp [freeEntry_fst, Shard.detach, uncount])
        (by simp [freeEntry_fst, Shard.detach, uncount])
        (by simp [freeEntry_fst, Shard.detach, uncount])
  | evictFileRun run =>
    unfold Shard.evictFileRun at run
    split at run
    · cases run; exact hct
    · obtain ⟨⟨c1, rc1, obs, more1⟩, h1, h⟩ := bind_eq_ok.mp run
      cases h
      obtain ⟨h1, h2, h3⟩ := evictFileRunLoop_budget h1
      exact coldTarget_mem_of_eq hct h1 h2 h3
  | reserve run => exact (hi.reserve run).coldTarget

theorem Inv.reachable {c c' : Shard} (hi : c.Inv) (h : Reachable c c') : c'.Inv :=
  h.keep (fun st hi => hi.step st) hi

theorem Inv.set {c c' : Shard} {rc rc' : Refs} {fuel : Nat} {id fileNum offset : UInt64}
    {value : Value} {hd : Handle} (hi : c.Inv)
    (h : c.set fuel rc id fileNum offset value = .ok (c', rc', hd))
    : c'.Inv :=
  hi.step (.set h)

theorem Inv.get {c c' : Shard} {rc rc' : Refs} {id fileNum offset : UInt64} {hd : Handle}
    (hi : c.Inv) (h : c.get rc id fileNum offset = .ok (c', rc', hd))
    : c'.Inv :=
  hi.step (.get h)

theorem Inv.deleteLocked {c c' : Shard} {rc rc' : Refs} {k : Key} {v : Option Value}
    (hi : c.Inv) (h : c.deleteLocked rc k = .ok (c', rc', v))
    : c'.Inv :=
  hi.step (.delete h)

theorem Inv.evictFileRun {c c' : Shard} {rc rc' : Refs} {fkey : Key} {more : Bool} (hi : c.Inv)
    (h : c.evictFileRun rc fkey = .ok (c', rc', more))
    : c'.Inv :=
  hi.step (.evictFileRun h)

/-- A whole `Delete` is its locked part, as far as the shard is concerned. -/
theorem reachable_of_delete {c c' : Shard} {rc rc' : Refs} {id fileNum offset : UInt64}
    (h : c.delete rc id fileNum offset = .ok (c', rc'))
    : Reachable c c' := by
  simp only [Shard.delete] at h
  split at h
  · cases h; exact .refl
  · obtain ⟨⟨c1, rc1, v⟩, h1, h⟩ := bind_eq_ok.mp h
    cases h
    exact .single (.delete h1)

/-- A whole `EvictFile` is a sequence of batches, by induction on its loop. -/
theorem reachable_of_evictFileLoop {c c' : Shard} {rc rc' : Refs} {fkey : Key}
    : ∀ {n : Nat}, c.evictFileLoop n rc fkey = .ok (c', rc') → Reachable c c'
  | 0, h => by cases h
  | n + 1, h => by
    obtain ⟨⟨c1, rc1, more⟩, h1, h⟩ := bind_eq_ok.mp h
    dsimp only at h
    split at h
    · exact .head (.evictFileRun h1) (reachable_of_evictFileLoop h)
    · cases h; exact .single (.evictFileRun h1)

-----------------------------------------------------------------------------------------
-- Runs of calls on a shard
-----------------------------------------------------------------------------------------

/-- A call on one shard with its arguments, as a `Step` takes them. -/
inductive ShardCall where
  | get (rc : Refs) (id fileNum offset : UInt64)
  | set (fuel : Nat) (rc : Refs) (id fileNum offset : UInt64) (value : Value)
  | delete (rc : Refs) (k : Key)
  | evictFileRun (rc : Refs) (fkey : Key)
  | reserve (fuel : Nat) (rc : Refs) (n : Int)

/-- The shard a call leaves, when it returns. -/
def ShardCall.run (c : Shard) : ShardCall → Option Shard
  | .get rc id fileNum offset => (c.get rc id fileNum offset).toOption.map (·.1)
  | .set fuel rc id fileNum offset value =>
    (c.set fuel rc id fileNum offset value).toOption.map (·.1)
  | .delete rc k => (c.deleteLocked rc k).toOption.map (·.1)
  | .evictFileRun rc fkey => (c.evictFileRun rc fkey).toOption.map (·.1)
  | .reserve fuel rc n => (c.reserve fuel rc n).toOption.map (·.1)

/-- The shard calls leave, run one after the other, when each returns. It computes, so a
concrete run is evaluated once by `decide`. -/
def runCalls : Shard → List ShardCall → Option Shard
  | c, [] => some c
  | c, k :: ks => (k.run c).bind (runCalls · ks)

theorem exists_ok_of_toOption {α : Type} {x : Except Fault (Shard × α)} {c' : Shard}
    (h : x.toOption.map (·.1) = some c')
    : ∃ a, x = .ok (c', a) := by
  cases x with
  | error => cases h
  | ok r => obtain ⟨c, a⟩ := r; cases h; exact ⟨a, rfl⟩

theorem ShardCall.step {c c' : Shard} : ∀ {k : ShardCall}, k.run c = some c' → Step c c'
  | .get .., h => let ⟨_, hx⟩ := exists_ok_of_toOption h; .get hx
  | .set .., h => let ⟨_, hx⟩ := exists_ok_of_toOption h; .set hx
  | .delete .., h => let ⟨_, hx⟩ := exists_ok_of_toOption h; .delete hx
  | .evictFileRun .., h => let ⟨_, hx⟩ := exists_ok_of_toOption h; .evictFileRun hx
  | .reserve .., h => let ⟨_, hx⟩ := exists_ok_of_toOption h; .reserve hx

/-- A run of calls that returns reaches the shard it leaves, one step per call. -/
theorem runCalls_reachable
    : ∀ {c c' : Shard} {ks : List ShardCall},
      runCalls c ks = some c' → Reachable c c'
  | _, _, [], h => by cases h; exact .refl
  | _, _, _ :: _, h => by
    obtain ⟨c1, h1, h2⟩ := Option.bind_eq_some.mp h
    exact .head (ShardCall.step h1) (runCalls_reachable h2)

/-- Every shard reachable from a cache that `newShards` builds with a nonnegative `int64`
size satisfies the representation invariant, and its counters pass the consistency check.
The shards start empty, and each step keeps the invariant. -/
theorem newShards_reachable_inv {size : Int} {shards : Nat} {cache : Cache} {s c : Shard}
    (hsize : 0 ≤ size) (h64 : InInt64 size) (hnew : newShards size shards = .ok cache)
    (hs : s ∈ cache.shards) (hr : Reachable s c)
    : c.Inv ∧ c.checkConsistency = .ok () := by
  have hi := (Inv.newShards hsize h64 hnew s hs).reachable hr
  exact ⟨hi, hi.checkConsistency⟩

set_option smartUnfolding false in
/-- A run of every kind of call on a shard of 10 bytes: `Set`s in three files, a `Get` hit,
a demotion whose ghost the test hand then drops, `Reserve(1)` demoting two pages, a
`Delete` of a ghost, an `EvictFile` batch and a ghost hit; it ends with one hot and two
cold pages. -/
theorem newShards_reachable_inv_run
    : ∃ c, runCalls (Shard.empty 10)
        [.set 50 (fun _ => 1) 1 1 0 ⟨0, 3⟩, .set 50 (fun _ => 1) 1 1 1 ⟨1, 3⟩,
          .get (fun _ => 1) 1 1 0, .set 50 (fun _ => 1) 1 2 0 ⟨2, 4⟩,
          .set 50 (fun _ => 1) 1 2 1 ⟨3, 2⟩, .set 50 (fun _ => 1) 1 1 1 ⟨4, 3⟩,
          .reserve 50 (fun _ => 1) 1, .delete (fun _ => 1) ⟨1, 2, 1⟩,
          .set 50 (fun _ => 1) 1 3 0 ⟨5, 1⟩, .evictFileRun (fun _ => 1) ⟨1, 3, 0⟩,
          .set 50 (fun _ => 1) 1 1 1 ⟨6, 2⟩] = some c ∧
      c.countHot = 1 ∧ c.countCold = 2 ∧ c.Inv ∧ c.checkConsistency = .ok () :=
  let ⟨c, hc, hhot, hcold⟩ : ∃ c, runCalls (Shard.empty 10)
      [.set 50 (fun _ => 1) 1 1 0 ⟨0, 3⟩, .set 50 (fun _ => 1) 1 1 1 ⟨1, 3⟩,
        .get (fun _ => 1) 1 1 0, .set 50 (fun _ => 1) 1 2 0 ⟨2, 4⟩,
        .set 50 (fun _ => 1) 1 2 1 ⟨3, 2⟩, .set 50 (fun _ => 1) 1 1 1 ⟨4, 3⟩,
        .reserve 50 (fun _ => 1) 1, .delete (fun _ => 1) ⟨1, 2, 1⟩,
        .set 50 (fun _ => 1) 1 3 0 ⟨5, 1⟩, .evictFileRun (fun _ => 1) ⟨1, 3, 0⟩,
        .set 50 (fun _ => 1) 1 1 1 ⟨6, 2⟩] = some c ∧
      c.countHot = 1 ∧ c.countCold = 2 := ⟨_, rfl, by decide, by decide⟩
  ⟨c, hc, hhot, hcold, @newShards_reachable_inv 10 1 ⟨1, 10, 1, [Shard.empty 10]⟩ _ _ (by decide)
    (by decide) rfl (List.mem_singleton_self _) (runCalls_reachable hc)⟩

end Shard

end Vecble.ClockPro
