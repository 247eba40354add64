import Vecble.Cache.Termination
import Vecble.Cache.Refcount

/-! Admission: `Set` evicts inside `metaAdd` before it links the new entry, so the entry is
on the ring afterwards exactly when it fits the target size and the next `Get` of its key
returns the value; a larger entry is declined, its value keeping its handle's one reference.
-/

namespace Vecble.ClockPro

open EntryType

namespace Shard

/-- The shard holds `v` for the key `k` in an entry of type `t` whose referenced bit is
clear. -/
def Admitted (c : Shard) (k : Key) (v : Value) (t : EntryType) : Prop :=
  ∃ p e, c.blocks k = some p ∧ c.arena p = some e ∧ e.val = some v ∧ e.ptype = t ∧
    e.referenced = false

/-- A value the shard holds for a key is what `Get` of the key returns. -/
theorem Admitted.get {c : Shard} {k : Key} {v : Value} {t : EntryType} (h : c.Admitted k v t)
    (rc : Refs)
    : ∃ c' rc', c.get rc k.id k.fileNum k.offset = .ok (c', rc', ⟨some v⟩) := by
  obtain ⟨p, e, hb, he, hv, -, -⟩ := h
  simp [Shard.get, getLocked, hb, Shard.entry, he, hv, bind, Except.bind, pure, Except.pure]

@[simp] theorem count_blocks {c : Shard} {e : Entry} : (c.count e).blocks = c.blocks := rfl
@[simp] theorem count_arena {c : Shard} {e : Entry} : (c.count e).arena = c.arena := rfl

/-- `metaAdd` of an entry off the ring: the eviction before it leaves the entry alone, so the
entry is linked under `k` exactly when it fits the target size, and otherwise `k` stays
without an entry. -/
theorem Inv.metaAdd_fits {c c' : Shard} {rc rc' : Refs} {fuel p : Nat} {k : Key} {e : Entry}
    {added : Bool} (hi : c.Inv) (hp : p ∉ c.blockLinks) (he : c.arena p = some e)
    (hb : c.blocks k = none) (h : c.metaAdd fuel rc k p = .ok (c', rc', added))
    : c'.arena p = some e ∧ (added = true ↔ e.size ≤ c.targetSize) ∧
      c'.blocks k = if added then some p else none := by
  obtain ⟨c1, e1, hev, he1, hc⟩ := metaAdd_ok h
  have ev := Evolves.evict hi.toTallied hev
  obtain rfl : e1 = e := Option.some.inj (he1.symm.trans ((ev.offRing p hp).trans he))
  have hT := ev.targetSize
  rcases hc with ⟨hlt, rfl, rfl⟩ | ⟨hle, rfl, rfl⟩
  · exact ⟨he1, by simp only [Bool.false_eq_true, false_iff]; omega,
      hi.blocks_none (hi.evict hev).toShape ev hb⟩
  · exact ⟨by simpa [Shard.link] using he1, by simp only [true_iff]; omega, by simp [Shard.link]⟩

/-- `metaAdd` that declines an entry off the ring, then the entry freed: the values the ring
holds are at most those it held before. -/
theorem Inv.metaAdd_declined_held {c c' : Shard} {rc rc' : Refs} {fuel p : Nat} {k : Key}
    (hi : c.Inv) (hp : p ∉ c.blockLinks) (h : c.metaAdd fuel rc k p = .ok (c', rc', false))
    (a : Nat)
    : (c'.freeEntry rc' p).1.held a ≤ c.held a := by
  obtain ⟨c1, e1, hev, -, hc⟩ := metaAdd_ok h
  obtain ⟨-, rfl, -⟩ := hc.resolve_right (by simp)
  have hp1 : p ∉ c'.blockLinks := fun h => hp ((Evolves.evict hi.toTallied hev).ring.subset h)
  rw [held, tally_freeEntry _ hp1]
  exact (hi.keepsRefs_evict hev).held a

/-- `Set` of an absent key admits the value as a cold entry with its bit clear when it fits
the target size, and leaves the key absent otherwise. -/
theorem Inv.setAbsent_admits {c c' : Shard} {rc rc' : Refs} {fuel : Nat} {k : Key}
    {value : Value} (hi : c.Inv) (hb : c.blocks k = none)
    (h : Shard.setAbsent fuel c rc k value = .ok (c', rc'))
    : (value.len ≤ c.targetSize → c'.Admitted k value etCold) ∧
      (c.targetSize < value.len → c'.blocks k = none ∧ ∀ a, c'.held a ≤ c.held a) := by
  obtain ⟨c3, rc3, added, h3, hc⟩ := setAbsent_ok h
  obtain ⟨hp, hi2⟩ := hi.newSlot { newEntry k value.len with val := some value }
  obtain ⟨he3, hfit, hb3⟩ := hi2.metaAdd_fits hp (Function.update_same _ _ _) hb h3
  rcases hc with ⟨rfl, rfl, rfl⟩ | ⟨rfl, hc⟩
  · have hsz : value.len ≤ c.targetSize := by simpa [newEntry] using hfit.mp rfl
    exact ⟨fun _ => ⟨_, _, hb3, he3, rfl, rfl, rfl⟩, fun hlt => absurd hsz (not_le.mpr hlt)⟩
  · have hc' : c' = (c3.freeEntry rc3 c.entryAlloc).1 := congrArg Prod.fst hc
    have hlt : c.targetSize < value.len := not_le.mp fun hle => by simpa using hfit.mpr hle
    refine ⟨fun hle => absurd hle (not_le.mpr hlt), fun _ => ⟨?_, fun a => ?_⟩⟩
    · rw [hc', freeEntry_fst]; exact hb3
    · rw [hc', ← hi.held_newSlot _ a]; exact hi2.metaAdd_declined_held hp h3 a

/-- `Set` of a key whose entry is a ghost admits the value as a hot entry with its bit
clear when it fits the target size, and leaves the key without an entry otherwise. -/
theorem Inv.setTest_admits {c c' : Shard} {rc rc' : Refs} {fuel p : Nat} {k : Key} {e : Entry}
    {value : Value} (hi : c.Inv) (hp : p ∈ c.blockLinks) (he : c.arena p = some e)
    (hk : e.key = k) (hte : e.ptype = etTest)
    (h : Shard.setTest fuel c rc k p e value = .ok (c', rc'))
    : (value.len ≤ c.targetSize → c'.Admitted k value etHot) ∧
      (c.targetSize < value.len → c'.blocks k = none ∧ ∀ a, c'.held a ≤ c.held a) := by
  obtain ⟨c6, rc6, added, h6, hc⟩ := setTest_ok he hte h
  obtain ⟨hp2, hi3⟩ := hi.ghostSlot hp he value
  have hb : ((c.uncount e).detach p e).blocks k = none := by simp [Shard.detach, uncount, hk]
  obtain ⟨he6, hfit, hb6⟩ := hi3.metaAdd_fits hp2 (Function.update_same _ _ _) hb h6
  rcases hc with ⟨rfl, rfl, rfl⟩ | ⟨rfl, hc⟩
  · have hsz : value.len ≤ c.targetSize := by simpa using hfit.mp rfl
    exact ⟨fun _ => ⟨_, _, hb6, he6, rfl, rfl, rfl⟩, fun hlt => absurd hsz (not_le.mpr hlt)⟩
  · have hc' : c' = (c6.freeEntry rc6 p).1 := congrArg Prod.fst hc
    have hlt : c.targetSize < value.len := not_le.mp fun hle => by simpa using hfit.mpr hle
    have hv : e.val = none := (hi.vals p hp e he).mpr hte
    refine ⟨fun hle => absurd hle (not_le.mpr hlt), fun _ => ⟨?_, fun a => ?_⟩⟩
    · rw [hc', freeEntry_fst]; exact hb6
    · rw [hc']
      calc (c6.freeEntry rc6 p).1.held a ≤ _ := hi3.metaAdd_declined_held hp2 h6 a
        _ = c.held a := by rw [hi.held_ghostSlot hp he, hv, refOf_none, sub_zero]

/-- `Set` of a key with no entry or a ghost, on a run that returns: a value that fits the
target size is admitted, cold for a new key and hot for a ghost, and a larger one is
declined, leaving the key without an entry and the ring holding no value it did not hold. -/
theorem Inv.set_admission {c c' : Shard} {rc rc' : Refs} {fuel : Nat} {id fileNum offset : UInt64}
    {value : Value} {hd : Handle} (hi : c.Inv)
    (hghost : ∀ p, c.blocks ⟨id, fileNum, offset⟩ = some p → c.valAt p = none)
    (h : c.set fuel rc id fileNum offset value = .ok (c', rc', hd))
    : (value.len ≤ c.targetSize → c'.Admitted ⟨id, fileNum, offset⟩ value
        (if c.blocks ⟨id, fileNum, offset⟩ = none then etCold else etHot)) ∧
      (c.targetSize < value.len →
        c'.blocks ⟨id, fileNum, offset⟩ = none ∧ ∀ a, c'.held a ≤ c.held a) := by
  obtain ⟨-, -, -, hc⟩ := set_ok h
  rcases hc with ⟨hb, h⟩ | ⟨p, e, hb, he, ⟨hv, -⟩ | ⟨hv, h⟩⟩
  · rw [if_pos hb]; exact hi.setAbsent_admits hb h
  · exact absurd (by simpa [valAt, he] using hghost p hb) hv
  · obtain ⟨hp, hk⟩ := (hi.blocks _ _).mp hb
    rw [hb, if_neg (Option.some_ne_none p)]
    exact hi.setTest_admits hp he (by simpa [keyAt, he] using hk) ((hi.vals p hp e he).mp hv) h

/-- Admission: on a shard with the invariant, `Set` of a key with no entry or a ghost, of a
value with one reference that fits the target size, returns on the fuel `evictFuel` gives;
the key then has an entry on the ring holding the value with its referenced bit clear, cold
if the key had no entry and hot if it had a ghost, and `Get` of the key returns the value. -/
theorem set_admits {n : Nat} {c : Shard} (hi : c.Inv) {rc : Refs} {value : Value}
    (hone : rc value.addr = 1) {id fileNum offset : UInt64}
    (hghost : ∀ p, c.blocks ⟨id, fileNum, offset⟩ = some p → c.valAt p = none)
    (hfit : value.len ≤ c.targetSize) (hn : evictFuel c.blockLinks.length ≤ n)
    : ∃ c' rc', c.set n rc id fileNum offset value = .ok (c', rc', ⟨some value⟩) ∧
      c'.Admitted ⟨id, fileNum, offset⟩ value
        (if c.blocks ⟨id, fileNum, offset⟩ = none then etCold else etHot) ∧
      ∃ c'' rc'', c'.get rc' id fileNum offset = .ok (c'', rc'', ⟨some value⟩) := by
  obtain ⟨c', rc', h⟩ := hi.set_returns hone id fileNum offset hn
  have had := (hi.set_admission hghost h).1 hfit
  exact ⟨c', rc', h, had, had.get rc'⟩

theorem set_admits_empty
    : ∃ c' rc', (Shard.empty 10).set (evictFuel 0) (fun _ => 1) 1 1 0 ⟨0, 6⟩ =
        .ok (c', rc', ⟨some ⟨0, 6⟩⟩) ∧
      c'.Admitted ⟨1, 1, 0⟩ ⟨0, 6⟩
        (if (Shard.empty 10).blocks ⟨1, 1, 0⟩ = none then etCold else etHot) ∧
      ∃ c'' rc'', c'.get rc' 1 1 0 = .ok (c'', rc'', ⟨some ⟨0, 6⟩⟩) :=
  set_admits (Inv.empty (by decide) (by decide)) rfl (fun _ h => by cases h) (by decide) le_rfl

/-- A value larger than the target size is declined: on a shard with the invariant that holds
no reference to it, `Set` of a key with no entry or a ghost returns, leaves the key without an
entry, and hands back the value with the one reference it came with. -/
theorem set_declines {n : Nat} {c : Shard} (hi : c.Inv) {rc : Refs} {value : Value}
    (hone : rc value.addr = 1) (hown : c.held value.addr = 0) {id fileNum offset : UInt64}
    (hghost : ∀ p, c.blocks ⟨id, fileNum, offset⟩ = some p → c.valAt p = none)
    (hbig : c.targetSize < value.len) (hn : evictFuel c.blockLinks.length ≤ n)
    : ∃ c' rc', c.set n rc id fileNum offset value = .ok (c', rc', ⟨some value⟩) ∧
      c'.blocks ⟨id, fileNum, offset⟩ = none ∧ rc' value.addr = 1 := by
  obtain ⟨c', rc', h⟩ := hi.set_returns hone id fileNum offset hn
  obtain ⟨hb, hheld⟩ := (hi.set_admission hghost h).2 hbig
  have hdiff := (hi.set_refs h).1 value.addr
  have hle := hheld value.addr
  have h0 := held_nonneg c' value.addr
  exact ⟨c', rc', h, hb, by omega⟩

theorem set_declines_empty
    : ∃ c' rc', (Shard.empty 4).set (evictFuel 0) (fun _ => 1) 1 1 0 ⟨0, 6⟩ =
        .ok (c', rc', ⟨some ⟨0, 6⟩⟩) ∧
      c'.blocks ⟨1, 1, 0⟩ = none ∧ rc' 0 = 1 :=
  set_declines (Inv.empty (by decide) (by decide)) rfl (held_empty 4 0) (fun _ h => by cases h) (by decide)
    le_rfl

end Shard

/-- `getShard` reads only the number of shards. -/
@[simp] theorem Cache.getShard_set {c : Cache} {i : Nat} {s : Shard} {id fileNum offset : UInt64}
    : ({ c with shards := c.shards.set i s } : Cache).getShard id fileNum offset =
      c.getShard id fileNum offset := by
  unfold Cache.getShard; rw [List.length_set]

/-- `Set` then `Get` through the cache: when the key is routed to a shard with the invariant
in which it has no entry or a ghost, `Cache.Set` of a value with one reference that fits the
shard's target size returns, and a `Cache.Get` of the key right after returns the value. -/
theorem Cache.set_then_get {fuel : Nat} {c : Cache} {rc : Refs} {value : Value}
    {id fileNum offset : UInt64} {i : Nat} {s : Shard}
    (hroute : c.getShard id fileNum offset = .ok i) (hs : c.shards[i]? = some s) (hi : s.Inv)
    (hone : rc value.addr = 1)
    (hghost : ∀ p, s.blocks ⟨id, fileNum, offset⟩ = some p → s.valAt p = none)
    (hfit : value.len ≤ s.targetSize) (hn : Shard.evictFuel s.blockLinks.length ≤ fuel)
    : ∃ c' rc' c'' rc'', c.set fuel rc id fileNum offset value = .ok (c', rc', ⟨some value⟩) ∧
      c'.get rc' id fileNum offset = .ok (c'', rc'', ⟨some value⟩) := by
  obtain ⟨s', rc', hset⟩ := hi.set_returns hone id fileNum offset hn
  obtain ⟨s'', rc'', hget⟩ := ((hi.set_admission hghost hset).1 hfit).get rc'
  have hlt : i < c.shards.length := (List.getElem?_eq_some_iff.mp hs).1
  refine ⟨{ c with shards := c.shards.set i s' }, rc',
    { c with shards := (c.shards.set i s').set i s'' }, rc'', ?_, ?_⟩
  · simp [Cache.set, hroute, Cache.onShard, hs, hset, bind, Except.bind, Except.map]
  · simp [Cache.get, hroute, Cache.onShard, hlt, hget, bind, Except.bind, Except.map]

theorem Cache.set_then_get_single
    : ∃ c' rc' c'' rc'', (⟨1, 10, 1, [Shard.empty 10]⟩ : Cache).set (Shard.evictFuel 0) (fun _ => 1)
        1 1 0 ⟨0, 6⟩ = .ok (c', rc', ⟨some ⟨0, 6⟩⟩) ∧
      c'.get rc' 1 1 0 = .ok (c'', rc'', ⟨some ⟨0, 6⟩⟩) :=
  Cache.set_then_get (i := 0) (s := Shard.empty 10) rfl rfl (Shard.Inv.empty (by decide) (by decide)) rfl
    (fun _ h => by cases h) (by decide) le_rfl

end Vecble.ClockPro
