import Vecble.Cache.Client

/-! Reference counts of values: each locked operation gives up exactly the references of the
entries it unlinks or empties and takes one for a value it links, so every count is its owners.
-/

namespace Vecble.ClockPro

open EntryType

/-- The reference a possibly nil value holds on address `a`. -/
def refOf (a : Nat) (v : Option Value) : Int := if v.map Value.addr = some a then 1 else 0

theorem refOf_nonneg (a : Nat) (v : Option Value) : 0 ≤ refOf a v := by
  unfold refOf; split <;> omega

@[simp] theorem refOf_none (a : Nat) : refOf a none = 0 := rfl

theorem refOf_some (a : Nat) (v : Value) : refOf a (some v) = if v.addr = a then 1 else 0 := by
  simp [refOf]

theorem release_apply (rc : Refs) (v : Option Value) (a : Nat)
    : release rc v a = rc a - refOf a v := by
  cases v with
  | none => simp [release]
  | some v =>
    rw [refOf_some]
    by_cases h : v.addr = a
    · subst h; simp [release]
    · simp [release, h, Function.update_noteq (Ne.symm h)]

theorem acquire_apply (rc : Refs) (v : Value) (a : Nat)
    : acquire rc v a = rc a + refOf a (some v) := by
  rw [refOf_some]
  by_cases h : v.addr = a
  · subst h; simp [acquire]
  · simp [acquire, h, Function.update_noteq (Ne.symm h)]

/-- `Alloc` at an unused address gives the new value its one reference. -/
theorem alloc_apply {rc : Refs} {v : Value} (h : rc v.addr = 0) (a : Nat)
    : (alloc rc v.addr v.len).2 a = rc a + refOf a (some v) := by
  rw [refOf_some]
  by_cases hv : v.addr = a
  · subst hv; simp [alloc, h]
  · simp [alloc, hv, Function.update_noteq (Ne.symm hv)]

/-- Releasing a batch of values after the lock drops each of their references. -/
theorem foldl_release_apply (a : Nat)
    : ∀ (obs : List (Option Value)) (rc : Refs),
      obs.foldl release rc a = rc a - (obs.map (refOf a)).sum
  | [], rc => by simp
  | v :: obs, rc => by
    rw [List.foldl_cons, foldl_release_apply a obs, release_apply, List.map_cons, List.sum_cons]
    omega

namespace Shard

/-- The references the entries on the clock ring hold on address `a`. -/
def held (c : Shard) (a : Nat) : Int := c.tally fun e => refOf a e.val

theorem held_nonneg (c : Shard) (a : Nat) : 0 ≤ c.held a := by
  refine List.sum_nonneg fun x hx => ?_
  obtain ⟨q, -, rfl⟩ := List.mem_map.mp hx
  cases c.arena q <;> simp [refOf_nonneg]

/-- A ring entry's own reference is part of what the ring holds. -/
theorem refOf_le_held {c : Shard} {p : Nat} {e : Entry} (hp : p ∈ c.blockLinks)
    (he : c.arena p = some e) (a : Nat)
    : refOf a e.val ≤ c.held a := by
  have hmem : refOf a e.val ∈ c.blockLinks.map fun q => ((c.arena q).map fun e => refOf a e.val).getD 0 :=
    List.mem_map.mpr ⟨p, hp, by simp [he]⟩
  refine List.single_le_sum (fun x hx => ?_) _ hmem
  obtain ⟨q, -, rfl⟩ := List.mem_map.mp hx
  cases c.arena q <;> simp [refOf_nonneg]

/-- What the ring holds reads only the ring and the arena. -/
theorem held_eq_of {c c' : Shard} (h1 : c'.blockLinks = c.blockLinks) (h2 : c'.arena = c.arena)
    (a : Nat)
    : c'.held a = c.held a := by
  simp only [held, tally, h1, h2]

/-- What a run under the lock does to the references: every address loses exactly the
references its entries gave up, and no entry gains one. -/
structure KeepsRefs (c : Shard) (rc : Refs) (c' : Shard) (rc' : Refs) : Prop where
  diff : ∀ a, rc' a - c'.held a = rc a - c.held a
  held : ∀ a, c'.held a ≤ c.held a

theorem KeepsRefs.refl (c : Shard) (rc : Refs) : KeepsRefs c rc c rc :=
  ⟨fun _ => rfl, fun _ => le_rfl⟩

theorem KeepsRefs.trans {c1 c2 c3 : Shard} {r1 r2 r3 : Refs} (h1 : KeepsRefs c1 r1 c2 r2)
    (h2 : KeepsRefs c2 r2 c3 r3)
    : KeepsRefs c1 r1 c3 r3 :=
  ⟨fun a => (h2.diff a).trans (h1.diff a), fun a => (h2.held a).trans (h1.held a)⟩

theorem keepsRefs_of_held {c c' : Shard} {rc : Refs} (h : ∀ a, c'.held a = c.held a)
    : KeepsRefs c rc c' rc :=
  ⟨fun a => by rw [h], fun a => (h a).le⟩

theorem held_setEntry {c : Shard} {p : Nat} {e d : Entry} (hn : c.blockLinks.Nodup)
    (hp : p ∈ c.blockLinks) (he : c.arena p = some e) (a : Nat)
    : (c.setEntry p d).held a = c.held a - refOf a e.val + refOf a d.val :=
  tally_setEntry _ hn hp he

theorem held_setEntry_of_not_mem {c : Shard} {p : Nat} {d : Entry} (hp : p ∉ c.blockLinks)
    (a : Nat)
    : (c.setEntry p d).held a = c.held a :=
  have tl : ∀ f, (c.setEntry p d).tally f = c.tally f := fun f =>
    sum_map_update_of_not_mem (fun o => (o.map f).getD 0) hp
  tl _

-----------------------------------------------------------------------------------------
-- The hands
-----------------------------------------------------------------------------------------

/-- Each hand step keeps the references: only the cold hand's demotion empties an entry,
and it releases that entry's reference. -/
theorem Tallied.keepsRefs_sweep {c c' : Shard} {rc rc' : Refs} (hi : c.Tallied)
    (h : Sweep (c, rc) (c', rc'))
    : KeepsRefs c rc c' rc' := by
  cases h with
  | @promote _ _ p e hand found _ _ =>
    refine keepsRefs_of_held fun a => ?_
    change (c.setEntry p { e with referenced := false, ptype := etHot }).held a = _
    rw [held_setEntry hi.nodup (hi.mem_of_handCold hand) found]
    simp
  | @demote _ _ p e hand found _ _ =>
    have hd : ∀ a, (c.demote p e).held a = c.held a - refOf a e.val := fun a => by
      change (c.setEntry p { e with val := none, ptype := etTest }).held a = _
      rw [held_setEntry hi.nodup (hi.mem_of_handCold hand) found]
      simp
    refine ⟨fun a => ?_, fun a => ?_⟩
    · rw [hd, release_apply]; omega
    · have := refOf_nonneg a e.val; rw [hd]; omega
  | advanceCold => exact keepsRefs_of_held fun _ => rfl
  | hot step =>
    obtain ⟨p, e, hand, he, d, hd, rfl⟩ := hotStep_ok step
    have hp := hi.mem_of_handHot hand
    refine keepsRefs_of_held fun a => ?_
    change d.held a = _
    subst hd
    split
    · split
      · rw [held_setEntry hi.nodup hp he]; simp
      · change (c.setEntry p { e with ptype := etCold }).held a = _
        rw [held_setEntry hi.nodup hp he]
        simp
    · rfl
  | test step =>
    obtain ⟨p, e, hand, he, ⟨test, d, hd, hr⟩ | ⟨-, hr⟩⟩ := testStep_ok step <;>
      obtain ⟨rfl, rfl⟩ := Prod.mk.inj hr
    · have hp := hi.mem_of_handTest hand
      have hv : e.val = none := (hi.vals p hp e he).mpr test
      rw [hv]
      refine keepsRefs_of_held fun a => ?_
      change d.held a = _
      subst hd
      simp only [held]
      rw [tally_freeEntry _ hi.nodup.not_mem_erase]
      change (c.detach p e).tally _ = _
      rw [tally_detach _ hi.nodup hp he, hv]
      simp
    · exact keepsRefs_of_held fun _ => rfl

/-- A run of the hands keeps the references, by induction on the run. -/
theorem Tallied.keepsRefs_sweeps {a b : Shard × Refs} (h : Sweeps a b) (hi : a.1.Tallied)
    : KeepsRefs a.1 a.2 b.1 b.2 := by
  induction h with
  | refl => exact .refl _ _
  | tail hab step ih => exact ih.trans ((hi.sweeps hab).keepsRefs_sweep step)

theorem Tallied.keepsRefs_evict {c c' : Shard} {rc rc' : Refs} {n : Nat} (hi : c.Tallied)
    (h : c.evict n rc = .ok (c', rc'))
    : KeepsRefs c rc c' rc' :=
  Tallied.keepsRefs_sweeps (a := (c, rc)) (b := (c', rc')) ((sweeps_of_runs n).1 c rc _ h) hi

-----------------------------------------------------------------------------------------
-- The locked operations
-----------------------------------------------------------------------------------------

/-- `metaAdd` of an entry `e` off the ring, then `Set` counting it or freeing it: the
references move as the hands move them, and the entry's own is kept when it is linked and
released when it is freed. -/
theorem Tallied.admit_refs {c c3 c' : Shard} {rc rc3 rc' : Refs} {fuel : Nat} {k : Key} {p : Nat}
    {e : Entry} {added : Bool} (hi : c.Tallied) (hp : p ∉ c.blockLinks) (he : c.arena p = some e)
    (h : c.metaAdd fuel rc k p = .ok (c3, rc3, added))
    (hc : added = true ∧ c' = c3.count e ∧ rc' = rc3 ∨
      added = false ∧ (c', rc') = c3.freeEntry rc3 p)
    : (∀ a, rc' a - c'.held a = rc a - c.held a - refOf a e.val) ∧
      ∀ a, c'.held a ≤ c.held a + refOf a e.val := by
  obtain ⟨c1, e1, hev, he1, hc1⟩ := metaAdd_ok h
  have ev := Evolves.evict hi hev
  have hi1 := hi.evict hev
  obtain rfl : e = e1 := Option.some.inj (((ev.offRing p hp).trans he).symm.trans he1)
  have hk := hi.keepsRefs_evict hev
  have hp1 : p ∉ c1.blockLinks := fun h => hp (ev.ring.subset h)
  rcases hc1 with ⟨-, rfl, rfl⟩ | ⟨-, rfl, rfl⟩
  · obtain ⟨-, hc⟩ := hc.resolve_left (by simp)
    have h1 : c' = (c3.freeEntry rc3 p).1 := congrArg Prod.fst hc
    have h2 : rc' = release rc3 e.val := by
      simpa [Shard.freeEntry, he1] using congrArg Prod.snd hc
    subst h1 h2
    have hh : ∀ a, (c3.freeEntry rc3 p).1.held a = c3.held a := fun a => tally_freeEntry _ hp1
    refine ⟨fun a => ?_, fun a => ?_⟩
    · rw [hh, release_apply]; have := hk.diff a; omega
    · rw [hh]; have := hk.held a; have := refOf_nonneg a e.val; omega
  · obtain ⟨-, rfl, rfl⟩ := hc.resolve_right (by simp)
    have hl : ∀ a, (c1.link k p).held a = c1.held a + refOf a e.val := fun a =>
      tally_link _ hi1.handHot hi1.handCold hi1.handTest he1
    refine ⟨fun a => ?_, fun a => ?_⟩
    · change rc' a - (c1.link k p).held a = _
      rw [hl]; have := hk.diff a; omega
    · change (c1.link k p).held a ≤ _
      rw [hl]; have := hk.held a; omega

theorem held_detach {c : Shard} {p : Nat} {e : Entry} (hn : c.blockLinks.Nodup)
    (hp : p ∈ c.blockLinks) (he : c.arena p = some e) (a : Nat)
    : (c.detach p e).held a = c.held a - refOf a e.val :=
  tally_detach _ hn hp he

theorem Tallied.held_newSlot {c : Shard} (hi : c.Tallied) (d : Entry) (a : Nat)
    : (Shard.setEntry { c with entryAlloc := c.entryAlloc + 1 } c.entryAlloc d).held a = c.held a :=
  held_setEntry_of_not_mem (hi.newSlot d).1 a

theorem Tallied.held_ghostSlot {c : Shard} {p : Nat} {e : Entry} (hi : c.Tallied) (hp : p ∈ c.blockLinks)
    (he : c.arena p = some e) (value : Value) (a : Nat)
    : (Shard.setEntry { (c.uncount e).detach p e with
        coldTarget := if c.coldTarget + value.len > c.targetSize then c.targetSize
          else c.coldTarget + value.len }
      p { e with val := some value, size := value.len, referenced := false, ptype := etHot }).held a =
      c.held a - refOf a e.val :=
  (held_setEntry_of_not_mem (hi.ghostSlot hp he value).1 a).trans
    (held_detach (c := c.uncount e) hi.nodup hp he a)

theorem held_rewrite {c : Shard} {p : Nat} {e d : Entry} (hn : c.blockLinks.Nodup)
    (hp : p ∈ c.blockLinks) (he : c.arena p = some e) (a : Nat)
    : ((c.setEntry p d).recount e d).held a = c.held a - refOf a e.val + refOf a d.val :=
  held_setEntry hn hp he a

/-- `Set` keeps `rc - held` at every address and adds at most the new value's reference:
the old value of a resident entry and a declined entry's value are released, and the
value linked holds the reference `Set` took. -/
theorem Tallied.set_refs {c c' : Shard} {rc rc' : Refs} {fuel : Nat} {id fileNum offset : UInt64}
    {value : Value} {hd : Handle} (hi : c.Tallied)
    (h : c.set fuel rc id fileNum offset value = .ok (c', rc', hd))
    : (∀ a, rc' a - c'.held a = rc a - c.held a) ∧
      ∀ a, c'.held a ≤ c.held a + refOf a (some value) := by
  obtain ⟨-, -, -, hc⟩ := set_ok h
  rcases hc with ⟨-, h⟩ | ⟨p, e, hb, he, ⟨hv, h⟩ | ⟨hv, h⟩⟩
  · obtain ⟨c3, rc3, added, h3, hc⟩ := setAbsent_ok h
    obtain ⟨hp, hi2⟩ := hi.newSlot { newEntry ⟨id, fileNum, offset⟩ value.len with val := some value }
    obtain ⟨hdiff, hle⟩ := hi2.admit_refs hp (Function.update_same _ _ _) h3 hc
    refine ⟨fun a => ?_, fun a => ?_⟩
    · have := hdiff a; rw [hi.held_newSlot, acquire_apply] at this; dsimp only at this; omega
    · have := hle a; rw [hi.held_newSlot] at this; exact this
  · have hp := ((hi.blocks _ _).mp hb).1
    obtain ⟨hi0, h0⟩ := hi.setResident_evict hp he hv h
    have hk := hi0.keepsRefs_evict h0
    refine ⟨fun a => ?_, fun a => ?_⟩
    · have := hk.diff a
      rw [held_rewrite hi.nodup hp he, release_apply, acquire_apply] at this; dsimp only at this
      omega
    · have h1 := hk.held a; have := refOf_nonneg a e.val
      rw [held_rewrite hi.nodup hp he] at h1; dsimp only at h1; omega
  · have hp := ((hi.blocks _ _).mp hb).1
    obtain ⟨c6, rc6, added, h6, hc⟩ := setTest_ok he ((hi.vals p hp e he).mp hv) h
    obtain ⟨hp2, hi3⟩ := hi.ghostSlot hp he value
    obtain ⟨hdiff, hle⟩ := hi3.admit_refs hp2 (Function.update_same _ _ _) h6
      (hc.imp (fun ⟨ha, hr, hc⟩ => ⟨ha, hc, hr⟩) fun h => h)
    refine ⟨fun a => ?_, fun a => ?_⟩
    · have := hdiff a
      rw [hi.held_ghostSlot hp he, acquire_apply, release_apply, hv] at this
      dsimp only at this; simp only [refOf_none] at this; omega
    · have := hle a; rw [hi.held_ghostSlot hp he, hv] at this; simpa using this

/-- `Get` leaves what the ring holds, and a hit takes one more reference on a value an
entry holds. -/
theorem Tallied.get_refs {c c' : Shard} {rc rc' : Refs} {id fileNum offset : UInt64} {hd : Handle}
    (hi : c.Tallied) (h : c.get rc id fileNum offset = .ok (c', rc', hd))
    : (∀ a, c'.held a = c.held a) ∧ (∀ a, rc' a = rc a + refOf a hd.value) ∧
      ∀ a, refOf a hd.value ≤ c.held a := by
  obtain ⟨⟨c1, rc1, value⟩, h1, h⟩ := bind_eq_ok.mp h
  unfold getLocked at h1
  split at h1
  · cases h1; cases h; exact ⟨fun _ => rfl, fun _ => by simp, fun a => by simp [held_nonneg]⟩
  · next p hb =>
    obtain ⟨e, he, h1⟩ := bind_eq_ok.mp h1
    have he := entry_eq_ok.mp he
    have hp := ((hi.blocks _ _).mp hb).1
    split at h1
    · cases h1; cases h; exact ⟨fun _ => rfl, fun _ => by simp, fun a => by simp [held_nonneg]⟩
    · next v hv =>
      cases h1; cases h
      refine ⟨fun a => ?_, fun a => acquire_apply rc v a, fun a => ?_⟩
      · change (c.setEntry p { e with referenced := true }).held a = _
        rw [held_setEntry hi.nodup hp he]; simp
      · simpa [hv] using refOf_le_held hp he a

/-- The locked part of `Delete` takes no reference; the value it returns is the one its
entry held. -/
theorem Tallied.deleteLocked_refs {c c' : Shard} {rc rc' : Refs} {k : Key} {v : Option Value}
    (hi : c.Tallied) (h : c.deleteLocked rc k = .ok (c', rc', v))
    : rc' = rc ∧ ∀ a, c'.held a = c.held a - refOf a v := by
  unfold Shard.deleteLocked at h
  split at h
  · cases h; exact ⟨rfl, fun _ => by simp⟩
  · next p hb =>
    obtain ⟨⟨c1, rc1, v1⟩, h1, h⟩ := bind_eq_ok.mp h
    obtain ⟨_, -, h⟩ := bind_eq_ok.mp h
    cases h
    obtain ⟨e, he, rfl, rfl, rfl⟩ := metaEvict_ok h1
    refine ⟨rfl, fun a => ?_⟩
    rw [held, tally_freeEntry _ hi.nodup.not_mem_erase]
    exact held_detach (c := c.uncount e) hi.nodup ((hi.blocks _ _).mp hb).1 he a

theorem Tallied.delete_refs {c c' : Shard} {rc rc' : Refs} {id fileNum offset : UInt64}
    (hi : c.Tallied) (h : c.delete rc id fileNum offset = .ok (c', rc'))
    : KeepsRefs c rc c' rc' := by
  simp only [Shard.delete] at h
  split at h
  · cases h; exact .refl _ _
  · obtain ⟨⟨c1, rc1, v⟩, h1, h2⟩ := bind_eq_ok.mp h
    obtain ⟨rfl, hh⟩ := hi.deleteLocked_refs h1
    obtain ⟨rfl, rfl⟩ : c1 = c' ∧ release rc1 v = rc' := by simpa [pure, Except.pure] using h2
    refine ⟨fun a => ?_, fun a => ?_⟩
    · rw [hh, release_apply]; omega
    · have := refOf_nonneg a v; rw [hh]; omega

theorem Tallied.evictFileRun_refs {c c' : Shard} {rc rc' : Refs} {fkey : Key} {more : Bool}
    (hi : c.Tallied) (h : c.evictFileRun rc fkey = .ok (c', rc', more))
    : KeepsRefs c rc c' rc' := by
  obtain ⟨c1, rc1, more1, hrun, -, -, -, -, -, obs, hrc, hsum⟩ := evictFileRun_spec rc fkey hi
  obtain ⟨rfl, rfl, -⟩ : c1 = c' ∧ rc1 = rc' ∧ more1 = more := by simpa [hrun] using h
  have hs : ∀ a, c1.held a + (obs.map (refOf a)).sum = c.held a := fun a => hsum (refOf a)
  have hn : ∀ a, 0 ≤ (obs.map (refOf a)).sum := fun a =>
    List.sum_nonneg fun x hx => by obtain ⟨v, -, rfl⟩ := List.mem_map.mp hx; exact refOf_nonneg a v
  refine ⟨fun a => ?_, fun a => ?_⟩
  · rw [hrc, foldl_release_apply]; have := hs a; omega
  · have := hs a; have := hn a; omega

/-- `EvictFile` keeps the references, batch by batch. -/
theorem Tallied.evictFileLoop_refs {c c' : Shard} {rc rc' : Refs} {fkey : Key}
    : ∀ {n : Nat}, c.Tallied → c.evictFileLoop n rc fkey = .ok (c', rc') → KeepsRefs c rc c' rc'
  | 0, _, h => by cases h
  | n + 1, hi, h => by
    obtain ⟨⟨c1, rc1, more⟩, h1, h⟩ := bind_eq_ok.mp h
    have hk := hi.evictFileRun_refs h1
    dsimp only at h
    split at h
    · exact hk.trans (Tallied.evictFileLoop_refs (hi.evictFileRun h1) h)
    · cases h; exact hk

theorem Tallied.reserve_refs {c c' : Shard} {rc rc' : Refs} {fuel : Nat} {n : Int} (hi : c.Tallied)
    (h : c.reserve fuel rc n = .ok (c', rc'))
    : KeepsRefs c rc c' rc' := by
  obtain ⟨c0, hi0, -, hr, ha, -, h0⟩ := reserve_ok h
  exact (keepsRefs_of_held fun a => held_eq_of hr ha a).trans ((hi0 hi).keepsRefs_evict h0)

set_option smartUnfolding false in
/-- `Set` and `Reserve` can release a value's last reference with the mutex held. After one
`Set(1, 1, 0)` of a 6-byte value at address 0 on an empty shard of `maxSize` 10, whose
handle the caller then releases, the ring holds the value's only reference. A second
`Set(1, 1, 0)`, of a fresh 4-byte value at address 1, replaces the value in place, and a
`Reserve(5)` demotes the entry to a test entry: both return from their locked section with
the count of address 0 at zero, and neither has a release after `Unlock`. -/
theorem set_releases_under_lock
    : ∃ c, Reachable (Shard.empty 10) c ∧ c.held 0 = 1 ∧
      (∃ c' rc' hd, c.set 2 (fun _ => 1) 1 1 0 ⟨1, 4⟩ = .ok (c', rc', hd) ∧ rc' 0 = 0) ∧
      ∃ c' rc', c.reserve 10 (fun _ => 1) 5 = .ok (c', rc') ∧ rc' 0 = 0 :=
  ⟨_, .single (@Step.set _ _ 2 (fun _ => 1) _ 1 1 0 ⟨0, 6⟩ _ rfl), by decide,
    ⟨_, _, _, rfl, by decide⟩, _, _, rfl, by decide⟩

-----------------------------------------------------------------------------------------
-- Free
-----------------------------------------------------------------------------------------

/-- One turn of `Free`'s loop: the entry under the hot hand is unlinked and freed, and
its value released once. -/
theorem freeLoop_succ {c : Shard} {rc : Refs} {n p : Nat} {e : Entry} (hh : c.handHot = some p)
    (he : c.arena p = some e)
    : c.freeLoop (n + 1) rc =
      ((c.detach p e).freeEntry (release rc e.val) p).1.freeLoop n (release rc e.val) := by
  have hmd : c.metaDel p = .ok (c.detach p e, e.val) := by
    simp [Shard.metaDel, entry_eq_ok.mpr he, bind, Except.bind, pure, Except.pure]
  have hfe : ((c.detach p e).freeEntry (release rc e.val) p).2 = release rc e.val := by
    simp [Shard.freeEntry, Shard.detach, release]
  rw [Shard.freeLoop, hh]
  simp only [hmd, bind, Except.bind]
  rw [hfe]

/-- `Free`'s loop needs one turn per entry and one more, and releases every value the ring
holds exactly once; by induction on the budget, from any shard with the layout invariant. -/
theorem Shape.freeLoop_spec
    : ∀ (n : Nat) {c : Shard} (rc : Refs), c.Shape →
      ((∃ r, c.freeLoop n rc = .ok r) ↔ c.blockLinks.length < n) ∧
        ∀ c' rc', c.freeLoop n rc = .ok (c', rc') → ∀ a, rc' a = rc a - c.held a
  | 0, c, rc, _ => ⟨⟨fun ⟨_, h⟩ => (by cases h), fun h => absurd h (Nat.not_lt_zero _)⟩,
      fun _ _ h => (by cases h)⟩
  | n + 1, c, rc, hs => by
    cases hh : c.handHot with
    | none =>
      have hr : c.blockLinks = [] := by simpa [hh] using hs.handHot
      have hstep : c.freeLoop (n + 1) rc = .ok (c, rc) := by rw [Shard.freeLoop, hh]; rfl
      refine ⟨⟨fun _ => by simp [hr], fun _ => ⟨_, hstep⟩⟩, fun c' rc' h a => ?_⟩
      rw [hstep] at h
      cases h
      simp [held, tally, hr]
    | some p =>
      have hp : p ∈ c.blockLinks := by simpa [hh] using hs.handHot
      obtain ⟨e, he⟩ := Option.isSome_iff_exists.mp (hs.live p hp)
      have hs1 := @Shape.freeEntry _ (release rc e.val) _ (hs.detach hp he) hs.nodup.not_mem_erase
      have hlen : ((c.detach p e).freeEntry (release rc e.val) p).1.blockLinks.length + 1 =
          c.blockLinks.length := by
        rw [freeEntry_fst]; exact List.length_erase_add_one hp
      have hheld : ∀ a, ((c.detach p e).freeEntry (release rc e.val) p).1.held a =
          c.held a - refOf a e.val := fun a => by
        rw [held, tally_freeEntry _ hs.nodup.not_mem_erase]; exact held_detach hs.nodup hp he a
      obtain ⟨hok, hres⟩ := Shape.freeLoop_spec n (release rc e.val) hs1
      rw [freeLoop_succ hh he]
      refine ⟨hok.trans (by omega), fun c' rc' h a => ?_⟩
      rw [hres c' rc' h a, release_apply, hheld]
      omega

/-- `Free` succeeds exactly when its loop does, and releases what the ring holds. -/
theorem Shape.free_spec (fuel : Nat) {c : Shard} (rc : Refs) (hs : c.Shape)
    : ((∃ r, c.free fuel rc = .ok r) ↔ c.blockLinks.length < fuel) ∧
      ∀ c' rc', c.free fuel rc = .ok (c', rc') → ∀ a, rc' a = rc a - c.held a := by
  obtain ⟨hok, hres⟩ := hs.freeLoop_spec fuel rc
  refine ⟨?_, fun c' rc' h => ?_⟩
  · rw [← hok, Shard.free]
    cases c.freeLoop fuel rc <;> simp [bind, Except.bind, pure, Except.pure]
  · obtain ⟨⟨c1, rc1⟩, h1, h⟩ := bind_eq_ok.mp h
    cases h
    exact hres _ _ h1

theorem held_empty (size : Int) (a : Nat) : (Shard.empty size).held a = 0 := rfl

end Shard

-----------------------------------------------------------------------------------------
-- The callers' world
-----------------------------------------------------------------------------------------

open Shard

/-- The references all shards' rings hold on address `a`. -/
def Cache.held (c : Cache) (a : Nat) : Int := (c.shards.map fun s => s.held a).sum

/-- The references the unreleased handles hold on address `a`. -/
def World.handleRefs (w : World) (a : Nat) : Int := (w.handles.map fun h => refOf a h.value).sum

theorem Cache.held_nonneg (c : Cache) (a : Nat) : 0 ≤ c.held a :=
  List.sum_nonneg fun _ hx => by
    obtain ⟨s, -, rfl⟩ := List.mem_map.mp hx; exact s.held_nonneg a

theorem Cache.held_le {c : Cache} {s : Shard} (hs : s ∈ c.shards) (a : Nat)
    : s.held a ≤ c.held a :=
  List.single_le_sum (fun _ hx => by obtain ⟨s, -, rfl⟩ := List.mem_map.mp hx; exact s.held_nonneg a)
    _ (List.mem_map.mpr ⟨s, hs, rfl⟩)

theorem World.handleRefs_nonneg (w : World) (a : Nat) : 0 ≤ w.handleRefs a :=
  List.sum_nonneg fun _ hx => by
    obtain ⟨h, -, rfl⟩ := List.mem_map.mp hx; exact refOf_nonneg a h.value

theorem World.refOf_le_handleRefs {w : World} {h : Handle} (hh : h ∈ w.handles) (a : Nat)
    : refOf a h.value ≤ w.handleRefs a :=
  List.single_le_sum (fun _ hx => by
      obtain ⟨h, -, rfl⟩ := List.mem_map.mp hx; exact refOf_nonneg a h.value)
    _ (List.mem_map.mpr ⟨h, hh, rfl⟩)

theorem World.handleRefs_cons {w w' : World} {h : Handle} (hh : w'.handles = h :: w.handles)
    (a : Nat)
    : w'.handleRefs a = refOf a h.value + w.handleRefs a := by
  simp [World.handleRefs, hh]

theorem World.handleRefs_erase {w w' : World} {h : Handle} (hh : w'.handles = w.handles.erase h)
    (hm : h ∈ w.handles) (a : Nat)
    : w'.handleRefs a = w.handleRefs a - refOf a h.value := by
  rw [World.handleRefs, World.handleRefs, hh, ← List.sum_map_erase _ hm]
  omega

/-- Storing a shard back changes the cache's references by that shard's change. -/
theorem Cache.held_set {c : Cache} {i : Nat} {s s' : Shard} (hs : c.shards[i]? = some s)
    (a : Nat)
    : ({ c with shards := c.shards.set i s' } : Cache).held a = c.held a - s.held a + s'.held a := by
  obtain ⟨hi, hget⟩ := List.getElem?_eq_some_iff.mp hs
  simp only [Cache.held, List.map_set]
  rw [List.sum_set', dif_pos (by simpa using hi)]
  simp [hget]
  omega

/-- A shard operation run on every shard in turn keeps the references when it does on each
shard. -/
theorem forEachShard_keepsRefs {f : Shard → Refs → Except Fault (Shard × Refs)}
    : ∀ {ss ss' : List Shard} {rc rc' : Refs},
      (∀ s ∈ ss, ∀ r s' r', f s r = .ok (s', r') → KeepsRefs s r s' r') →
      forEachShard f ss rc = .ok (ss', rc') →
      ∀ a, rc' a - (ss'.map fun s => s.held a).sum = rc a - (ss.map fun s => s.held a).sum ∧
        (ss'.map fun s => s.held a).sum ≤ (ss.map fun s => s.held a).sum
  | [], _, _, _, _, h => by cases h; exact fun _ => ⟨rfl, le_rfl⟩
  | s :: rest, _, rc, _, hk, h => by
    obtain ⟨⟨s1, rc1⟩, h1, h⟩ := bind_eq_ok.mp h
    obtain ⟨⟨rest', rc2⟩, h2, h⟩ := bind_eq_ok.mp h
    cases h
    have k1 := hk s (List.mem_cons_self _ _) _ _ _ h1
    have k2 := forEachShard_keepsRefs (fun s hs => hk s (List.mem_cons_of_mem _ hs)) h2
    intro a
    have := k1.diff a; have := k1.held a; have := k2 a
    simp only [List.map_cons, List.sum_cons]
    omega

/-- What the callers and the cache keep of the references: every shard has the invariant,
every count is what the rings hold plus what the unreleased handles hold, no value is held
by two entries, and the addresses `Alloc` has not handed out are unused. -/
structure RefsAgree (w : World) : Prop where
  inv : ∀ s ∈ w.cache.shards, s.Tallied
  count : ∀ a, w.rc a = w.cache.held a + w.handleRefs a
  single : ∀ a, w.cache.held a ≤ 1
  fresh : ∀ a, w.next ≤ a → w.rc a = 0

theorem RefsAgree.unused {w : World} (hw : RefsAgree w) {a : Nat} (ha : w.rc a = 0)
    : w.cache.held a = 0 ∧ w.handleRefs a = 0 := by
  have := hw.count a; have := w.cache.held_nonneg a; have := w.handleRefs_nonneg a
  omega

/-- What a call does to the references: the counts keep agreeing, `Alloc` moves on, and an
address handed out before the call gains neither ring nor handle references beyond what
the rings held. -/
structure StepRefs (w w' : World) : Prop where
  agree : RefsAgree w'
  next : w.next ≤ w'.next
  old : ∀ a, a < w.next →
    w'.cache.held a ≤ w.cache.held a ∧ w'.handleRefs a ≤ w.handleRefs a + w.cache.held a

/-- A call that keeps the handles and the allocator and moves the references as a locked
run of the shards does. -/
theorem RefsAgree.stepRefs_of_keeps {w w' : World} (hw : RefsAgree w)
    (hi : ∀ s ∈ w'.cache.shards, s.Tallied) (hh : w'.handles = w.handles) (hn : w'.next = w.next)
    (hdiff : ∀ a, w'.rc a - w'.cache.held a = w.rc a - w.cache.held a)
    (hle : ∀ a, w'.cache.held a ≤ w.cache.held a)
    : StepRefs w w' := by
  have hr : ∀ a, w'.handleRefs a = w.handleRefs a := fun a => by simp only [World.handleRefs, hh]
  refine ⟨⟨hi, fun a => ?_, fun a => (hle a).trans (hw.single a), fun a ha => ?_⟩, hn.ge,
    fun a _ => ⟨hle a, by rw [hr]; have := w.cache.held_nonneg a; omega⟩⟩
  · have := hdiff a; have := hw.count a; rw [hr]; omega
  · obtain ⟨h0, -⟩ := hw.unused (hw.fresh a (hn ▸ ha))
    have := hdiff a; have := hle a; have := w'.cache.held_nonneg a; have := hw.fresh a (hn ▸ ha)
    omega

/-- Each call keeps the references agreeing. -/
theorem RefsAgree.step {w w' : World} {call : Call} (hw : RefsAgree w) (st : World.Step w call w')
    : StepRefs w w' := by
  have hi' := World.Step.tallied hw.inv st
  cases st with
  | @get _ _ _ c rc hd run =>
    obtain ⟨i, s, s', -, hs, h, rfl⟩ := Cache.get_ok run
    have hsm := List.getElem?_mem hs
    obtain ⟨hheld, hrc, hval⟩ := (hw.inv s hsm).get_refs h
    have hc : ∀ a, Cache.held ⟨w.cache.refs, w.cache.maxSize, w.cache.idAlloc,
        w.cache.shards.set i s'⟩ a = w.cache.held a := fun a =>
      (Cache.held_set hs a).trans (by rw [hheld]; omega)
    refine ⟨⟨hi', fun a => ?_, fun a => ?_, fun a ha => ?_⟩, le_rfl, fun a _ => ?_⟩ <;> dsimp only
    · rw [hc, World.handleRefs_cons rfl, hrc, hw.count]; omega
    · rw [hc]; exact hw.single a
    · have h0 := (hw.unused (hw.fresh a ha)).1
      have := hval a; have := Cache.held_le hsm a; have := refOf_nonneg a hd.value
      rw [hrc, hw.fresh a ha]; omega
    · have := hval a; have := Cache.held_le hsm a
      rw [hc, World.handleRefs_cons rfl]; exact ⟨le_rfl, by omega⟩
  | @set fuel _ _ _ value c rc hd fresh run =>
    obtain ⟨i, s, s', -, hs, h, rfl⟩ := Cache.set_ok run
    have hsm := List.getElem?_mem hs
    obtain ⟨-, rfl, -⟩ := Shard.set_ok h
    obtain ⟨hdiff, hle⟩ := (hw.inv s hsm).set_refs h
    have h0 := hw.fresh _ fresh
    have hc : ∀ a, Cache.held ⟨w.cache.refs, w.cache.maxSize, w.cache.idAlloc,
        w.cache.shards.set i s'⟩ a = w.cache.held a - s.held a + s'.held a := Cache.held_set hs
    have hr : ∀ a, a ≠ value.addr → refOf a (some value) = 0 := fun a ha => by
      rw [refOf_some, if_neg (Ne.symm ha)]
    refine ⟨⟨hi', fun a => ?_, fun a => ?_, fun a ha => ?_⟩, Nat.le_succ_of_le fresh,
      fun a ha => ?_⟩ <;> dsimp only
    · have := hdiff a; have := hw.count a
      rw [alloc_apply h0] at *
      rw [hc, World.handleRefs_cons rfl]; dsimp only; omega
    · have hl := hle a
      rw [hc]
      by_cases hv : a = value.addr
      · subst hv
        have := (hw.unused h0).1
        rw [refOf_some, if_pos rfl] at hl; omega
      · have := hw.single a; rw [hr a hv] at hl; omega
    · replace ha : value.addr + 1 ≤ a := ha
      have hv := hr a (by omega)
      have h0a := hw.fresh a (by omega)
      have := (hw.unused h0a).1; have := s'.held_nonneg a; have := Cache.held_le hsm a
      have hl := hle a; have hd := hdiff a
      rw [alloc_apply h0, h0a, hv] at hd; rw [hv] at hl; omega
    · have hv := hr a (by omega)
      have hl := hle a; have := w.cache.held_nonneg a; rw [hv] at hl
      rw [hc, World.handleRefs_cons rfl]; dsimp only; rw [hv]
      exact ⟨by omega, by omega⟩
  | delete run =>
    obtain ⟨i, s, s', -, hs, h, rfl⟩ := Cache.delete_ok run
    have hk := (hw.inv s (List.getElem?_mem hs)).delete_refs h
    refine hw.stepRefs_of_keeps hi' rfl rfl (fun a => ?_) (fun a => ?_)
    · have := hk.diff a; simp only; rw [Cache.held_set hs]; omega
    · have := hk.held a; simp only; rw [Cache.held_set hs]; omega
  | evictFile run =>
    obtain ⟨ss, hall, rfl⟩ := Cache.evictFile_ok run
    have hk := forEachShard_keepsRefs (fun s hs _ _ _ h => (hw.inv s hs).evictFileLoop_refs h) hall
    exact hw.stepRefs_of_keeps hi' rfl rfl (fun a => (hk a).1) (fun a => (hk a).2)
  | reserve run =>
    obtain ⟨ss, hall, rfl⟩ := Cache.reserve_ok run
    have hk := forEachShard_keepsRefs (fun s hs _ _ _ h => (hw.inv s hs).reserve_refs h) hall
    exact hw.stepRefs_of_keeps hi' rfl rfl (fun a => (hk a).1) (fun a => (hk a).2)
  | @release hd hm =>
    have hr := @World.handleRefs_erase w ⟨w.cache, hd.release w.rc, w.handles.erase hd, w.next⟩ _
      rfl hm
    refine ⟨⟨hi', fun a => ?_, hw.single, fun a ha => ?_⟩, le_rfl, fun a _ => ?_⟩ <;> dsimp only
    · rw [hr, Handle.release, release_apply, hw.count]; omega
    · have h0 := hw.fresh a ha
      have := (hw.unused h0).2; have := World.refOf_le_handleRefs hm a
      have := refOf_nonneg a hd.value
      rw [Handle.release, release_apply]; omega
    · have := refOf_nonneg a hd.value; have := w.cache.held_nonneg a
      exact ⟨le_rfl, by rw [hr]; omega⟩

/-- A cache `newShards` builds agrees before any call: every ring is empty, no value is
allocated and no handle is out. -/
theorem RefsAgree.init {size : Int} {shards : Nat} {cache : Cache}
    (hnew : newShards size shards = .ok cache)
    : RefsAgree (World.init cache) := by
  cases hnew
  have hheld : ∀ a, (World.init ⟨1, size, 1,
      List.replicate shards (Shard.empty (size.tdiv shards))⟩).cache.held a = 0 := fun a => by
    simp [World.init, Cache.held, held_empty, nsmul_zero]
  refine ⟨fun s hs => ?_, fun a => ?_, fun a => ?_, fun _ _ => rfl⟩
  · obtain rfl := List.eq_of_mem_replicate hs
    exact Tallied.empty _
  · rw [hheld]; rfl
  · rw [hheld]; omega

/-- Along a run from an agreeing world the references keep agreeing and `Alloc` only moves
on. -/
theorem RefsAgree.run {w w' : World} {calls : List Call} (hw : RefsAgree w)
    (hr : World.Run w calls w')
    : RefsAgree w' ∧ w.next ≤ w'.next := by
  induction hr with
  | nil => exact ⟨hw, le_rfl⟩
  | snoc _ st ih => exact ⟨(ih.1.step st).agree, ih.2.trans (ih.1.step st).next⟩

/-- An allocated value whose count is zero is gone for good: no later call makes an entry or
a handle refer to it again. -/
theorem RefsAgree.run_dead {w w' : World} {calls : List Call} (hw : RefsAgree w)
    (hr : World.Run w calls w') {a : Nat} (ha : a < w.next) (h0 : w.rc a = 0)
    : w'.rc a = 0 := by
  induction hr with
  | nil => exact h0
  | @snoc w1 w2 _ _ run st ih =>
    obtain ⟨hw1, hn⟩ := hw.run run
    have hs := hw1.step st
    obtain ⟨hc, hh⟩ := hw1.unused ih
    obtain ⟨hc', hh'⟩ := hs.old a (by omega)
    have := hs.agree.count a; have := w2.cache.held_nonneg a; have := w2.handleRefs_nonneg a
    omega

/-- Running a step that releases each shard's ring over all shards releases all of them. -/
theorem forEachShard_releases {f : Shard → Refs → Except Fault (Shard × Refs)}
    : ∀ {ss ss' : List Shard} {rc rc' : Refs},
      (∀ s ∈ ss, ∀ r s' r', f s r = .ok (s', r') → ∀ a, r' a = r a - s.held a) →
      forEachShard f ss rc = .ok (ss', rc') → ∀ a, rc' a = rc a - (ss.map fun s => s.held a).sum
  | [], _, _, _, _, h => by cases h; simp
  | s :: rest, _, rc, _, hf, h => by
    obtain ⟨⟨s1, rc1⟩, h1, h⟩ := bind_eq_ok.mp h
    obtain ⟨⟨rest', rc2⟩, h2, h⟩ := bind_eq_ok.mp h
    cases h
    intro a
    rw [forEachShard_releases (fun s hs => hf s (List.mem_cons_of_mem _ hs)) h2 a,
      hf s (List.mem_cons_self _ _) _ _ _ h1 a, List.map_cons, List.sum_cons]
    omega

/-- The last `Unref` frees every shard: with one turn per ring entry and one more it
succeeds, and it releases each reference the rings hold exactly once. -/
theorem Cache.unref_spec {c : Cache} (rc : Refs) (hi : ∀ s ∈ c.shards, s.Tallied) (hrefs : c.refs = 1)
    : (∃ fuel r, c.unref fuel rc = .ok r) ∧
      ∀ fuel c' rc', c.unref fuel rc = .ok (c', rc') → ∀ a, rc' a = rc a - c.held a := by
  have hu : ∀ fuel, c.unref fuel rc = (forEachShard (fun s rc => s.free fuel rc) c.shards rc).map
      fun (shards, rc) => ({ c with refs := 0, shards }, rc) := fun fuel => by
    simp [Cache.unref, hrefs]
  refine ⟨⟨(c.shards.map fun s => s.blockLinks.length).sum + 1, ?_⟩, fun fuel c' rc' h => ?_⟩
  · rw [hu, map_ok_iff, forEachShard_ok_iff _ _ fun s hs r => ((hi s hs).toShape.free_spec _ r).1]
    intro s hs
    have : s.blockLinks.length ≤ _ :=
      List.le_sum_of_mem (List.mem_map_of_mem (fun s : Shard => s.blockLinks.length) hs)
    omega
  · rw [hu] at h
    obtain ⟨⟨ss, r⟩, hall, he⟩ := map_eq_ok.mp h
    cases he
    exact forEachShard_releases (fun s hs r s' r' h => ((hi s hs).toShape.free_spec _ r).2 s' r' h) hall

/-- What reference counting guarantees at a point of a run. Every count is what the rings
hold on the value, at most one entry, plus the unreleased handles for it; a value an entry or
an unreleased handle refers to is alive; an allocated value whose count reached zero stays
at zero over every later run; and the last `Unref` succeeds with enough fuel and leaves each
count at its handles, having released each reference the rings hold exactly once. -/
def RefcountsHold (w : World) : Prop :=
  (∀ a, w.rc a = w.cache.held a + w.handleRefs a ∧ w.cache.held a ≤ 1) ∧
  (∀ s ∈ w.cache.shards, ∀ p ∈ s.blockLinks, ∀ e v, s.arena p = some e → e.val = some v →
    1 ≤ w.rc v.addr) ∧
  (∀ h ∈ w.handles, ∀ v, h.value = some v → 1 ≤ w.rc v.addr) ∧
  (∀ a calls w', a < w.next → w.rc a = 0 → World.Run w calls w' → w'.rc a = 0) ∧
  (∃ fuel r, w.cache.unref fuel w.rc = .ok r) ∧
  ∀ fuel c' rc', w.cache.unref fuel w.rc = .ok (c', rc') → ∀ a, rc' a = w.handleRefs a

/-- Reference counting holds at every point of every run of calls on a cache `newShards`
builds, of any size, each `Set` taking a value fresh from `Alloc` and each release dropping a
handle the caller holds. -/
theorem newShards_run_refs {size : Int} {shards : Nat} {cache : Cache} {calls : List Call}
    {w : World} (hnew : newShards size shards = .ok cache)
    (hrun : World.Run (World.init cache) calls w)
    : RefcountsHold w := by
  have hw := ((RefsAgree.init hnew).run hrun).1
  have hrefs : w.cache.refs = 1 := by
    rw [hrun.refs]; cases hnew; rfl
  have hu := Cache.unref_spec w.rc hw.inv hrefs
  refine ⟨fun a => ⟨hw.count a, hw.single a⟩, fun s hs p hp e v he hv => ?_,
    fun h hh v hv => ?_, fun a _ _ ha h0 hr => hw.run_dead hr ha h0, hu.1,
    fun fuel c' rc' h a => ?_⟩
  · have := refOf_le_held hp he v.addr
    rw [hv, refOf_some, if_pos rfl] at this
    have := Cache.held_le hs v.addr; have := hw.count v.addr; have := w.handleRefs_nonneg v.addr
    omega
  · have := World.refOf_le_handleRefs hh v.addr
    rw [hv, refOf_some, if_pos rfl] at this
    have := hw.count v.addr; have := w.cache.held_nonneg v.addr
    omega
  · rw [hu.2 fuel c' rc' h a, hw.count]; omega

theorem newShards_run_refs_set
    : newShards (-4) 1 = .ok ⟨1, -4, 1, [Shard.empty (-4)]⟩ ∧
      ∃ w, World.Run (World.init ⟨1, -4, 1, [Shard.empty (-4)]⟩) [.set 1 1 0 ⟨0, 0⟩] w ∧
        RefcountsHold w :=
  have run : World.Run (World.init ⟨1, -4, 1, [Shard.empty (-4)]⟩) [.set 1 1 0 ⟨0, 0⟩] _ :=
    .snoc .nil (@World.Step.set _ 2 1 1 0 ⟨0, 0⟩ _ _ _ (Nat.zero_le _) rfl)
  ⟨rfl, _, run, @newShards_run_refs (-4) 1 ⟨1, -4, 1, [Shard.empty (-4)]⟩ _ _ rfl run⟩

-----------------------------------------------------------------------------------------
-- The guards of Set and Free
-----------------------------------------------------------------------------------------

/-- `Cache.getShard` fails only by panicking. -/
theorem Cache.getShard_error {c : Cache} {id fileNum offset : UInt64} {e : Fault}
    (h : c.getShard id fileNum offset = .error e)
    : ∃ msg, e = .panic msg := by
  unfold Cache.getShard at h
  split at h
  · cases h; exact ⟨_, rfl⟩
  · split at h
    · cases h; exact ⟨_, rfl⟩
    · cases h

/-- `Set` of a value whose count is not one panics, whichever shard the key routes to. -/
theorem Cache.set_panic {c : Cache} {fuel : Nat} {rc : Refs} {id fileNum offset : UInt64}
    {v : Value} (hv : rc v.addr ≠ 1)
    : ∃ msg, c.set fuel rc id fileNum offset v = .error (.panic msg) := by
  unfold Cache.set
  cases hi : c.getShard id fileNum offset with
  | error e =>
    obtain ⟨msg, rfl⟩ := Cache.getShard_error hi
    exact ⟨msg, rfl⟩
  | ok i =>
    show ∃ msg, c.onShard i _ = _
    unfold Cache.onShard
    split
    · exact ⟨_, rfl⟩
    · simp [Shard.set, hv, Except.map]

/-- The guards of `Set` and `Free` count owners: on every world reachable from a cache
`newShards` builds, a value's count is the number of ring entries and unreleased handles
holding it. With two owners or more, `Set` and `Free` both panic, returning no new state;
with exactly one, say a ring entry whose handle was released, `Free` passes its guard and
drops the count to zero. -/
theorem value_guards_count_owners {size : Int} {shards : Nat} {cache : Cache}
    {calls : List Call} {w : World} (hsize : 0 ≤ size) (hnew : newShards size shards = .ok cache)
    (hrun : World.Run (World.init cache) calls w) (fuel : Nat) (id fileNum offset : UInt64)
    (v : Value)
    : w.rc v.addr = w.cache.held v.addr + w.handleRefs v.addr ∧
      (1 < w.rc v.addr → (∃ msg, w.cache.set fuel w.rc id fileNum offset v = .error (.panic msg)) ∧
        ∃ msg, free w.rc v = .error (.panic msg)) ∧
      (w.rc v.addr = 1 → free w.rc v = .ok (Function.update w.rc v.addr 0)) := by
  have hw := ((RefsAgree.init hnew).run hrun).1
  refine ⟨hw.count v.addr, fun h2 => ⟨Cache.set_panic (by omega), _, if_pos h2⟩, fun h1 => ?_⟩
  simp [free, h1, release]

theorem value_guards_count_owners_set
    : 0 ≤ (10 : Int) ∧ newShards 10 1 = .ok ⟨1, 10, 1, [Shard.empty 10]⟩ ∧
      ∃ w, World.Run (World.init ⟨1, 10, 1, [Shard.empty 10]⟩) [.set 1 1 0 ⟨0, 6⟩] w ∧
        w.rc 0 = w.cache.held 0 + w.handleRefs 0 ∧
        (1 < w.rc 0 → (∃ msg, w.cache.set 2 w.rc 1 1 1 ⟨0, 6⟩ = .error (.panic msg)) ∧
          ∃ msg, free w.rc ⟨0, 6⟩ = .error (.panic msg)) ∧
        (w.rc 0 = 1 → free w.rc ⟨0, 6⟩ = .ok (Function.update w.rc 0 0)) :=
  have run : World.Run (World.init ⟨1, 10, 1, [Shard.empty 10]⟩) [.set 1 1 0 ⟨0, 6⟩] _ :=
    .snoc .nil (@World.Step.set _ 2 1 1 0 ⟨0, 6⟩ _ _ _ (Nat.zero_le _) rfl)
  ⟨by decide, rfl, _, run,
    @value_guards_count_owners 10 1 ⟨1, 10, 1, [Shard.empty 10]⟩ _ _ (by decide) rfl run 2 1 1 1 ⟨0, 6⟩⟩

set_option smartUnfolding false in
/-- `Set` and `Free` do not catch a value the cache still holds once its handle is
released. After `Set(1, 1, 0)` of a 6-byte value on a cache that `newShards 10 1` builds and
the release of the returned handle, the ring holds the value's only reference: a second
`Set` of the same value under another key succeeds, and `Free` of it passes its guard and
drops the count to zero while the ring still holds the value. -/
theorem cached_value_passes_guards
    : newShards 10 1 = .ok ⟨1, 10, 1, [Shard.empty 10]⟩ ∧
      ∃ w, World.Run (World.init ⟨1, 10, 1, [Shard.empty 10]⟩)
          [.set 1 1 0 ⟨0, 6⟩, .release ⟨some ⟨0, 6⟩⟩] w ∧
        w.handles = [] ∧ (∃ s ∈ w.cache.shards, ∃ p ∈ s.blockLinks, s.valAt p = some ⟨0, 6⟩) ∧
        (∃ c rc hd, w.cache.set 2 w.rc 1 1 1 ⟨0, 6⟩ = .ok (c, rc, hd)) ∧
        ∃ rc, free w.rc ⟨0, 6⟩ = .ok rc ∧ rc 0 = 0 :=
  have run : World.Run (World.init ⟨1, 10, 1, [Shard.empty 10]⟩)
      [.set 1 1 0 ⟨0, 6⟩, .release ⟨some ⟨0, 6⟩⟩] _ :=
    .snoc (.snoc .nil (@World.Step.set (World.init ⟨1, 10, 1, [Shard.empty 10]⟩) 2 1 1 0
      ⟨0, 6⟩ _ _ _ (Nat.zero_le _) rfl)) (.release (List.mem_cons_self _ _))
  ⟨rfl, _, run, rfl, ⟨_, List.mem_singleton_self _, 0, List.mem_singleton_self _, rfl⟩,
    ⟨_, _, _, rfl⟩, _, rfl, rfl⟩

end Vecble.ClockPro
