import Vecble.Cache.Removal

/-! The resident-size budget of a shard: `Set` admits after evicting, so a reachable shard
stays below twice the target, not below it; a ghost hit raises `coldTarget` within the budget.
-/

namespace Vecble.ClockPro

open EntryType

namespace Shard

-----------------------------------------------------------------------------------------
-- What eviction leaves
-----------------------------------------------------------------------------------------

/-- A shard with a nil cold hand has an empty ring, hence no resident bytes. -/
theorem Tallied.resident_of_handCold {c : Shard} (hi : c.Tallied) (h : c.handCold = none)
    : c.sizeHot + c.sizeCold = 0 := by
  have hr : c.blockLinks = [] := by simpa [h] using hi.handCold
  simp [hi.sizeHot, hi.sizeCold, tally, hr]

/-- `evict` leaves the resident bytes below the target: its loop exits below the target or
with a nil cold hand, and then the ring is empty. -/
theorem Tallied.resident_lt_of_evict {c c' : Shard} {rc rc' : Refs} {n : Nat} (hi : c.Tallied)
    (h : c.evict n rc = .ok (c', rc'))
    : c'.sizeHot + c'.sizeCold < c'.targetSize := by
  rcases evict_exit h with hlt | hn
  · exact hlt
  · rw [(hi.evict h).resident_of_handCold hn]; exact targetSize_pos c'

@[simp] theorem link_targetSize {c : Shard} {k : Key} {p : Nat}
    : (c.link k p).targetSize = c.targetSize := by
  simp only [Shard.link, linkFile_targetSize, linkBlock_targetSize]; rfl

@[simp] theorem link_sizeHot {c : Shard} {k : Key} {p : Nat}
    : (c.link k p).sizeHot = c.sizeHot := by
  simp [Shard.link]

@[simp] theorem link_sizeCold {c : Shard} {k : Key} {p : Nat}
    : (c.link k p).sizeCold = c.sizeCold := by
  simp [Shard.link]

/-- An entry adds its size to the hot and cold bytes together at most once. -/
theorem bytesOf_resident_le {e : Entry} (hs : 0 ≤ e.size)
    : bytesOf etHot e + bytesOf etCold e ≤ e.size := by
  unfold bytesOf; cases e.ptype <;> simp [hs]

/-- A ring that only lost entries, the others unchanged, holds no more resident bytes:
the sum over a sub-permutation of nonnegative sizes. -/
theorem Tallied.resident_le_of_sub {c c' : Shard} (hi : c.Tallied) (hi' : c'.Tallied)
    (hsub : ∀ q ∈ c'.blockLinks, q ∈ c.blockLinks)
    (harena : ∀ q ∈ c'.blockLinks, c'.arena q = c.arena q)
    : c'.sizeHot + c'.sizeCold ≤ c.sizeHot + c.sizeCold := by
  obtain ⟨l, hperm, hsl⟩ := List.subperm_of_subset hi'.nodup hsub
  have hle : ∀ t, c'.tally (bytesOf t) ≤ c.tally (bytesOf t) := fun t => by
    let g := fun q => ((c.arena q).map (bytesOf t)).getD 0
    have hg : ∀ q ∈ c.blockLinks, 0 ≤ g q := fun q hq => by
      obtain ⟨e, he⟩ := Option.isSome_iff_exists.mp (hi.live q hq)
      have := hi.sizes q hq e he
      simp only [g, he, Option.map_some', Option.getD_some, bytesOf]; split <;> omega
    calc c'.tally (bytesOf t) = (c'.blockLinks.map g).sum :=
          congrArg List.sum (List.map_congr_left fun q hq => by simp only [g, harena q hq])
      _ = (l.map g).sum := ((hperm.map g).sum_eq).symm
      _ ≤ (c.blockLinks.map g).sum :=
          (hsl.map g).sum_le_sum fun x hx => by
            obtain ⟨q, hq, rfl⟩ := List.mem_map.mp hx; exact hg q hq
      _ = c.tally (bytesOf t) := rfl
  rw [hi.sizeHot, hi.sizeCold, hi'.sizeHot, hi'.sizeCold]
  exact add_le_add (hle etHot) (hle etCold)

-----------------------------------------------------------------------------------------
-- Each step
-----------------------------------------------------------------------------------------

/-- `metaAdd` of an entry `e` off the ring leaves the resident bytes below the target,
which it keeps, and links `e` only when it fits that target. -/
theorem Tallied.metaAdd_resident {c c' : Shard} {rc rc' : Refs} {fuel : Nat} {k : Key} {p : Nat}
    {e : Entry} {added : Bool} (hi : c.Tallied) (hp : p ∉ c.blockLinks) (he : c.arena p = some e)
    (h : c.metaAdd fuel rc k p = .ok (c', rc', added))
    : c'.targetSize = c.targetSize ∧ c'.sizeHot + c'.sizeCold < c.targetSize ∧
      (added = true → e.size ≤ c.targetSize) := by
  obtain ⟨c1, e1, hev, he1, hc⟩ := metaAdd_ok h
  have ev := Evolves.evict hi hev
  obtain rfl : e1 = e := Option.some.inj (he1.symm.trans ((ev.offRing p hp).trans he))
  have hlt := hi.resident_lt_of_evict hev
  rw [ev.targetSize] at hlt
  rcases hc with ⟨-, rfl, rfl⟩ | ⟨hle, rfl, rfl⟩
  · exact ⟨ev.targetSize, hlt, nofun⟩
  · rw [ev.targetSize] at hle
    simp only [link_targetSize, link_sizeHot, link_sizeCold]
    exact ⟨ev.targetSize, hlt, fun _ => hle⟩

/-- After `metaAdd`, `Set` counts the entry it linked or frees the one it declined; either
way the resident bytes stay below the target plus one entry that fits it. -/
theorem Tallied.admit_resident {c c3 c' : Shard} {rc rc3 : Refs} {fuel : Nat} {k : Key} {p : Nat}
    {e : Entry} {added : Bool} (hi : c.Tallied) (hp : p ∉ c.blockLinks) (he : c.arena p = some e)
    (hs : 0 ≤ e.size) (h : c.metaAdd fuel rc k p = .ok (c3, rc3, added))
    (hc : added = true ∧ c' = c3.count e ∨ added = false ∧ c' = (c3.freeEntry rc3 p).1)
    : c'.targetSize = c.targetSize ∧ c'.sizeHot + c'.sizeCold < 2 * c.targetSize := by
  obtain ⟨ht, hlt, hfit⟩ := hi.metaAdd_resident hp he h
  have hpos := c.targetSize_pos
  rcases hc with ⟨rfl, rfl⟩ | ⟨rfl, rfl⟩
  · have hb := bytesOf_resident_le hs
    have := hfit rfl
    refine ⟨ht, ?_⟩
    show c3.sizeHot + bytesOf etHot e + (c3.sizeCold + bytesOf etCold e) < 2 * c.targetSize
    omega
  · rw [freeEntry_fst]
    exact ⟨ht, by show c3.sizeHot + c3.sizeCold < 2 * c.targetSize; omega⟩

theorem Tallied.setAbsent_resident {c c' : Shard} {rc rc' : Refs} {fuel : Nat} {k : Key}
    {value : Value} (hi : c.Tallied) (h : Shard.setAbsent fuel c rc k value = .ok (c', rc'))
    : c'.targetSize = c.targetSize ∧ c'.sizeHot + c'.sizeCold < 2 * c.targetSize := by
  obtain ⟨c3, rc3, added, h3, hc⟩ := setAbsent_ok h
  obtain ⟨hp, hi2⟩ := hi.newSlot { newEntry k value.len with val := some value }
  exact hi2.admit_resident hp (Function.update_same _ _ _) (Int.ofNat_nonneg _) h3
    (hc.imp (fun ⟨ha, hc, _⟩ => ⟨ha, hc⟩) fun ⟨ha, hc⟩ => ⟨ha, congrArg Prod.fst hc⟩)

theorem Tallied.setTest_resident {c c' : Shard} {rc rc' : Refs} {fuel p : Nat} {k : Key}
    {e : Entry} {value : Value} (hi : c.Tallied) (hp : p ∈ c.blockLinks) (he : c.arena p = some e)
    (hte : e.ptype = etTest) (h : Shard.setTest fuel c rc k p e value = .ok (c', rc'))
    : c'.targetSize = c.targetSize ∧ c'.sizeHot + c'.sizeCold < 2 * c.targetSize := by
  obtain ⟨c6, rc6, added, h6, hc⟩ := setTest_ok he hte h
  obtain ⟨hp2, hi3⟩ := hi.ghostSlot hp he value
  exact hi3.admit_resident hp2 (Function.update_same _ _ _) (Int.ofNat_nonneg _) h6
    (hc.imp (fun ⟨ha, _, hc⟩ => ⟨ha, hc⟩) fun ⟨ha, hc⟩ => ⟨ha, congrArg Prod.fst hc⟩)

/-- `Set` keeps the target and leaves the resident bytes below twice the target: below the
target after its own `evict` when the key was resident, below the target plus the one
entry it admits otherwise. -/
theorem Tallied.set_resident {c c' : Shard} {rc rc' : Refs} {fuel : Nat}
    {id fileNum offset : UInt64} {value : Value} {hd : Handle} (hi : c.Tallied)
    (h : c.set fuel rc id fileNum offset value = .ok (c', rc', hd))
    : c'.targetSize = c.targetSize ∧ c'.sizeHot + c'.sizeCold < 2 * c.targetSize := by
  obtain ⟨-, -, -, hc⟩ := set_ok h
  rcases hc with ⟨-, h⟩ | ⟨p, e, hb, he, ⟨hv, h⟩ | ⟨hv, h⟩⟩
  · exact hi.setAbsent_resident h
  · obtain ⟨hi0, h0⟩ := hi.setResident_evict ((hi.blocks _ _).mp hb).1 he hv h
    have ht' : c'.targetSize = c.targetSize := (Evolves.evict hi0 h0).targetSize
    have hlt := hi0.resident_lt_of_evict h0
    have hpos := c.targetSize_pos
    exact ⟨ht', by omega⟩
  · have hp := ((hi.blocks _ _).mp hb).1
    exact hi.setTest_resident hp he ((hi.vals p hp e he).mp hv) h

/-- `Get` touches neither the counters of resident bytes nor the budget. -/
theorem get_resident {c c' : Shard} {rc rc' : Refs} {id fileNum offset : UInt64} {hd : Handle}
    (h : c.get rc id fileNum offset = .ok (c', rc', hd))
    : c'.targetSize = c.targetSize ∧ c'.sizeHot + c'.sizeCold = c.sizeHot + c.sizeCold := by
  obtain ⟨⟨c1, rc1, value⟩, h1, h⟩ := bind_eq_ok.mp h
  have h1' : c1.targetSize = c.targetSize ∧ c1.sizeHot + c1.sizeCold = c.sizeHot + c.sizeCold := by
    unfold getLocked at h1
    split at h1
    · cases h1; exact ⟨rfl, rfl⟩
    · obtain ⟨e, -, h1⟩ := bind_eq_ok.mp h1
      split at h1 <;> cases h1 <;> exact ⟨rfl, rfl⟩
  cases value <;> cases h <;> exact h1'

theorem Tallied.deleteLocked_resident {c c' : Shard} {rc rc' : Refs} {k : Key} {v : Option Value}
    (hi : c.Tallied) (h : c.deleteLocked rc k = .ok (c', rc', v))
    : c'.targetSize = c.targetSize ∧ c'.sizeHot + c'.sizeCold ≤ c.sizeHot + c.sizeCold := by
  have hi' := hi.deleteLocked h
  unfold Shard.deleteLocked at h
  split at h
  · cases h; exact ⟨rfl, le_rfl⟩
  · next p hb =>
    obtain ⟨⟨c1, rc1, v1⟩, h1, h⟩ := bind_eq_ok.mp h
    obtain ⟨_, -, h⟩ := bind_eq_ok.mp h
    cases h
    obtain ⟨e, he, rfl, -, -⟩ := metaEvict_ok h1
    have hr := @Tallied.removed_metaEvict _ rc _ _ hi ((hi.blocks _ _).mp hb).1 he
    refine ⟨by simp [freeEntry_fst, Shard.detach, uncount, Shard.targetSize], ?_⟩
    refine hi.resident_le_of_sub hi' (fun q hq => ?_) (fun q hq => hr.others q ?_)
    · rw [hr.ring] at hq; exact List.mem_of_mem_erase hq
    · rw [hr.ring] at hq; exact fun hqp => hi.nodup.not_mem_erase (hqp ▸ hq)

theorem Tallied.evictFileRun_resident {c c' : Shard} {rc rc' : Refs} {fkey : Key} {more : Bool}
    (hi : c.Tallied) (h : c.evictFileRun rc fkey = .ok (c', rc', more))
    : c'.targetSize = c.targetSize ∧ c'.sizeHot + c'.sizeCold ≤ c.sizeHot + c.sizeCold := by
  obtain ⟨c1, rc1, more1, hrun, hi1, hf, -⟩ := evictFileRun_spec rc fkey hi
  obtain ⟨rfl, -, -⟩ : c1 = c' ∧ rc1 = rc' ∧ more1 = more := by
    simpa [hrun] using h
  exact ⟨by simp only [Shard.targetSize, hf.maxSize, hf.reservedSize],
    hi.resident_le_of_sub hi1 hf.sub hf.arena⟩

/-- One step keeps the resident bytes below twice the target: `Set` and `Reserve` put
them there afresh, and the other steps keep the target and do not add bytes. -/
theorem Tallied.step_resident {c c' : Shard} (hi : c.Tallied)
    (hlt : c.sizeHot + c.sizeCold < 2 * c.targetSize)
    : Step c c' → c'.sizeHot + c'.sizeCold < 2 * c'.targetSize
  | .get run => by obtain ⟨ht, hs⟩ := get_resident run; rw [ht, hs]; exact hlt
  | .set run => by obtain ⟨ht, hs⟩ := hi.set_resident run; rw [ht]; exact hs
  | .delete run => by obtain ⟨ht, hs⟩ := hi.deleteLocked_resident run; rw [ht]; omega
  | .evictFileRun run => by obtain ⟨ht, hs⟩ := hi.evictFileRun_resident run; rw [ht]; omega
  | .reserve run => by
    obtain ⟨c0, hi0, -, -, -, -, h0⟩ := reserve_ok run
    have := (hi0 hi).resident_lt_of_evict h0
    have := c'.targetSize_pos
    omega

/-- The invariant short of `coldTarget` with the resident bytes below twice the target: what
every step keeps. -/
theorem residentFits_step {c c' : Shard} (st : Step c c')
    (h : c.Tallied ∧ c.sizeHot + c.sizeCold < 2 * c.targetSize)
    : c'.Tallied ∧ c'.sizeHot + c'.sizeCold < 2 * c'.targetSize :=
  ⟨h.1.step st, h.1.step_resident h.2 st⟩

/-- A new shard holds no resident byte, below a target of at least one. -/
theorem residentFits_empty (size : Int)
    : (Shard.empty size).Tallied ∧
      (Shard.empty size).sizeHot + (Shard.empty size).sizeCold < 2 * (Shard.empty size).targetSize :=
  ⟨Tallied.empty size, by have := (Shard.empty size).targetSize_pos; show (0 : Int) + 0 < _; omega⟩

end Shard

-----------------------------------------------------------------------------------------
-- Reachable shards
-----------------------------------------------------------------------------------------

open Shard in
/-- The bound `sizeHot + sizeCold ≤ targetSize` fails on a reachable shard: on an empty shard
of 10 bytes, a first `Set` of 6 bytes finds nothing to evict, and a second `Set` of 6
bytes evicts before it admits, while 6 bytes are still below the target. -/
theorem set_exceeds_targetSize
    : newShards 10 1 = .ok ⟨1, 10, 1, [Shard.empty 10]⟩ ∧
      ∃ c, Reachable (Shard.empty 10) c ∧ c.targetSize < c.sizeHot + c.sizeCold :=
  ⟨rfl, _, .tail (.single (@Step.set _ _ 2 (fun _ => 1) _ 1 1 0 ⟨0, 6⟩ _ rfl))
    (@Step.set _ _ 2 (fun _ => 1) _ 1 1 1 ⟨1, 6⟩ _ rfl), by decide⟩

-----------------------------------------------------------------------------------------
-- The cold target on a ghost hit
-----------------------------------------------------------------------------------------

namespace Shard

/-- `evict` on a shard below its target does nothing. -/
theorem evict_of_lt {c c' : Shard} {rc rc' : Refs} {n : Nat}
    (hlt : c.sizeHot + c.sizeCold < c.targetSize) (h : c.evict n rc = .ok (c', rc'))
    : c' = c ∧ rc' = rc := by
  cases n with
  | zero => cases h
  | succ n =>
    rw [evict, if_neg fun h => absurd h.1 (not_le.mpr hlt)] at h
    cases h
    exact ⟨rfl, rfl⟩

/-- On a shard below its target, `Set` on a ghost leaves `coldTarget` raised by the new
size up to the target: the sweep of `metaAdd` does not run, and linking, counting or
freeing the entry keep `coldTarget`. -/
theorem setTest_coldTarget {c c' : Shard} {rc rc' : Refs} {fuel p : Nat} {k : Key}
    {e : Entry} {value : Value} (he : c.arena p = some e) (hte : e.ptype = etTest)
    (hlt : c.sizeHot + c.sizeCold < c.targetSize)
    (h : setTest fuel c rc k p e value = .ok (c', rc'))
    : c'.coldTarget = min (c.coldTarget + value.len) c.targetSize := by
  obtain ⟨c6, rc6, added, h6, hc⟩ := setTest_ok he hte h
  obtain ⟨c1, e1, hev, -, hc6⟩ := metaAdd_ok h6
  obtain ⟨rfl, -⟩ := evict_of_lt (by simpa [uncount, Shard.detach, setEntry, bytesOf, hte]) hev
  have hmin : (if c.coldTarget + value.len > c.targetSize then c.targetSize
      else c.coldTarget + value.len) = min (c.coldTarget + value.len) c.targetSize := by
    rw [min_def]; split_ifs <;> omega
  have h6ct : c6.coldTarget = min (c.coldTarget + value.len) c.targetSize := by
    rcases hc6 with ⟨-, rfl, -⟩ | ⟨-, rfl, -⟩
    · exact hmin
    · simp only [Shard.link, linkFile_coldTarget, linkBlock_coldTarget]; exact hmin
  rcases hc with ⟨-, -, rfl⟩ | ⟨-, hc⟩
  · simpa [count] using h6ct
  · rw [show c' = (c6.freeEntry rc6 p).1 from congrArg Prod.fst hc, freeEntry_fst]; exact h6ct

end Shard

open Shard in
/-- A ghost hit on a reachable shard keeps `coldTarget` within `[0, targetSize]`, the
target unchanged, and, when the resident bytes were below the target so that the sweep of
`metaAdd` does not run, raises it to the old value plus the new size, capped at the
target. -/
theorem set_ghost_coldTarget {size : Int} {c c' : Shard} {rc rc' : Refs} {fuel p : Nat}
    {id fileNum offset : UInt64} {value : Value} {hd : Handle} (hsize : 0 ≤ size)
    (h64 : InInt64 size) (hr : Reachable (Shard.empty size) c) (hb : c.blocks ⟨id, fileNum, offset⟩ = some p)
    (htest : (c.arena p).map Entry.ptype = some etTest)
    (h : c.set fuel rc id fileNum offset value = .ok (c', rc', hd))
    : 0 ≤ c'.coldTarget ∧ c'.coldTarget ≤ c'.targetSize ∧ c'.targetSize = c.targetSize ∧
      (c.sizeHot + c.sizeCold < c.targetSize →
        c.coldTarget ≤ c'.coldTarget ∧ c'.coldTarget = min (c.coldTarget + value.len) c.targetSize) := by
  have hi := (Inv.empty hsize h64).reachable hr
  refine ⟨(hi.set h).coldTarget.1, (hi.set h).coldTarget.2, (hi.set_resident h).1, fun hlt => ?_⟩
  obtain ⟨e, he, hte⟩ : ∃ e, c.arena p = some e ∧ e.ptype = etTest := by simpa using htest
  have hp := ((hi.blocks _ _).mp hb).1
  obtain ⟨-, -, -, hc⟩ := set_ok h
  rcases hc with ⟨hb', -⟩ | ⟨p', e', hb', he', ⟨hv, -⟩ | ⟨-, h⟩⟩
  · simp [hb] at hb'
  · obtain rfl : p = p' := Option.some.inj (hb.symm.trans hb')
    obtain rfl : e = e' := Option.some.inj (he.symm.trans he')
    exact absurd ((hi.vals p hp e he).mpr hte) hv
  · obtain rfl : p = p' := Option.some.inj (hb.symm.trans hb')
    obtain rfl : e = e' := Option.some.inj (he.symm.trans he')
    have hct := setTest_coldTarget he hte hlt h
    have := hi.coldTarget
    exact ⟨by rw [hct]; omega, hct⟩

set_option smartUnfolding false in
open Shard in
theorem set_ghost_coldTarget_ghostHit
    : ∃ c c' rc' hd, 0 ≤ (10 : Int) ∧ InInt64 10 ∧ Reachable (Shard.empty 10) c ∧
      c.blocks ⟨1, 1, 4⟩ = some 3 ∧
      (c.arena 3).map Entry.ptype = some etTest ∧
      c.set 12 (fun _ => 1) 1 1 4 ⟨1, 4⟩ = .ok (c', rc', hd) ∧
      0 ≤ c'.coldTarget ∧ c'.coldTarget ≤ c'.targetSize ∧ c'.targetSize = c.targetSize ∧
      (c.sizeHot + c.sizeCold < c.targetSize →
        c.coldTarget ≤ c'.coldTarget ∧ c'.coldTarget = min (c.coldTarget + 4) c.targetSize) :=
  have reach : Reachable (Shard.empty 10) _ :=
    .tail (.tail (.tail (.tail (.single
      (@Step.set _ _ 1 (fun _ => 1) _ 1 1 1 ⟨0, 4⟩ _ rfl))
      (@Step.set _ _ 1 (fun _ => 1) _ 1 1 2 ⟨0, 4⟩ _ rfl))
      (@Step.set _ _ 1 (fun _ => 1) _ 1 1 3 ⟨0, 4⟩ _ rfl))
      (@Step.set _ _ 6 (fun _ => 1) _ 1 1 4 ⟨0, 4⟩ _ rfl))
      (@Step.set _ _ 3 (fun _ => 1) _ 1 1 5 ⟨0, 4⟩ _ rfl)
  ⟨_, _, _, _, by decide, by decide, reach, rfl, rfl, rfl,
    @set_ghost_coldTarget 10 _ _ (fun _ => 1) _ 12 3 1 1 4 ⟨1, 4⟩ _ (by decide) (by decide) reach rfl
      rfl rfl⟩

set_option smartUnfolding false in
open Shard in
/-- The sweep after a ghost hit can leave `coldTarget` below its value before the call. On
an empty shard of `maxSize` 10, Set keys 1 to 6 with 4-byte values: key 4 is then a ghost
at address 3 and `coldTarget` is 6. `Set` of key 4 raises `coldTarget` to 10, the target;
the resident bytes are above the target, so `metaAdd` sweeps, and the test hand it runs
frees ghosts and lowers `coldTarget` to 2. -/
theorem ghost_hit_lowers_coldTarget
    : ∃ c, Reachable (Shard.empty 10) c ∧ c.blocks ⟨1, 1, 4⟩ = some 3 ∧
      (c.arena 3).map Entry.ptype = some etTest ∧ c.coldTarget = 6 ∧
      ∃ c' rc' hd, c.set 12 (fun _ => 1) 1 1 4 ⟨1, 4⟩ = .ok (c', rc', hd) ∧ c'.coldTarget = 2 :=
  ⟨_, .tail (.tail (.tail (.tail (.tail (.single
      (@Step.set _ _ 1 (fun _ => 1) _ 1 1 1 ⟨0, 4⟩ _ rfl))
      (@Step.set _ _ 1 (fun _ => 1) _ 1 1 2 ⟨0, 4⟩ _ rfl))
      (@Step.set _ _ 1 (fun _ => 1) _ 1 1 3 ⟨0, 4⟩ _ rfl))
      (@Step.set _ _ 6 (fun _ => 1) _ 1 1 4 ⟨0, 4⟩ _ rfl))
      (@Step.set _ _ 3 (fun _ => 1) _ 1 1 5 ⟨0, 4⟩ _ rfl))
      (@Step.set _ _ 3 (fun _ => 1) _ 1 1 6 ⟨0, 4⟩ _ rfl),
    rfl, rfl, rfl, _, _, _, rfl, rfl⟩

end Vecble.ClockPro
