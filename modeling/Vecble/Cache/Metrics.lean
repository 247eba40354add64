import Vecble.Cache.Progress

/-! The cache's statistics (`Cache.Metrics`) and ID allocator (`Cache.NewID`): only `Get`
counts, as a hit or a miss, and `NewID` hands out distinct nonzero IDs until its counter wraps.
-/

namespace Vecble.ClockPro

-----------------------------------------------------------------------------------------
-- Metrics
-----------------------------------------------------------------------------------------

/-- `Metrics`, without `Count`: the resident bytes and the hit and miss counters. -/
structure Metrics where
  size : Int
  hits : Nat
  misses : Nat
deriving DecidableEq, Repr

/-- `Cache.Metrics`: the sums over the shards, shard by shard. -/
def Cache.metrics (c : Cache) : Metrics :=
  c.shards.foldl (fun m s =>
    ⟨m.size + (s.sizeHot + s.sizeCold), m.hits + s.hits, m.misses + s.misses⟩) ⟨0, 0, 0⟩

theorem foldl_metrics (l : List Shard) (m : Metrics)
    : l.foldl (fun m s =>
      ⟨m.size + (s.sizeHot + s.sizeCold), m.hits + s.hits, m.misses + s.misses⟩) m =
      ⟨m.size + (l.map Shard.size).sum, m.hits + (l.map Shard.hits).sum,
        m.misses + (l.map Shard.misses).sum⟩ := by
  induction l generalizing m with
  | nil => simp
  | cons s l ih =>
    rw [List.foldl_cons, ih]
    simp only [List.map_cons, List.sum_cons, Shard.size, Metrics.mk.injEq]
    omega

@[simp] theorem Cache.metrics_size (c : Cache) : c.metrics.size = c.size := by
  simp [Cache.metrics, foldl_metrics, Cache.size]

@[simp] theorem Cache.metrics_hits (c : Cache) : c.metrics.hits = (c.shards.map Shard.hits).sum := by
  simp [Cache.metrics, foldl_metrics]

@[simp] theorem Cache.metrics_misses (c : Cache)
    : c.metrics.misses = (c.shards.map Shard.misses).sum := by
  simp [Cache.metrics, foldl_metrics]

namespace Shard

-----------------------------------------------------------------------------------------
-- No operation but Get counts
-----------------------------------------------------------------------------------------

/-- `c'` has the hit and miss counters of `c`. -/
def SameCounts (c c' : Shard) : Prop := c'.hits = c.hits ∧ c'.misses = c.misses

theorem SameCounts.refl (c : Shard) : SameCounts c c := ⟨rfl, rfl⟩

theorem SameCounts.trans {a b c : Shard} (h1 : SameCounts a b) (h2 : SameCounts b c)
    : SameCounts a c :=
  ⟨h2.1.trans h1.1, h2.2.trans h1.2⟩

theorem sameCounts_link (c : Shard) (k : Key) (p : Nat) : SameCounts c (c.link k p) := by
  have hb : ∀ d : Shard, SameCounts d (d.linkBlock p) := fun d => by
    unfold linkBlock; cases d.handHot <;> dsimp only <;> split <;> exact ⟨rfl, rfl⟩
  have hf : ∀ d : Shard, SameCounts d (d.linkFile k.file p) := fun d => by
    unfold linkFile; split <;> exact ⟨rfl, rfl⟩
  exact (hb { c with blocks := Function.update c.blocks k (some p) }).trans (hf _)

theorem sameCounts_freeEntry (c : Shard) (rc : Refs) (p : Nat)
    : SameCounts c (c.freeEntry rc p).1 := by
  rw [freeEntry_fst]; exact ⟨rfl, rfl⟩

/-- No step of a hand counts. -/
theorem Sweep.sameCounts {a b : Shard × Refs} : Sweep a b → SameCounts a.1 b.1
  | .promote .. | .demote .. | .advanceCold => ⟨rfl, rfl⟩
  | .hot step => by
    obtain ⟨p, e, -, -, d, rfl, rfl⟩ := hotStep_ok step
    split <;> (try split) <;> exact ⟨rfl, rfl⟩
  | .test step => by
    obtain ⟨p, e, -, -, ⟨-, d, rfl, rfl⟩ | ⟨-, rfl⟩⟩ := testStep_ok step
    · exact sameCounts_freeEntry _ _ _
    · exact ⟨rfl, rfl⟩

theorem Sweeps.sameCounts {a b : Shard × Refs} (h : Sweeps a b) : SameCounts a.1 b.1 := by
  induction h with
  | refl => exact .refl _
  | tail _ st ih => exact ih.trans st.sameCounts

theorem evict_sameCounts {c c' : Shard} {rc rc' : Refs} {n : Nat}
    (h : c.evict n rc = .ok (c', rc'))
    : SameCounts c c' :=
  ((sweeps_of_runs n).1 c rc _ h).sameCounts

theorem metaAdd_sameCounts {c c' : Shard} {rc rc' : Refs} {fuel : Nat} {k : Key} {p : Nat}
    {added : Bool} (h : c.metaAdd fuel rc k p = .ok (c', rc', added))
    : SameCounts c c' := by
  obtain ⟨c1, e, hev, -, ⟨-, rfl, -⟩ | ⟨-, rfl, -⟩⟩ := metaAdd_ok h
  · exact evict_sameCounts hev
  · exact (evict_sameCounts hev).trans (sameCounts_link _ _ _)

/-- After `metaAdd`, `Set` counts the entry it linked or frees the one it declined. -/
theorem admit_sameCounts {c3 c' counted : Shard} {rc3 rc' : Refs} {p : Nat} {added : Bool}
    (h : (if added then pure (counted, rc3) else pure (c3.freeEntry rc3 p) :
      Except Fault (Shard × Refs)) = .ok (c', rc'))
    (hcount : SameCounts c3 counted)
    : SameCounts c3 c' := by
  split at h
  · cases h; exact hcount
  · obtain rfl : (c3.freeEntry rc3 p).1 = c' := congrArg Prod.fst (Except.ok.inj h)
    exact sameCounts_freeEntry _ _ _

theorem setAbsent_sameCounts {c c' : Shard} {rc rc' : Refs} {fuel : Nat} {k : Key}
    {value : Value} (h : setAbsent fuel c rc k value = .ok (c', rc'))
    : SameCounts c c' := by
  simp only [setAbsent, setValue] at h
  obtain ⟨⟨c3, rc3, added⟩, h3, h⟩ := bind_eq_ok.mp h
  have s3 := metaAdd_sameCounts h3
  dsimp only at h
  exact (show SameCounts c c3 from ⟨s3.1, s3.2⟩).trans (admit_sameCounts h ⟨rfl, rfl⟩)

theorem setResident_sameCounts {c c' : Shard} {rc rc' : Refs} {fuel p : Nat} {e : Entry}
    {value : Value} (h : setResident fuel c rc p e value = .ok (c', rc'))
    : SameCounts c c' := by
  simp only [setResident, setValue] at h
  refine SameCounts.trans ?_ (evict_sameCounts h)
  split <;> exact ⟨rfl, rfl⟩

theorem setTest_sameCounts {c c' : Shard} {rc rc' : Refs} {fuel p : Nat} {k : Key} {e : Entry}
    {value : Value} (h : setTest fuel c rc k p e value = .ok (c', rc'))
    : SameCounts c c' := by
  simp only [setTest, setValue] at h
  obtain ⟨⟨c2, v⟩, h2, h⟩ := bind_eq_ok.mp h
  obtain ⟨e2, -, rfl, rfl⟩ := metaDel_ok h2
  obtain ⟨⟨c6, rc6, added⟩, h6, h⟩ := bind_eq_ok.mp h
  have s6 := metaAdd_sameCounts h6
  dsimp only at h
  exact (show SameCounts c c6 from ⟨s6.1, s6.2⟩).trans (admit_sameCounts h ⟨rfl, rfl⟩)

theorem set_sameCounts {c c' : Shard} {rc rc' : Refs} {fuel : Nat} {id fileNum offset : UInt64}
    {value : Value} {hd : Handle} (h : c.set fuel rc id fileNum offset value = .ok (c', rc', hd))
    : SameCounts c c' := by
  obtain ⟨-, -, -, hc⟩ := set_ok h
  rcases hc with ⟨-, h⟩ | ⟨p, e, -, -, ⟨-, h⟩ | ⟨-, h⟩⟩
  · exact setAbsent_sameCounts h
  · exact setResident_sameCounts h
  · exact setTest_sameCounts h

theorem metaEvict_sameCounts {c c' : Shard} {rc rc' : Refs} {p : Nat} {v : Option Value}
    (h : c.metaEvict rc p = .ok (c', rc', v))
    : SameCounts c c' := by
  obtain ⟨e, -, rfl, -, -⟩ := metaEvict_ok h
  exact sameCounts_freeEntry _ _ _

theorem delete_sameCounts {c c' : Shard} {rc rc' : Refs} {id fileNum offset : UInt64}
    (h : c.delete rc id fileNum offset = .ok (c', rc'))
    : SameCounts c c' := by
  simp only [Shard.delete] at h
  split at h
  · cases h; exact .refl _
  · obtain ⟨⟨c1, rc1, v⟩, h1, h⟩ := bind_eq_ok.mp h
    cases h
    unfold deleteLocked at h1
    split at h1
    · cases h1; exact .refl _
    · obtain ⟨⟨c2, rc2, v2⟩, h2, h1⟩ := bind_eq_ok.mp h1
      obtain ⟨_, -, h1⟩ := bind_eq_ok.mp h1
      cases h1
      exact metaEvict_sameCounts h2

theorem evictFileRunLoop_sameCounts
    : ∀ {room : Nat} {c c' : Shard} {rc rc' : Refs} {b : Nat}
      {obs obs' : List (Option Value)} {more : Bool},
      evictFileRunLoop room c rc b obs = .ok (c', rc', obs', more) → SameCounts c c'
  | 0, _, _, _, _, _, _, _, _, h => by cases h; exact .refl _
  | room + 1, c, c', rc, rc', b, obs, obs', more, h => by
    rw [evictFileRunLoop] at h
    obtain ⟨e, -, h⟩ := bind_eq_ok.mp h
    obtain ⟨⟨c1, rc1, v⟩, h1, h⟩ := bind_eq_ok.mp h
    dsimp only at h
    split at h
    · obtain ⟨_, -, h⟩ := bind_eq_ok.mp h
      cases h
      exact metaEvict_sameCounts h1
    · exact (metaEvict_sameCounts h1).trans (evictFileRunLoop_sameCounts h)

theorem evictFileLoop_sameCounts
    : ∀ {n : Nat} {c c' : Shard} {rc rc' : Refs} {fkey : Key},
      c.evictFileLoop n rc fkey = .ok (c', rc') → SameCounts c c'
  | 0, _, _, _, _, _, h => by cases h
  | n + 1, c, c', rc, rc', fkey, h => by
    obtain ⟨⟨c1, rc1, more⟩, h1, h⟩ := bind_eq_ok.mp h
    have s1 : SameCounts c c1 := by
      unfold evictFileRun at h1
      split at h1
      · cases h1; exact .refl _
      · obtain ⟨⟨c2, rc2, obs, more2⟩, h2, h1⟩ := bind_eq_ok.mp h1
        cases h1
        exact evictFileRunLoop_sameCounts h2
    dsimp only at h
    split at h
    · exact s1.trans (evictFileLoop_sameCounts h)
    · cases h; exact s1

theorem reserve_sameCounts {c c' : Shard} {rc rc' : Refs} {fuel : Nat} {n : Int}
    (h : c.reserve fuel rc n = .ok (c', rc'))
    : SameCounts c c' := by
  obtain ⟨⟨c1, rc1⟩, h1, h⟩ := bind_eq_ok.mp h
  obtain ⟨_, -, h⟩ := bind_eq_ok.mp h
  cases h
  refine SameCounts.trans ?_ (evict_sameCounts h1)
  split <;> exact ⟨rfl, rfl⟩

/-- `Get` counts a hit when the handle it returns holds a value and a miss otherwise. -/
theorem get_counts {c c' : Shard} {rc rc' : Refs} {id fileNum offset : UInt64} {hd : Handle}
    (h : c.get rc id fileNum offset = .ok (c', rc', hd))
    : c'.hits = c.hits + (if hd.value.isSome then 1 else 0) ∧
      c'.misses = c.misses + (if hd.value.isSome then 0 else 1) := by
  rcases get_ok h with ⟨rfl, -, rfl⟩ | ⟨p, e, v, -, -, -, rfl, -, rfl⟩ <;> exact ⟨rfl, rfl⟩

end Shard

-----------------------------------------------------------------------------------------
-- The counters of the cache over runs
-----------------------------------------------------------------------------------------

open Shard

theorem sum_map_set_add {l : List Shard} {i : Nat} {s s' : Shard} (f : Shard → Nat)
    (hs : l[i]? = some s)
    : ((l.set i s').map f).sum + f s = (l.map f).sum + f s' := by
  induction l generalizing i with
  | nil => cases hs
  | cons a l ih =>
    cases i with
    | zero =>
      obtain rfl : a = s := by simpa using hs
      simp only [List.set_cons_zero, List.map_cons, List.sum_cons]; omega
    | succ i =>
      have := ih (by simpa using hs)
      simp only [List.set_cons_succ, List.map_cons, List.sum_cons]; omega

theorem sum_counts_of_forall₂ {ss ss' : List Shard} (h : List.Forall₂ SameCounts ss ss')
    : (ss'.map Shard.hits).sum = (ss.map Shard.hits).sum ∧
      (ss'.map Shard.misses).sum = (ss.map Shard.misses).sum := by
  induction h with
  | nil => exact ⟨rfl, rfl⟩
  | cons hs _ ih =>
    exact ⟨by simp only [List.map_cons, List.sum_cons, hs.1, ih.1],
      by simp only [List.map_cons, List.sum_cons, hs.2, ih.2]⟩

/-- Storing a shard with the same counters back leaves the cache's counters. -/
theorem Cache.metrics_counts_set {c : Cache} {i : Nat} {s s' : Shard} (hs : c.shards[i]? = some s)
    (h : SameCounts s s')
    : ({ c with shards := c.shards.set i s' } : Cache).metrics.hits = c.metrics.hits ∧
      ({ c with shards := c.shards.set i s' } : Cache).metrics.misses = c.metrics.misses := by
  have h1 := @sum_map_set_add _ _ _ s' Shard.hits hs
  have h2 := @sum_map_set_add _ _ _ s' Shard.misses hs
  simp only [Cache.metrics_hits, Cache.metrics_misses]
  rw [h.1] at h1; rw [h.2] at h2
  omega

/-- Whether a call is a `Get`. -/
def Call.isGet : Call → Bool
  | .get .. => true
  | _ => false

/-- A call other than `Get` leaves the cache's hit and miss counters. -/
theorem World.Step.metrics_of_not_get {w w' : World} {call : Call} (st : World.Step w call w')
    (hc : call.isGet = false)
    : w'.cache.metrics.hits = w.cache.metrics.hits ∧ w'.cache.metrics.misses = w.cache.metrics.misses := by
  cases st with
  | get => cases hc
  | set _ run =>
    obtain ⟨i, s, s', -, hs, h, rfl⟩ := Cache.set_ok run
    exact Cache.metrics_counts_set hs (set_sameCounts h)
  | delete run =>
    obtain ⟨i, s, s', -, hs, h, rfl⟩ := Cache.delete_ok run
    exact Cache.metrics_counts_set hs (delete_sameCounts h)
  | evictFile run =>
    obtain ⟨ss, hall, rfl⟩ := Cache.evictFile_ok run
    simpa only [Cache.metrics_hits, Cache.metrics_misses] using sum_counts_of_forall₂
      (forEachShard_forall₂ (fun _ _ _ _ _ h => evictFileLoop_sameCounts h) hall)
  | reserve run =>
    obtain ⟨ss, hall, rfl⟩ := Cache.reserve_ok run
    simpa only [Cache.metrics_hits, Cache.metrics_misses] using sum_counts_of_forall₂
      (forEachShard_forall₂ (fun _ _ _ _ _ h => reserve_sameCounts h) hall)
  | release _ => exact ⟨rfl, rfl⟩

/-- A `Get` adds one hit when the handle it returns holds a value and one miss otherwise. -/
theorem World.Step.metrics_of_get {w w' : World} {id fileNum offset : UInt64}
    (st : World.Step w (.get id fileNum offset) w')
    : ∃ hd, w'.handles = hd :: w.handles ∧
      w'.cache.metrics.hits = w.cache.metrics.hits + (if hd.value.isSome then 1 else 0) ∧
      w'.cache.metrics.misses = w.cache.metrics.misses + (if hd.value.isSome then 0 else 1) := by
  cases st with
  | get run =>
    obtain ⟨i, s, s', -, hs, h, rfl⟩ := Cache.get_ok run
    obtain ⟨h1, h2⟩ := get_counts h
    have e1 := @sum_map_set_add _ _ _ s' Shard.hits hs
    have e2 := @sum_map_set_add _ _ _ s' Shard.misses hs
    refine ⟨_, rfl, ?_, ?_⟩ <;> simp only [Cache.metrics_hits, Cache.metrics_misses] <;> omega

/-- Statistics count the `Get` calls. Every `Get` adds one hit when the handle it returns
holds a value and one miss otherwise, and no other call (`Set`, `Delete`, `EvictFile`,
`Reserve`, nor the eviction they run, nor a `Release`) changes `Hits` or `Misses`; so over
every run of calls from a cache that `newShards` builds, `Hits + Misses` is the number of
`Get` calls. -/
theorem metrics_count_gets
    : (∀ {w w' : World} {id fileNum offset : UInt64}, World.Step w (.get id fileNum offset) w' →
        ∃ hd, w'.handles = hd :: w.handles ∧
          w'.cache.metrics.hits = w.cache.metrics.hits + (if hd.value.isSome then 1 else 0) ∧
          w'.cache.metrics.misses = w.cache.metrics.misses + (if hd.value.isSome then 0 else 1)) ∧
      (∀ {w w' : World} {call : Call}, World.Step w call w' → call.isGet = false →
        w'.cache.metrics.hits = w.cache.metrics.hits ∧
          w'.cache.metrics.misses = w.cache.metrics.misses) ∧
      ∀ {size : Int} {shards : Nat} {cache : Cache} {calls : List Call} {w : World},
        newShards size shards = .ok cache → World.Run (World.init cache) calls w →
        w.cache.metrics.hits + w.cache.metrics.misses = (calls.filter Call.isGet).length := by
  refine ⟨fun st => st.metrics_of_get, fun st hc => st.metrics_of_not_get hc,
    fun {size shards cache calls w} hnew hrun => ?_⟩
  induction hrun with
  | nil =>
    cases hnew
    simp [World.init, Shard.empty]
  | @snoc _ _ _ call _ st ih =>
    rw [List.filter_append, List.length_append]
    cases hc : call.isGet
    · obtain ⟨h1, h2⟩ := st.metrics_of_not_get hc
      rw [h1, h2, ih, List.filter_singleton, hc, cond_false, List.length_nil, Nat.add_zero]
    · cases call with
      | get id fileNum offset =>
        obtain ⟨hd, -, h1, h2⟩ := st.metrics_of_get
        rw [h1, h2, List.filter_singleton, hc, cond_true, List.length_singleton]
        split_ifs <;> omega
      | _ => cases hc

set_option smartUnfolding false in
/-- A run from the cache `newShards 10 1` builds: a `Set`, a `Get` of its key, a hit, and a
`Get` of another key, a miss. -/
theorem metrics_count_gets_hitMiss
    : ∃ w, World.Run (World.init ⟨1, 10, 1, [Shard.empty 10]⟩)
        [.set 1 1 0 ⟨0, 6⟩, .get 1 1 0, .get 1 1 1] w ∧
      w.cache.metrics.hits = 1 ∧ w.cache.metrics.misses = 1 ∧
      w.cache.metrics.hits + w.cache.metrics.misses =
        ([Call.set 1 1 0 ⟨0, 6⟩, .get 1 1 0, .get 1 1 1].filter Call.isGet).length :=
  let ⟨w, hw, hh, hm⟩ : ∃ w, (World.init ⟨1, 10, 1, [Shard.empty 10]⟩).execAll 2
      [.set 1 1 0 ⟨0, 6⟩, .get 1 1 0, .get 1 1 1] = some w ∧
      w.cache.metrics.hits = 1 ∧ w.cache.metrics.misses = 1 := ⟨_, rfl, by decide, by decide⟩
  ⟨w, World.execAll_run hw, hh, hm, metrics_count_gets.2.2
    (show newShards 10 1 = .ok ⟨1, 10, 1, [Shard.empty 10]⟩ from rfl) (World.execAll_run hw)⟩

-----------------------------------------------------------------------------------------
-- IDs
-----------------------------------------------------------------------------------------

/-- `NewID` called `k` times, with the IDs it returns in order. -/
def Cache.newIDs : Nat → Cache → Cache × List UInt64
  | 0, c => (c, [])
  | k + 1, c =>
    let (c1, id) := c.newID
    let (c2, ids) := Cache.newIDs k c1
    (c2, id :: ids)

/-- The `i`-th ID of a run of `NewID` calls is the allocator plus `i + 1`, modulo `2^64`;
by induction on the calls. -/
theorem Cache.newIDs_toNat
    : ∀ (k : Nat) (c : Cache),
      (c.newIDs k).2.map UInt64.toNat =
        (List.range k).map fun i => (c.idAlloc.toNat + i + 1) % 2 ^ 64
  | 0, _ => rfl
  | k + 1, c => by
    have hs : UInt64.size = 2 ^ 64 := rfl
    simp only [Cache.newIDs, Cache.newID, List.map_cons, Cache.newIDs_toNat k,
      List.range_succ_eq_map, List.map_map]
    congr 1
    refine List.map_congr_left fun i _ => ?_
    show ((c.idAlloc + 1).toNat + i + 1) % 2 ^ 64 = (c.idAlloc.toNat + (i + 1) + 1) % 2 ^ 64
    rw [UInt64.toNat_add, hs]
    show ((c.idAlloc.toNat + 1) % 2 ^ 64 + i + 1) % 2 ^ 64 = _
    omega

/-- `NewID` hands out fresh IDs that the cache accepts: as long as the allocator does not
wrap around, the IDs of any run of `NewID` calls are pairwise distinct and nonzero, so
`getShard` routes each to a shard; and the call that completes the lap returns the ID 0,
which `getShard` refuses. -/
theorem newIDs_fresh (c : Cache) (k : Nat) (hk : c.idAlloc.toNat + k < 2 ^ 64)
    (hlen : 0 < c.shards.length)
    : (c.newIDs k).2.Nodup ∧
      (∀ id ∈ (c.newIDs k).2, id ≠ 0 ∧
        ∀ fileNum offset, ∃ i, c.getShard id fileNum offset = .ok i ∧ i < c.shards.length) ∧
      (c.newIDs (2 ^ 64 - c.idAlloc.toNat)).2.getLast? = some 0 := by
  have hmap := Cache.newIDs_toNat k c
  have hlt : ∀ i < k, (c.idAlloc.toNat + i + 1) % 2 ^ 64 = c.idAlloc.toNat + i + 1 :=
    fun i hi => Nat.mod_eq_of_lt (by omega)
  have hne : ∀ id ∈ (c.newIDs k).2, id ≠ 0 := fun id hid h0 => by
    have : id.toNat ∈ (c.newIDs k).2.map UInt64.toNat := List.mem_map_of_mem _ hid
    rw [hmap, List.mem_map] at this
    obtain ⟨i, hi, he⟩ := this
    rw [hlt i (List.mem_range.mp hi), h0] at he
    simp at he
  refine ⟨List.Nodup.of_map UInt64.toNat ?_, fun id hid => ⟨hne id hid, fun fileNum offset =>
    Cache.getShard_lt fileNum offset (hne id hid) hlen⟩, ?_⟩
  · rw [hmap]
    refine (List.nodup_range k).map_on fun i hi j hj h => ?_
    rw [hlt i (List.mem_range.mp hi), hlt j (List.mem_range.mp hj)] at h
    omega
  · have ha := c.idAlloc.toNat_lt
    have hw := congrArg List.getLast? (Cache.newIDs_toNat (2 ^ 64 - c.idAlloc.toNat) c)
    rw [List.getLast?_map, List.getLast?_map, List.getLast?_range, if_neg (by omega)] at hw
    cases hl : (c.newIDs (2 ^ 64 - c.idAlloc.toNat)).2.getLast? with
    | none => rw [hl] at hw; cases hw
    | some x =>
      rw [hl, Option.map_some', Option.map_some', Option.some.injEq] at hw
      refine congrArg some (UInt64.ext_iff.mpr ?_)
      rw [hw]
      show _ = 0
      omega

theorem newIDs_fresh_three
    : 0 + 3 < 2 ^ 64 ∧ 0 < [Shard.empty 10].length ∧
      ((⟨1, 10, 0, [Shard.empty 10]⟩ : Cache).newIDs 3).2.Nodup ∧
      (∀ id ∈ ((⟨1, 10, 0, [Shard.empty 10]⟩ : Cache).newIDs 3).2, id ≠ 0 ∧
        ∀ fileNum offset, ∃ i, (⟨1, 10, 0, [Shard.empty 10]⟩ : Cache).getShard id fileNum offset =
          .ok i ∧ i < [Shard.empty 10].length) ∧
      ((⟨1, 10, 0, [Shard.empty 10]⟩ : Cache).newIDs (2 ^ 64 - 0)).2.getLast? = some 0 :=
  ⟨by decide, by decide, newIDs_fresh ⟨1, 10, 0, [Shard.empty 10]⟩ 3 (by decide) (by decide)⟩

end Vecble.ClockPro
