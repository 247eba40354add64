import Vecble.Cache.Admission

/-! Progress: no call is stuck on a cache that `newShards` builds, along every run of calls;
and the life of a reservation, whose release gives every shard its share back once.
-/

namespace Vecble.ClockPro

open Shard

-----------------------------------------------------------------------------------------
-- Each call returns on one shard
-----------------------------------------------------------------------------------------

namespace Shard

/-- `Get` returns on every shard with the invariant: the key's entry is live. -/
theorem Inv.get_returns {c : Shard} (hi : c.Inv) (rc : Refs) (id fileNum offset : UInt64)
    : ∃ r, c.get rc id fileNum offset = .ok r := by
  unfold Shard.get getLocked
  cases hb : c.blocks ⟨id, fileNum, offset⟩ with
  | none => exact ⟨_, rfl⟩
  | some p =>
    obtain ⟨e, he⟩ := Option.isSome_iff_exists.mp (hi.live p ((hi.blocks _ _).mp hb).1)
    cases hv : e.val <;>
      simp [Shard.entry, he, hv, bind, Except.bind, pure, Except.pure]

/-- `Delete` returns on every shard with the invariant: the key's entry is live, and the
shard without it passes the consistency check. -/
theorem Inv.delete_returns {c : Shard} (hi : c.Inv) (rc : Refs) (id fileNum offset : UInt64)
    : ∃ r, c.delete rc id fileNum offset = .ok r := by
  unfold Shard.delete Shard.deleteLocked
  dsimp only
  cases hb : c.blocks ⟨id, fileNum, offset⟩ with
  | none => exact ⟨_, rfl⟩
  | some p =>
    have hp := ((hi.blocks _ _).mp hb).1
    obtain ⟨e, he⟩ := Option.isSome_iff_exists.mp (hi.live p hp)
    have hc := (hi.metaEvict hp (@metaEvict_eq c rc p e he)).checkConsistency
    simp [metaEvict_eq he, hc, bind, Except.bind, pure, Except.pure]

end Shard

-----------------------------------------------------------------------------------------
-- Routing and running over all shards
-----------------------------------------------------------------------------------------

/-- An index `getShard` computes is below the number of shards, also when that number does
not fit in 64 bits. -/
theorem toNat_mod_toUInt64_lt (h : UInt64) {n : Nat} (hn : 0 < n) : (h % n.toUInt64).toNat < n := by
  rw [UInt64.toNat_mod, show n.toUInt64.toNat = n % 2 ^ 64 from rfl]
  rcases Nat.eq_zero_or_pos (n % 2 ^ 64) with h0 | h0
  · have := Nat.le_of_dvd hn (Nat.dvd_of_mod_eq_zero h0)
    have := h.toNat_lt
    rw [h0, Nat.mod_zero]
    omega
  · exact lt_of_lt_of_le (Nat.mod_lt _ h0) (Nat.mod_le _ _)

/-- `getShard` of a nonzero ID on a cache with shards names one of them. -/
theorem Cache.getShard_lt {c : Cache} {id : UInt64} (fileNum offset : UInt64) (hid : id ≠ 0)
    (hlen : 0 < c.shards.length)
    : ∃ i, c.getShard id fileNum offset = .ok i ∧ i < c.shards.length := by
  unfold Cache.getShard
  rw [if_neg hid, if_neg (Nat.pos_iff_ne_zero.mp hlen)]
  exact ⟨_, rfl, toNat_mod_toUInt64_lt _ hlen⟩

/-- A call routed by a nonzero ID returns when its operation returns on every shard. -/
theorem Cache.route_returns {α : Type} {c : Cache} {id : UInt64} (fileNum offset : UInt64)
    (hid : id ≠ 0) (hlen : 0 < c.shards.length) {f : Shard → Except Fault (Shard × α)}
    (hf : ∀ s ∈ c.shards, ∃ r, f s = .ok r)
    : ∃ r, (do let i ← c.getShard id fileNum offset; c.onShard i f) = .ok r := by
  obtain ⟨i, hi, hlt⟩ := Cache.getShard_lt fileNum offset hid hlen
  obtain ⟨⟨s', a⟩, hs'⟩ := hf _ (List.getElem_mem hlt)
  exact ⟨({ c with shards := c.shards.set i s' }, a),
    by simp [hi, Cache.onShard, hlt, hs', bind, Except.bind, Except.map]⟩

/-- A shard operation run on every shard returns when it returns on each, whatever the
reference counts it is given. -/
theorem forEachShard_returns {f : Shard → Refs → Except Fault (Shard × Refs)} {ss : List Shard}
    (rc : Refs) (hf : ∀ s ∈ ss, ∀ r, ∃ x, f s r = .ok x)
    : ∃ x, forEachShard f ss rc = .ok x :=
  (forEachShard_ok_iff ss rc fun s hs r => iff_true_intro (hf s hs r)).mpr fun _ _ => trivial

/-- A shard operation that returns on every shard, relating each to its result by `P`,
returns on all of them and relates them shard by shard. -/
theorem forEachShard_returns_forall₂ {f : Shard → Refs → Except Fault (Shard × Refs)}
    {P : Shard → Shard → Prop} {ss : List Shard} (rc : Refs)
    (hf : ∀ s ∈ ss, ∀ r, ∃ s' r', f s r = .ok (s', r') ∧ P s s')
    : ∃ ss' rc', forEachShard f ss rc = .ok (ss', rc') ∧ List.Forall₂ P ss ss' := by
  obtain ⟨⟨ss', rc'⟩, h⟩ := forEachShard_returns rc fun s hs r =>
    let ⟨_, _, h, _⟩ := hf s hs r; ⟨_, h⟩
  refine ⟨ss', rc', h, forEachShard_forall₂ (fun s hs r s' r' h' => ?_) h⟩
  obtain ⟨s'', r'', h'', hP⟩ := hf s hs r
  obtain ⟨rfl, -⟩ := Prod.mk.inj (Except.ok.inj (h''.symm.trans h'))
  exact hP

theorem forall₂_comp {R S T : Shard → Shard → Prop} (h : ∀ a b c, R a b → S b c → T a c)
    : ∀ {l₁ l₂ l₃ : List Shard}, List.Forall₂ R l₁ l₂ → List.Forall₂ S l₂ l₃ → List.Forall₂ T l₁ l₃
  | _, _, _, .nil, .nil => .nil
  | _, _, _, .cons h₁ t₁, .cons h₂ t₂ => .cons (h _ _ _ h₁ h₂) (forall₂_comp h t₁ t₂)

/-- A fuel that covers every shard's eviction bound. -/
def Cache.evictFuel (c : Cache) : Nat :=
  (c.shards.map fun s => Shard.evictFuel s.blockLinks.length).sum

theorem Cache.evictFuel_le {c : Cache} {s : Shard} (hs : s ∈ c.shards)
    : Shard.evictFuel s.blockLinks.length ≤ c.evictFuel :=
  List.single_le_sum (fun _ _ => Nat.zero_le _) _ (List.mem_map_of_mem _ hs)

/-- `Shard.evictFuel` grows with the length of the ring. -/
theorem Shard.evictFuel_mono {L L' : Nat} (h : L ≤ L')
    : Shard.evictFuel L ≤ Shard.evictFuel L' := by
  unfold Shard.evictFuel
  gcongr

-----------------------------------------------------------------------------------------
-- Each call returns on the cache
-----------------------------------------------------------------------------------------

section Calls

variable {c : Cache} (hinv : ∀ s ∈ c.shards, s.Inv) (rc : Refs)
include hinv

theorem Cache.get_returns {id : UInt64} (fileNum offset : UInt64) (hid : id ≠ 0)
    (hlen : 0 < c.shards.length)
    : ∃ r, c.get rc id fileNum offset = .ok r := by
  unfold Cache.get
  refine Cache.route_returns fileNum offset hid hlen fun s hs => ?_
  obtain ⟨r, h⟩ := (hinv s hs).get_returns rc id fileNum offset
  exact ⟨r, by rw [h]; rfl⟩

theorem Cache.set_returns {fuel : Nat} {id : UInt64} (fileNum offset : UInt64) {value : Value}
    (hid : id ≠ 0) (hlen : 0 < c.shards.length) (hone : rc value.addr = 1)
    (hfuel : c.evictFuel ≤ fuel)
    : ∃ r, c.set fuel rc id fileNum offset value = .ok r := by
  unfold Cache.set
  refine Cache.route_returns fileNum offset hid hlen fun s hs => ?_
  obtain ⟨s', rc', h⟩ := (hinv s hs).set_returns hone id fileNum offset
    ((Cache.evictFuel_le hs).trans hfuel)
  exact ⟨_, by rw [h]; rfl⟩

theorem Cache.delete_returns {id : UInt64} (fileNum offset : UInt64) (hid : id ≠ 0)
    (hlen : 0 < c.shards.length)
    : ∃ r, c.delete rc id fileNum offset = .ok r :=
  Cache.route_returns fileNum offset hid hlen fun s hs =>
    (hinv s hs).delete_returns rc id fileNum offset

theorem Cache.evictFile_returns {fuel : Nat} {id : UInt64} (fileNum : UInt64) (hid : id ≠ 0)
    (hfuel : ∀ s ∈ c.shards, evictFileRuns (s.fileLinks ⟨id, fileNum, 0⟩).length ≤ fuel)
    : ∃ r, c.evictFile fuel rc id fileNum = .ok r := by
  simp only [Cache.evictFile, hid, if_false, map_ok_iff]
  exact forEachShard_returns rc fun s hs r =>
    (evictFileLoop_spec fuel r (hinv s hs).toTallied).1.mpr (hfuel s hs)

/-- Every shard reserving the same amount `N`: each returns, keeps the invariant, moves its
reserved size by `N` in `int64`, evicts down to its new target and only loses entries. -/
theorem Cache.reserveShards_spec {fuel : Nat} (hfuel : c.evictFuel ≤ fuel) (N : Int)
    : ∃ ss rc1, forEachShard (fun s rc => s.reserve fuel rc N) c.shards rc = .ok (ss, rc1) ∧
      List.Forall₂ (fun s s1 => s1.Inv ∧ s1.reservedSize = wrap64 (s.reservedSize + N) ∧
        s1.maxSize = s.maxSize ∧ s1.sizeHot + s1.sizeCold < s1.targetSize ∧
        s1.blockLinks.length ≤ s.blockLinks.length) c.shards ss :=
  forEachShard_returns_forall₂ rc fun s hs r =>
    let ⟨s1, r1, h⟩ := (hinv s hs).reserve_returns r N ((Cache.evictFuel_le hs).trans hfuel)
    let ⟨hi1, hr, hm, hlt, hsub, _⟩ := (hinv s hs).reserve_spec h
    ⟨s1, r1, h, hi1, hr, hm, hlt, hsub.length_le⟩

/-- `Reserve` on a cache with shards: every shard reserves the `int64` share of the amount. -/
theorem Cache.reserve_spec {fuel : Nat} (hfuel : c.evictFuel ≤ fuel) (hlen : 0 < c.shards.length)
    (n : Int)
    : ∃ c1 rc1, c.reserve fuel rc n =
        .ok (c1, rc1, (wrap64 (n + c.shards.length - 1)).tdiv c.shards.length) ∧
      List.Forall₂ (fun s s1 => s1.Inv ∧
        s1.reservedSize =
          wrap64 (s.reservedSize + (wrap64 (n + c.shards.length - 1)).tdiv c.shards.length) ∧
        s1.maxSize = s.maxSize ∧ s1.sizeHot + s1.sizeCold < s1.targetSize ∧
        s1.blockLinks.length ≤ s.blockLinks.length) c.shards c1.shards := by
  obtain ⟨ss, rc1, h, hall⟩ := Cache.reserveShards_spec hinv rc hfuel
    ((wrap64 (n + c.shards.length - 1)).tdiv c.shards.length)
  refine ⟨{ c with shards := ss }, rc1, ?_, hall⟩
  have hne : (c.shards.length : Int) ≠ 0 := by exact_mod_cast hlen.ne'
  simp only [Cache.reserve, hne, if_false, h]
  rfl

end Calls

-----------------------------------------------------------------------------------------
-- Progress
-----------------------------------------------------------------------------------------

/-- The calls a caller may make on a world: a nonzero ID wherever a call takes one, a value
at an address `Alloc` has not handed out for `Set`, and a handle it holds for `Release`. -/
def Call.Allowed (w : World) : Call → Prop
  | .get id _ _ => id ≠ 0
  | .set id _ _ value => id ≠ 0 ∧ w.next ≤ value.addr
  | .delete id _ _ => id ≠ 0
  | .evictFile id _ => id ≠ 0
  | .reserve _ => True
  | .release h => h ∈ w.handles

/-- Progress: on a world whose shards keep the invariant, every call its caller may make takes
a step. None of them panics, reads a freed entry or a nil hand, or runs out of fuel. -/
theorem World.step_of_allowed {w : World} (hinv : ∀ s ∈ w.cache.shards, s.Inv)
    (hlen : 0 < w.cache.shards.length) {call : Call} (hc : call.Allowed w)
    : ∃ w', World.Step w call w' := by
  cases call with
  | get id fileNum offset =>
    obtain ⟨⟨c, rc, hd⟩, h⟩ := Cache.get_returns hinv w.rc fileNum offset hc hlen
    exact ⟨_, .get h⟩
  | set id fileNum offset value =>
    obtain ⟨⟨c, rc, hd⟩, h⟩ := Cache.set_returns hinv _ fileNum offset hc.1 hlen
      (Function.update_same _ _ _) le_rfl
    exact ⟨_, .set hc.2 h⟩
  | delete id fileNum offset =>
    obtain ⟨⟨c, rc⟩, h⟩ := Cache.delete_returns hinv w.rc fileNum offset hc hlen
    exact ⟨_, .delete h⟩
  | evictFile id fileNum =>
    obtain ⟨⟨c, rc⟩, h⟩ := Cache.evictFile_returns hinv w.rc fileNum hc fun s hs =>
      List.single_le_sum (fun _ _ => Nat.zero_le _) _ (List.mem_map_of_mem
        (fun s => evictFileRuns (s.fileLinks ⟨id, fileNum, 0⟩).length) hs)
    exact ⟨_, .evictFile h⟩
  | reserve n =>
    obtain ⟨c, rc, h, -⟩ := Cache.reserve_spec hinv w.rc le_rfl hlen n
    exact ⟨_, .reserve h⟩
  | release h => exact ⟨_, .release hc⟩

/-- No call changes the number of shards. -/
theorem World.Step.length {w w' : World} {call : Call}
    : World.Step w call w' → w'.cache.shards.length = w.cache.shards.length
  | .get run => by obtain ⟨_, _, _, -, -, -, rfl⟩ := Cache.get_ok run; exact List.length_set ..
  | .set _ run => by obtain ⟨_, _, _, -, -, -, rfl⟩ := Cache.set_ok run; exact List.length_set ..
  | .delete run => by obtain ⟨_, _, _, -, -, -, rfl⟩ := Cache.delete_ok run; exact List.length_set ..
  | .evictFile run => by
    obtain ⟨ss, hall, rfl⟩ := Cache.evictFile_ok run
    exact (forEachShard_forall₂ (P := fun _ _ => True) (fun _ _ _ _ _ _ => trivial) hall).length_eq.symm
  | .reserve run => by
    obtain ⟨ss, hall, rfl⟩ := Cache.reserve_ok run
    exact (forEachShard_forall₂ (P := fun _ _ => True) (fun _ _ _ _ _ _ => trivial) hall).length_eq.symm
  | .release _ => rfl

/-- Along a run every shard keeps the invariant and the number of shards stays. -/
theorem World.Run.shards {w w' : World} {calls : List Call} (hr : World.Run w calls w')
    (hinv : ∀ s ∈ w.cache.shards, s.Inv)
    : (∀ s ∈ w'.cache.shards, s.Inv) ∧ w'.cache.shards.length = w.cache.shards.length := by
  induction hr with
  | nil => exact ⟨hinv, rfl⟩
  | snoc _ st ih => exact ⟨st.inv ih.1, st.length.trans ih.2⟩

/-- No reachable state of the cache is stuck: on every world a run of calls reaches from a
cache that `newShards` builds with a nonnegative `int64` size and at least one shard, every
call its caller may make takes a step. -/
theorem newShards_run_progress {size : Int} {shards : Nat} {cache : Cache} {calls : List Call}
    {w : World} (hsize : 0 ≤ size) (h64 : InInt64 size) (hshards : 0 < shards)
    (hnew : newShards size shards = .ok cache) (hrun : World.Run (World.init cache) calls w)
    {call : Call} (hc : call.Allowed w)
    : ∃ w', World.Step w call w' := by
  obtain ⟨hinv', hlen'⟩ := hrun.shards (Inv.newShards hsize h64 hnew)
  exact World.step_of_allowed hinv' (by rw [hlen']; exact (newShards_length hnew).symm ▸ hshards) hc

theorem newShards_run_progress_set
    : 0 ≤ (10 : Int) ∧ InInt64 10 ∧ 0 < 1 ∧ newShards 10 1 = .ok ⟨1, 10, 1, [Shard.empty 10]⟩ ∧
      Call.Allowed (World.init ⟨1, 10, 1, [Shard.empty 10]⟩) (.set 1 1 0 ⟨0, 6⟩) ∧
      ∃ w', World.Step (World.init ⟨1, 10, 1, [Shard.empty 10]⟩) (.set 1 1 0 ⟨0, 6⟩) w' :=
  ⟨by decide, by decide, Nat.one_pos, rfl, ⟨by decide, Nat.zero_le _⟩,
    @newShards_run_progress 10 1 ⟨1, 10, 1, [Shard.empty 10]⟩ [] _ (by decide) (by decide)
      Nat.one_pos rfl .nil _ ⟨by decide, Nat.zero_le _⟩⟩

-----------------------------------------------------------------------------------------
-- Reservations
-----------------------------------------------------------------------------------------

/-- The share of a reservation is `-1`, the value that marks a released reservation, exactly
for the amounts from `-3 len + 2` to `-2 len + 1`: Go's division rounds toward zero. -/
theorem share_eq_neg_one_iff (n : Int) {len : Int} (hlen : 0 < len)
    : (n + len - 1).tdiv len = -1 ↔ -3 * len + 2 ≤ n ∧ n ≤ -2 * len + 1 := by
  rcases le_or_lt 0 (n + len - 1) with hx | hx
  · have := Int.tdiv_nonneg hx hlen.le
    omega
  · rw [show n + len - 1 = -(-(n + len - 1)) by ring, Int.neg_tdiv,
      Int.tdiv_eq_ediv (by omega) hlen.le]
    have hlo := Int.ediv_mul_le (-(n + len - 1)) hlen.ne'
    have hhi := Int.lt_ediv_add_one_mul_self (-(n + len - 1)) hlen
    constructor
    · intro h
      have h1 : -(n + len - 1) / len = 1 := by omega
      rw [h1] at hlo hhi
      omega
    · intro h
      have := Int.le_ediv_of_mul_le hlen (show 1 * len ≤ -(n + len - 1) by omega)
      have := Int.ediv_lt_of_lt_mul hlen (show -(n + len - 1) < 2 * len by omega)
      omega

/-- The `int64` share of an `int64` amount is `-1` for the same amounts: where `n + len - 1`
wraps, the share is far below `-1`. -/
theorem wrap_share_eq_neg_one_iff {n len : Int} (hn : InInt64 n) (hlen : 0 < len)
    (hlen64 : len < 2305843009213693952)
    : (wrap64 (n + len - 1)).tdiv len = -1 ↔ -3 * len + 2 ≤ n ∧ n ≤ -2 * len + 1 := by
  unfold InInt64 at hn
  rcases lt_or_le (n + len - 1) 9223372036854775808 with hx | hx
  · rw [wrap64_of_mem ⟨by omega, hx⟩]; exact share_eq_neg_one_iff n hlen
  · have hw : wrap64 (n + len - 1) = (n - 18446744073709551616) + len - 1 := by
      unfold wrap64; omega
    rw [hw, share_eq_neg_one_iff _ hlen]; omega

/-- Within `len - 1` of `MaxInt64` the sum `n + len - 1` wraps, and the share is negative. -/
theorem wrap_share_neg {n len : Int} (hn : InInt64 n) (hlen : 0 < len)
    (hlen64 : len < 2305843009213693952) (hbig : 9223372036854775808 - len < n)
    : (wrap64 (n + len - 1)).tdiv len < 0 := by
  unfold InInt64 at hn
  have hw : wrap64 (n + len - 1) = -(18446744073709551617 - n - len) := by unfold wrap64; omega
  rw [hw, Int.neg_tdiv, Int.tdiv_eq_ediv (by omega) hlen.le]
  have := Int.le_ediv_of_mul_le hlen (show 1 * len ≤ 18446744073709551617 - n - len by omega)
  omega

theorem forall₂_mem_left {R : Shard → Shard → Prop} {P : Shard → Prop}
    : ∀ {l l' : List Shard}, (∀ s ∈ l, P s) → List.Forall₂ R l l' →
      List.Forall₂ (fun a b => P a ∧ R a b) l l'
  | _, _, _, .nil => .nil
  | _, _, hP, .cons h t =>
    .cons ⟨hP _ (List.mem_cons_self _ _), h⟩
      (forall₂_mem_left (fun s hs => hP s (List.mem_cons_of_mem _ hs)) t)

/-- The life of a reservation of `n` bytes on the cache `c`. `Reserve(n)` returns the share
`shardN` and moves every shard's reserved size by it in `int64`, each shard evicting down to
its new target. The release action panics at its first call exactly when
`-3 len + 2 ≤ n ≤ -2 len + 1`, the amounts whose share is the `-1` that marks a released
reservation; for every other amount it returns, gives every shard back the reserved size it
had before `Reserve`, and marks the reservation released. An amount within `len - 1` of
`MaxInt64` wraps to a negative share: reserving it grows every shard's budget. -/
def Cache.ReservationLifecycle (fuel : Nat) (c : Cache) (rc : Refs) (n : Int) : Prop :=
  ∃ c1 rc1 shardN, c.reserve fuel rc n = .ok (c1, rc1, shardN) ∧
    List.Forall₂ (fun s s1 => s1.reservedSize = wrap64 (s.reservedSize + shardN) ∧
      s1.sizeHot + s1.sizeCold < s1.targetSize) c.shards c1.shards ∧
    ((∃ msg, c1.releaseReservation fuel rc1 shardN = .error (.panic msg)) ↔
      -3 * (c.shards.length : Int) + 2 ≤ n ∧ n ≤ -2 * (c.shards.length : Int) + 1) ∧
    (9223372036854775808 - (c.shards.length : Int) < n → shardN < 0) ∧
    (shardN ≠ -1 → ∃ c2 rc2, c1.releaseReservation fuel rc1 shardN = .ok (c2, rc2, -1) ∧
      List.Forall₂ (fun s s2 => s2.reservedSize = s.reservedSize) c.shards c2.shards)

/-- On a cache whose shards keep the invariant (those of every reachable cache do) and hold
`int64` reserved sizes, every reservation of an `int64` amount goes through its life as
`Cache.ReservationLifecycle` describes, on any fuel that covers the eviction bound of every
shard, for any number of shards below `2^61`. -/
theorem Cache.reservation_lifecycle {fuel : Nat} {c : Cache} (rc : Refs) {n : Int}
    (hinv : ∀ s ∈ c.shards, s.Inv) (hrs : ∀ s ∈ c.shards, InInt64 s.reservedSize)
    (hn : InInt64 n) (hlen : 0 < c.shards.length)
    (hlen64 : c.shards.length < 2305843009213693952) (hfuel : c.evictFuel ≤ fuel)
    : c.ReservationLifecycle fuel rc n := by
  have hlenI : (0 : Int) < c.shards.length := by exact_mod_cast hlen
  have hlen64I : (c.shards.length : Int) < 2305843009213693952 := by exact_mod_cast hlen64
  have hiff := wrap_share_eq_neg_one_iff hn hlenI hlen64I
  have hneg := fun h => wrap_share_neg hn hlenI hlen64I h
  obtain ⟨c1, rc1, h1, hall⟩ := Cache.reserve_spec hinv rc hfuel hlen n
  generalize (wrap64 (n + c.shards.length - 1)).tdiv c.shards.length = N at hiff hneg h1 hall
  have hinv1 : ∀ s ∈ c1.shards, s.Inv ∧ Shard.evictFuel s.blockLinks.length ≤ fuel :=
    forall_mem_of_forall₂ (Q := fun s => Shard.evictFuel s.blockLinks.length ≤ fuel)
      (fun _ _ h hq => ⟨h.1, (Shard.evictFuel_mono h.2.2.2.2).trans hq⟩) hall
      fun s hs => (Cache.evictFuel_le hs).trans hfuel
  have hrel : N ≠ -1 → ∃ c2 rc2, c1.releaseReservation fuel rc1 N = .ok (c2, rc2, -1) ∧
      List.Forall₂ (fun s1 s2 => s2.reservedSize = wrap64 (s1.reservedSize + wrap64 (-N)))
        c1.shards c2.shards := by
    intro hne
    obtain ⟨ss, rc2, h2, hall2⟩ := forEachShard_returns_forall₂ rc1 fun s hs r =>
      let ⟨s2, r2, h⟩ := (hinv1 s hs).1.reserve_returns r (wrap64 (-N)) (hinv1 s hs).2
      ⟨s2, r2, h, ((hinv1 s hs).1.reserve_spec h).2.1⟩
    exact ⟨{ c1 with shards := ss }, rc2,
      by simp only [Cache.releaseReservation, if_neg hne, h2]; rfl, hall2⟩
  refine ⟨c1, rc1, N, h1, hall.imp fun _ _ h => ⟨h.2.1, h.2.2.2.1⟩, ?_, hneg, fun hne => ?_⟩
  · rw [← hiff]
    by_cases hne : N = -1
    · simp only [Cache.releaseReservation, hne, if_true]
      exact iff_of_true ⟨_, rfl⟩ trivial
    · obtain ⟨c2, rc2, h2, -⟩ := hrel hne
      simp [h2, hne]
  · obtain ⟨c2, rc2, h2, hall2⟩ := hrel hne
    exact ⟨c2, rc2, h2, forall₂_comp (fun _ _ _ h h' => by rw [h', h.2.2.1]; exact wrap64_add_neg h.1)
      (forall₂_mem_left hrs hall) hall2⟩

/-- Reserving `MaxInt64` bytes on a cache of two shards of 5 bytes: the sum wraps, the share
is negative, and each shard's budget grows. -/
theorem Cache.reservation_lifecycle_maxInt
    : (∀ s ∈ [Shard.empty 5, Shard.empty 5], s.Inv) ∧
      (∀ s ∈ [Shard.empty 5, Shard.empty 5], InInt64 s.reservedSize) ∧
      InInt64 9223372036854775807 ∧ 0 < [Shard.empty 5, Shard.empty 5].length ∧
      [Shard.empty 5, Shard.empty 5].length < 2305843009213693952 ∧
      Cache.ReservationLifecycle (Cache.evictFuel ⟨1, 10, 1, [Shard.empty 5, Shard.empty 5]⟩)
        ⟨1, 10, 1, [Shard.empty 5, Shard.empty 5]⟩ (fun _ => 0) 9223372036854775807 :=
  have hs : ∀ s ∈ [Shard.empty 5, Shard.empty 5], s.Inv := fun s hs => by
    simp only [List.mem_cons, List.not_mem_nil, or_false, or_self] at hs
    exact hs ▸ Shard.Inv.empty (by decide) (by decide)
  have hr : ∀ s ∈ [Shard.empty 5, Shard.empty 5], InInt64 s.reservedSize := fun s hs => by
    simp only [List.mem_cons, List.not_mem_nil, or_false, or_self] at hs
    exact hs ▸ by decide
  ⟨hs, hr, by decide, by decide, by decide,
    Cache.reservation_lifecycle _ hs hr (by decide) (by decide) (by decide) le_rfl⟩

end Vecble.ClockPro
