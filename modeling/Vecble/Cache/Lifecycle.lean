import Vecble.Cache.Refcount

/-! The cache's own reference count (`Cache.Ref`, `Cache.Unref`): calls run exactly when each
finds the count positive, and the last `Unref` frees every shard once (`runRefCalls_lifecycle`).
-/

namespace Vecble.ClockPro

/-- A call on the cache's own reference count. -/
inductive RefCall where
  | ref
  | unref
deriving DecidableEq, Repr

/-- `Ref` and `Unref` called one after the other; each `Unref` frees with `fuel`. -/
def Cache.runRefCalls (fuel : Nat) : Cache → Refs → List RefCall → Except Fault (Cache × Refs)
  | c, rc, [] => .ok (c, rc)
  | c, rc, .ref :: ks => do
    let c ← c.ref
    c.runRefCalls fuel rc ks
  | c, rc, .unref :: ks => do
    let (c, rc) ← c.unref fuel rc
    c.runRefCalls fuel rc ks

/-- The reference count after calls, from `b`. -/
def refCount (b : Int) : List RefCall → Int
  | [] => b
  | .ref :: ks => refCount (b + 1) ks
  | .unref :: ks => refCount (b - 1) ks

theorem refCount_cons (b : Int) (k : RefCall) (ks : List RefCall)
    : refCount b (k :: ks) = refCount (refCount b [k]) ks := by
  cases k <;> rfl

/-- With a positive count, every call of `k :: ks` finds the count positive exactly when every
call of `ks` does, counted from after `k`. -/
theorem positive_cons {b : Int} (k : RefCall) (ks : List RefCall) (hb : 1 ≤ b)
    : (∀ i < ks.length, 1 ≤ refCount (refCount b [k]) (ks.take i)) ↔
      ∀ i < (k :: ks).length, 1 ≤ refCount b ((k :: ks).take i) := by
  constructor
  · intro H i hi
    cases i with
    | zero => exact hb
    | succ j => rw [List.take_succ_cons, refCount_cons]; exact H j (by simpa using hi)
  · intro H i hi
    have h := H (i + 1) (by simp only [List.length_cons]; omega)
    rwa [List.take_succ_cons, refCount_cons] at h

theorem Cache.ref_ok {c : Cache} (h : 1 ≤ c.refs) : c.ref = .ok { c with refs := c.refs + 1 } := by
  simp only [Cache.ref]; rw [if_neg (by omega)]

theorem Cache.unref_of_two {fuel : Nat} {c : Cache} (rc : Refs) (h : 2 ≤ c.refs)
    : c.unref fuel rc = .ok ({ c with refs := c.refs - 1 }, rc) := by
  simp only [Cache.unref]; rw [if_neg (by omega), if_neg (by omega)]

/-- The `Unref` of the last reference frees every shard, with one turn per ring entry and
one more, releasing each reference the rings hold. -/
theorem Cache.unref_last {fuel : Nat} {c : Cache} (rc : Refs) (hi : ∀ s ∈ c.shards, s.Inv)
    (hf : ∀ s ∈ c.shards, s.blockLinks.length < fuel) (h : c.refs = 1)
    : ∃ ss rc', c.unref fuel rc = .ok ({ c with refs := 0, shards := ss }, rc') ∧
      ∀ a, rc' a = rc a - c.held a := by
  obtain ⟨⟨ss, rc'⟩, hall⟩ := (@forEachShard_ok_iff (fun s rc => s.free fuel rc)
    (fun s => s.blockLinks.length < fuel) c.shards rc
    fun s hs r => ((hi s hs).toShape.free_spec fuel r).1).mpr hf
  refine ⟨ss, rc', ?_,
    forEachShard_releases (fun s hs r s' r' h => ((hi s hs).toShape.free_spec _ r).2 s' r' h) hall⟩
  simp only [Cache.unref, h, sub_self, lt_irrefl, if_false, if_true]
  rw [hall]; rfl

/-- Once the count is zero, the next call panics. -/
theorem Cache.runRefCalls_dead {fuel : Nat} {c : Cache} {rc : Refs} (h : c.refs = 0)
    (k : RefCall) (ks : List RefCall)
    : ∃ e, c.runRefCalls fuel rc (k :: ks) = .error e := by
  cases k <;> simp [Cache.runRefCalls, Cache.ref, Cache.unref, h, bind, Except.bind]

/-- The cache's reference-count lifecycle. From a cache whose shards have the invariant and
whose count is positive, with fuel for freeing every ring, a sequence of `Ref` and `Unref`
calls runs without panicking exactly when every call finds the count positive. Then the
count ends at the number of references taken and not dropped; when that is zero, the last
`Unref` has freed every shard and released each reference the rings held, exactly once;
otherwise nothing but the count has changed. By induction on the calls. -/
theorem runRefCalls_lifecycle {fuel : Nat}
    : ∀ (ks : List RefCall) {c : Cache} {rc : Refs},
      (∀ s ∈ c.shards, s.Inv) → (∀ s ∈ c.shards, s.blockLinks.length < fuel) → 1 ≤ c.refs →
      ((∃ r, c.runRefCalls fuel rc ks = .ok r) ↔ ∀ i < ks.length, 1 ≤ refCount c.refs (ks.take i)) ∧
      ∀ c' rc', c.runRefCalls fuel rc ks = .ok (c', rc') → c'.refs = refCount c.refs ks ∧
        (refCount c.refs ks = 0 → ∀ a, rc' a = rc a - c.held a) ∧
        (0 < refCount c.refs ks → c' = { c with refs := refCount c.refs ks } ∧ rc' = rc)
  | [], c, rc, _, _, h1 =>
    ⟨⟨fun _ _ hi => absurd hi (Nat.not_lt_zero _), fun _ => ⟨_, rfl⟩⟩, fun c' rc' h => by
      cases h
      exact ⟨rfl, fun h0 => absurd h0 (by simp only [refCount]; omega), fun _ => ⟨rfl, rfl⟩⟩⟩
  | .ref :: ks, c, rc, hi, hf, h1 => by
    have ih := @runRefCalls_lifecycle fuel ks { c with refs := c.refs + 1 } rc hi hf
      (by dsimp only; omega)
    have hrun : c.runRefCalls fuel rc (.ref :: ks) =
        ({ c with refs := c.refs + 1 } : Cache).runRefCalls fuel rc ks := by
      simp only [Cache.runRefCalls, Cache.ref_ok h1, bind, Except.bind]
    rw [hrun]
    exact ⟨ih.1.trans (positive_cons .ref ks h1), ih.2⟩
  | .unref :: ks, c, rc, hi, hf, h1 => by
    rcases (by omega : c.refs = 1 ∨ 2 ≤ c.refs) with h1 | h2
    · obtain ⟨ss, rc1, hu, hrel⟩ := Cache.unref_last rc hi hf h1
      have hrun : c.runRefCalls fuel rc (.unref :: ks) =
          ({ c with refs := 0, shards := ss } : Cache).runRefCalls fuel rc1 ks := by
        simp only [Cache.runRefCalls, hu, bind, Except.bind]
      rw [hrun]
      cases ks with
      | nil =>
        refine ⟨⟨fun _ i hi => ?_, fun _ => ⟨_, rfl⟩⟩, fun c' rc' h => ?_⟩
        · obtain rfl : i = 0 := by simpa using hi
          simp [refCount, h1]
        cases h
        exact ⟨by simp [refCount, h1], fun _ => hrel, fun hp => absurd hp (by simp [refCount, h1])⟩
      | cons k ks =>
        obtain ⟨e, he⟩ := @Cache.runRefCalls_dead fuel { c with refs := 0, shards := ss } rc1 rfl k ks
        refine ⟨⟨fun ⟨r, hr⟩ => (by rw [he] at hr; cases hr), fun H => ?_⟩,
          fun c' rc' h => (by rw [he] at h; cases h)⟩
        have := H 1 (by simp)
        simp [refCount, h1] at this
    · have ih := @runRefCalls_lifecycle fuel ks { c with refs := c.refs - 1 } rc hi hf
        (by dsimp only; omega)
      have hrun : c.runRefCalls fuel rc (.unref :: ks) =
          ({ c with refs := c.refs - 1 } : Cache).runRefCalls fuel rc ks := by
        simp only [Cache.runRefCalls, Cache.unref_of_two rc h2, bind, Except.bind]
      rw [hrun]
      exact ⟨ih.1.trans (positive_cons .unref ks h1), ih.2⟩

theorem runRefCalls_lifecycle_single
    : (∀ s ∈ [Shard.empty 10], s.Inv) ∧ (∀ s ∈ [Shard.empty 10], s.blockLinks.length < 1) ∧
      1 ≤ (1 : Int) ∧
      ((∃ r, (⟨1, 10, 0, [Shard.empty 10]⟩ : Cache).runRefCalls 1 (fun _ => 1)
          [.ref, .unref, .unref] = .ok r) ↔
        ∀ i < [RefCall.ref, .unref, .unref].length, 1 ≤ refCount 1 ([.ref, .unref, .unref].take i)) ∧
      ∀ c' rc', (⟨1, 10, 0, [Shard.empty 10]⟩ : Cache).runRefCalls 1 (fun _ => 1)
          [.ref, .unref, .unref] = .ok (c', rc') →
        c'.refs = refCount 1 [.ref, .unref, .unref] ∧
        (refCount 1 [.ref, .unref, .unref] = 0 →
          ∀ a, rc' a = 1 - (⟨1, 10, 0, [Shard.empty 10]⟩ : Cache).held a) ∧
        (0 < refCount 1 [.ref, .unref, .unref] →
          c' = { (⟨1, 10, 0, [Shard.empty 10]⟩ : Cache) with refs := refCount 1 [.ref, .unref, .unref] } ∧
            rc' = fun _ => 1) :=
  have hi : ∀ s ∈ [Shard.empty 10], s.Inv := fun s hs => by
    rw [List.mem_singleton.mp hs]; exact Shard.Inv.empty (by decide) (by decide)
  have hf : ∀ s ∈ [Shard.empty 10], s.blockLinks.length < 1 := fun s hs => by
    rw [List.mem_singleton.mp hs]; decide
  ⟨hi, hf, le_rfl, @runRefCalls_lifecycle 1 [.ref, .unref, .unref] ⟨1, 10, 0, [Shard.empty 10]⟩
    (fun _ => 1) hi hf le_rfl⟩

end Vecble.ClockPro
