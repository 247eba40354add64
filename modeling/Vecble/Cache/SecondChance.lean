import Vecble.Cache.Operations

/-! The hot hand's second chance (`runHandHot`): a hot referenced page loses its bit on a
first visit and is demoted only by a later one, and a page still hot and referenced after a
run of the hands was never visited.
-/

namespace Vecble.ClockPro

open EntryType

namespace Shard

/-- The type and referenced bit of the entry at `p`. -/
def page (c : Shard) (p : Nat) : Option (EntryType × Bool) :=
  (c.arena p).map fun e => (e.ptype, e.referenced)

/-- What `runHandHot` does to a hot page: clear its bit, or turn it cold if the bit is
already clear. -/
def hotTurn (e : Entry) : Entry :=
  if e.referenced then { e with referenced := false } else { e with ptype := etCold }

/-- A step of the hot hand while it points at `p`. -/
def HotVisit (p : Nat) (a b : Shard × Refs) : Prop :=
  a.1.handHot = some p ∧ a.1.hotStep = .ok b.1 ∧ b.2 = a.2

@[simp] theorem promote_arena {c : Shard} {p : Nat} {e : Entry}
    : (c.promote p e).arena = Function.update c.arena p (some { e with referenced := false, ptype := etHot }) :=
  rfl

@[simp] theorem demote_arena {c : Shard} {p : Nat} {e : Entry}
    : (c.demote p e).arena = Function.update c.arena p (some { e with val := none, ptype := etTest }) :=
  rfl

theorem page_eq_some {c : Shard} {p : Nat} {t : EntryType} {r : Bool}
    : c.page p = some (t, r) ↔ ∃ e, c.arena p = some e ∧ e.ptype = t ∧ e.referenced = r := by
  simp [page]

-----------------------------------------------------------------------------------------
-- One hand step
-----------------------------------------------------------------------------------------

/-- What one hand step does to the entry at `q`: nothing, or the cold hand promotes or
demotes it, or the hot hand visits it, or the test hand frees it. -/
theorem Sweep.arena_cases {a b : Shard × Refs} (h : Sweep a b) (q : Nat)
    : b.1.arena q = a.1.arena q ∨ ∃ e, a.1.arena q = some e ∧
      (e.ptype = etCold ∧ (b.1.arena q = some { e with referenced := false, ptype := etHot } ∨
          b.1.arena q = some { e with val := none, ptype := etTest }) ∨
        e.ptype = etHot ∧ HotVisit q a b ∧ b.1.arena q = some (hotTurn e) ∨
        e.ptype = etTest ∧ b.1.arena q = none) := by
  cases h with
  | @promote c rc p e _ found cold _ =>
      by_cases hq : q = p
      · subst hq; exact .inr ⟨e, found, .inl ⟨cold, .inl (by simp)⟩⟩
      · exact .inl (by simp [Function.update_noteq hq])
  | @demote c rc p e _ found cold _ =>
      by_cases hq : q = p
      · subst hq; exact .inr ⟨e, found, .inl ⟨cold, .inr (by simp)⟩⟩
      · exact .inl (by simp [Function.update_noteq hq])
  | advanceCold => exact .inl rfl
  | @hot c c' rc step =>
      obtain ⟨p, e, hand, found, d, rfl, rfl⟩ := hotStep_ok step
      by_cases hq : q = p
      · subst hq
        by_cases hot : e.ptype = etHot
        · refine .inr ⟨e, found, .inr (.inl ⟨hot, ⟨hand, step, rfl⟩, ?_⟩)⟩
          cases hr : e.referenced <;> simp [hotTurn, setEntry, hot, hr]
        · exact .inl (by simp [hot])
      · refine .inl ?_
        split
        · split <;> simp [setEntry, Function.update_noteq hq]
        · rfl
  | @test c rc r step =>
      obtain ⟨p, e, _, found, ⟨test, d, rfl, rfl⟩ | ⟨-, rfl⟩⟩ := testStep_ok step
      · by_cases hq : q = p
        · subst hq; exact .inr ⟨e, found, .inr (.inr ⟨test, by simp [freeEntry_fst]⟩)⟩
        · exact .inl (by simp [freeEntry_fst, Shard.detach, Function.update_noteq hq])
      · exact .inl rfl

/-- A hot page is left alone by every hand step but a visit of the hot hand. -/
theorem Sweep.hot_page {a b : Shard × Refs} {q : Nat} {e : Entry} (h : Sweep a b)
    (he : a.1.arena q = some e) (hot : e.ptype = etHot)
    : b.1.arena q = some e ∨ HotVisit q a b ∧ b.1.arena q = some (hotTurn e) := by
  rcases h.arena_cases q with hq | ⟨e', he', ⟨cold, -⟩ | ⟨-, hv, hq⟩ | ⟨test, -⟩⟩
  · exact .inl (hq.trans he)
  · cases he.symm.trans he'; simp_all
  · cases he.symm.trans he'; exact .inr ⟨hv, hq⟩
  · cases he.symm.trans he'; simp_all

/-- No hand step makes a page hot and referenced: promotion clears the bit. -/
theorem Sweep.page_ne {a b : Shard × Refs} {q : Nat} (h : Sweep a b)
    (ha : a.1.page q ≠ some (etHot, true))
    : b.1.page q ≠ some (etHot, true) := by
  rcases h.arena_cases q with hq | ⟨e, -, ⟨-, hq | hq⟩ | ⟨-, -, hq⟩ | ⟨-, hq⟩⟩
  · rwa [page, hq]
  all_goals simp only [page, hq, hotTurn]
  all_goals try split
  all_goals simp

/-- A visit of the hot hand leaves no page hot and referenced under it. -/
theorem HotVisit.page_ne {a b : Shard × Refs} {q : Nat} (h : HotVisit q a b)
    : b.1.page q ≠ some (etHot, true) := by
  obtain ⟨hand, step, -⟩ := h
  obtain ⟨p, e, hand', found, d, rfl, hb⟩ := hotStep_ok step
  obtain rfl : q = p := Option.some.inj (hand.symm.trans hand')
  rw [hb]
  split
  · split <;> simp [page, setEntry]
  · simp_all [page]

-----------------------------------------------------------------------------------------
-- Runs of the hands
-----------------------------------------------------------------------------------------

/-- Once the hot hand has visited a page, the page is not hot and referenced again within
the run, by induction on the rest of the run. -/
theorem Sweeps.page_ne_of_visit {u u' b : Shard × Refs} {q : Nat} (hv : HotVisit q u u')
    (h : Sweeps u' b)
    : b.1.page q ≠ some (etHot, true) := by
  induction h with
  | refl => exact hv.page_ne
  | tail _ step ih => exact step.page_ne ih

/-- A hot page with its bit clear that is cold at the end of a run was demoted by a visit
of the hot hand, by induction on the run from its first step. -/
theorem Sweeps.demoted {a b : Shard × Refs} {q : Nat} (h : Sweeps a b)
    (ha : a.1.page q = some (etHot, false)) (hb : (b.1.page q).map Prod.fst = some etCold)
    : ∃ u u', Sweeps a u ∧ u.1.page q = some (etHot, false) ∧ HotVisit q u u' ∧ Sweeps u' b := by
  induction h using Relation.ReflTransGen.head_induction_on with
  | refl => simp [ha] at hb
  | head step rest ih =>
    obtain ⟨e, he, hot, hr⟩ := page_eq_some.mp ha
    rcases step.hot_page he hot with hs | ⟨hv, -⟩
    · obtain ⟨u, u', h1, h2, h3, h4⟩ := ih (page_eq_some.mpr ⟨e, hs, hot, hr⟩)
      exact ⟨u, u', .head step h1, h2, h3, h4⟩
    · exact ⟨_, _, .refl, ha, hv, rest⟩

/-- A hot page with its bit set that is cold at the end of a run had the bit cleared by a
visit of the hot hand, by induction on the run from its first step. -/
theorem Sweeps.cleared {a b : Shard × Refs} {q : Nat} (h : Sweeps a b)
    (ha : a.1.page q = some (etHot, true)) (hb : (b.1.page q).map Prod.fst = some etCold)
    : ∃ u u', Sweeps a u ∧ HotVisit q u u' ∧ u'.1.page q = some (etHot, false) ∧ Sweeps u' b := by
  induction h using Relation.ReflTransGen.head_induction_on with
  | refl => simp [ha] at hb
  | head step rest ih =>
    obtain ⟨e, he, hot, hr⟩ := page_eq_some.mp ha
    rcases step.hot_page he hot with hs | ⟨hv, hs⟩
    · obtain ⟨u, u', h1, h2, h3, h4⟩ := ih (page_eq_some.mpr ⟨e, hs, hot, hr⟩)
      exact ⟨u, u', .head step h1, h2, h3, h4⟩
    · exact ⟨_, _, .refl, hv, by simp [page, hs, hotTurn, hot, hr], rest⟩

/-- Second chance on every run of `evict`, from any shard: a hot page with its referenced
bit set that is still hot and referenced afterwards was never under the hot hand, and one
that is cold afterwards was under it twice, a first visit clearing the bit and a later one
demoting the page. -/
theorem evict_second_chance {c c' : Shard} {rc rc' : Refs} {n q : Nat}
    (h : c.evict n rc = .ok (c', rc')) (hq : c.page q = some (etHot, true))
    : (c'.page q = some (etHot, true) →
        ∀ u u', Sweeps (c, rc) u → HotVisit q u u' → Sweeps u' (c', rc') → False) ∧
      ((c'.page q).map Prod.fst = some etCold →
        ∃ u₁ u₁' u₂ u₂', Sweeps (c, rc) u₁ ∧ HotVisit q u₁ u₁' ∧ Sweeps u₁' u₂ ∧
          u₂.1.page q = some (etHot, false) ∧ HotVisit q u₂ u₂' ∧ Sweeps u₂' (c', rc')) := by
  have hs := (sweeps_of_runs n).1 c rc _ h
  refine ⟨fun hb _ _ _ hv h2 => h2.page_ne_of_visit hv hb, fun hb => ?_⟩
  obtain ⟨u₁, u₁', h1, hv1, hp, h2⟩ := hs.cleared hq hb
  obtain ⟨u₂, u₂', h3, hp2, hv2, h4⟩ := h2.demoted hp hb
  exact ⟨u₁, u₁', u₂, u₂', h1, hv1, h3, hp2, hv2, h4⟩

set_option smartUnfolding false in
/-- The eviction of `reserve_demotes_before_lap` below, on the shard with the new budget and
`coldTarget` clamped to it: page 3, hot and referenced, is cleared and then demoted by the hot
hand. -/
theorem evict_second_chance_demoted
    : ∃ c c' rc', runCalls (Shard.empty 14)
        [.set 1 (fun _ => 1) 1 1 1 ⟨0, 7⟩, .set 1 (fun _ => 1) 1 1 3 ⟨0, 4⟩,
          .set 1 (fun _ => 1) 1 1 4 ⟨0, 6⟩, .set 6 (fun _ => 1) 1 1 2 ⟨0, 4⟩,
          .set 4 (fun _ => 1) 1 1 2 ⟨0, 3⟩, .set 1 (fun _ => 1) 1 1 4 ⟨0, 6⟩,
          .get (fun _ => 1) 1 1 4, .get (fun _ => 1) 1 1 2] = some c ∧
      ({ c with reservedSize := 2, coldTarget := 12 } : Shard).evict 6 (fun _ => 1) =
        .ok (c', rc') ∧
      ({ c with reservedSize := 2, coldTarget := 12 } : Shard).page 3 = some (etHot, true) ∧
      c'.page 3 = some (etCold, false) ∧
      (c'.page 3 = some (etHot, true) →
        ∀ u u', Sweeps ({ c with reservedSize := 2, coldTarget := 12 }, fun _ => 1) u →
          HotVisit 3 u u' → Sweeps u' (c', rc') → False) ∧
      ((c'.page 3).map Prod.fst = some etCold →
        ∃ u₁ u₁' u₂ u₂', Sweeps ({ c with reservedSize := 2, coldTarget := 12 }, fun _ => 1) u₁ ∧
          HotVisit 3 u₁ u₁' ∧ Sweeps u₁' u₂ ∧ u₂.1.page 3 = some (etHot, false) ∧
          HotVisit 3 u₂ u₂' ∧ Sweeps u₂' (c', rc')) :=
  let ⟨c, c', rc', hc, h, hq, hq'⟩ : ∃ c c' rc', runCalls (Shard.empty 14)
      [.set 1 (fun _ => 1) 1 1 1 ⟨0, 7⟩, .set 1 (fun _ => 1) 1 1 3 ⟨0, 4⟩,
        .set 1 (fun _ => 1) 1 1 4 ⟨0, 6⟩, .set 6 (fun _ => 1) 1 1 2 ⟨0, 4⟩,
        .set 4 (fun _ => 1) 1 1 2 ⟨0, 3⟩, .set 1 (fun _ => 1) 1 1 4 ⟨0, 6⟩,
        .get (fun _ => 1) 1 1 4, .get (fun _ => 1) 1 1 2] = some c ∧
      ({ c with reservedSize := 2, coldTarget := 12 } : Shard).evict 6 (fun _ => 1) =
        .ok (c', rc') ∧
      ({ c with reservedSize := 2, coldTarget := 12 } : Shard).page 3 = some (etHot, true) ∧
      c'.page 3 = some (etCold, false) := ⟨_, _, _, rfl, rfl, by decide, by decide⟩
  ⟨c, c', rc', hc, h, hq, hq', evict_second_chance h hq⟩

set_option smartUnfolding false in
/-- The hot hand can demote a page it has just cleared before passing the others. On an
empty shard of `maxSize` 14, Set keys 1, 3 and 4 (7, 4 and 6 bytes), Set key 2 (4 bytes,
which evicts and leaves key 4 a ghost), Set key 2 again (3 bytes), Set key 4 again (6 bytes,
a ghost hit that makes it hot), then Get keys 4 and 2: the ring holds the hot, referenced
pages 2 (key 4) and 3 (key 2) and the cold page 0 (key 1), with the hot and test hands on
page 3. `Reserve(2)` then demotes page 0 to a ghost; the hot hand clears page 3 and moves to
the ghost, which `runHandTest` frees, so that `metaDel` moves the hot hand back to page 3,
and the next `runHandHot` demotes it. Page 2 is still hot and referenced, so the hot hand
never reached it. -/
theorem reserve_demotes_before_lap
    : ∃ c, Reachable (Shard.empty 14) c ∧ c.page 3 = some (etHot, true) ∧
      c.page 2 = some (etHot, true) ∧
      ∃ c' rc', c.reserve 6 (fun _ => 1) 2 = .ok (c', rc') ∧ c'.page 3 = some (etCold, false) ∧
        c'.page 2 = some (etHot, true) ∧ 2 ∈ c'.blockLinks :=
  ⟨_, .tail (.tail (.tail (.tail (.tail (.tail (.tail (.single
      (@Step.set _ _ 1 (fun _ => 1) _ 1 1 1 ⟨0, 7⟩ _ rfl))
      (@Step.set _ _ 1 (fun _ => 1) _ 1 1 3 ⟨0, 4⟩ _ rfl))
      (@Step.set _ _ 1 (fun _ => 1) _ 1 1 4 ⟨0, 6⟩ _ rfl))
      (@Step.set _ _ 6 (fun _ => 1) _ 1 1 2 ⟨0, 4⟩ _ rfl))
      (@Step.set _ _ 4 (fun _ => 1) _ 1 1 2 ⟨0, 3⟩ _ rfl))
      (@Step.set _ _ 1 (fun _ => 1) _ 1 1 4 ⟨0, 6⟩ _ rfl))
      (@Step.get _ _ (fun _ => 1) _ 1 1 4 _ rfl))
      (@Step.get _ _ (fun _ => 1) _ 1 1 2 _ rfl),
    rfl, rfl, _, _, rfl, rfl, rfl, by decide⟩

end Shard

end Vecble.ClockPro
