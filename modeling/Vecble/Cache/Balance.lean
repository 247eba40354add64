import Vecble.Cache.Termination

/-! What `evict` leaves besides the resident budget: the hot pages within `targetSize -
coldTarget` once the cold hand has run (`evict_exit_hot`), and the ghosts within the target
over every run of the hands and every run of calls that never lowers the target.
-/

namespace Vecble.ClockPro

open EntryType

namespace Shard

-----------------------------------------------------------------------------------------
-- The hot loop's exit
-----------------------------------------------------------------------------------------

/-- The guard of `runHandCold`'s hot loop: hot bytes reach `targetSize - coldTarget` and
there is a hot hand. -/
def HotOver (c : Shard) : Prop := c.targetSize - c.coldTarget ≤ c.sizeHot ∧ c.handHot.isSome

instance : DecidablePred HotOver := fun c =>
  inferInstanceAs (Decidable (c.targetSize - c.coldTarget ≤ c.sizeHot ∧ c.handHot.isSome))

theorem hotLoop_exit
    : ∀ {n : Nat} {c : Shard} {rc : Refs} {r : Shard × Refs},
      runHandColdHotLoop n c rc = .ok r → ¬ r.1.HotOver
  | 0, _, _, _, h => by simp [runHandColdHotLoop] at h
  | n + 1, c, rc, r, h => by
    rw [runHandColdHotLoop] at h
    split at h
    · obtain ⟨⟨c1, rc1⟩, -, h2⟩ := bind_eq_ok.mp h
      exact hotLoop_exit h2
    · next hg => cases h; exact hg

/-- `runHandCold` returns from its hot loop. -/
theorem runHandCold_exit {n : Nat} {c : Shard} {rc : Refs} {cc sc : Int} {r : Shard × Refs}
    (h : runHandCold n c rc cc sc = .ok r)
    : ¬ r.1.HotOver := by
  cases n with
  | zero => simp [runHandCold] at h
  | succ n =>
    rw [runHandCold] at h
    split at h
    · cases h
    obtain ⟨⟨p, e⟩, -, h⟩ := bind_eq_ok.mp h
    dsimp only at h
    split at h
    · split at h <;> obtain ⟨⟨c1, rc1⟩, -, h2⟩ := bind_eq_ok.mp h <;> exact hotLoop_exit h2
    · obtain ⟨⟨c1, rc1⟩, -, h2⟩ := bind_eq_ok.mp h
      exact hotLoop_exit h2

/-- `evict` either returns the shard it was given or returns from a run of the cold hand,
by induction on its loop. -/
theorem evict_exit_hot
    : ∀ {n : Nat} {c : Shard} {rc : Refs} {r : Shard × Refs},
      evict n c rc = .ok r → r = (c, rc) ∨ ¬ r.1.HotOver
  | 0, _, _, _, h => by simp [evict] at h
  | n + 1, c, rc, r, h => by
    rw [evict] at h
    split at h
    · obtain ⟨⟨c1, rc1⟩, h1, h2⟩ := bind_eq_ok.mp h
      rcases evict_exit_hot h2 with rfl | h
      · exact .inr (runHandCold_exit h1)
      · exact .inr h
    · cases h; exact .inl rfl

-----------------------------------------------------------------------------------------
-- The ghosts' budget
-----------------------------------------------------------------------------------------

/-- The ghosts' bytes are within the target size. -/
def GhostsFit (c : Shard) : Prop := c.sizeTest ≤ c.targetSize

instance : DecidablePred GhostsFit := fun c => inferInstanceAs (Decidable (c.sizeTest ≤ c.targetSize))

/-- A shard without a test hand has an empty ring, hence no ghost bytes. -/
theorem Tallied.ghostsFit_of_handTest {c : Shard} (hi : c.Tallied) (h : c.handTest = none)
    : c.GhostsFit := by
  have hr : c.blockLinks = [] := by simpa [h] using hi.handTest
  have := c.targetSize_pos
  have h0 : c.sizeTest = 0 := by rw [hi.sizeTest]; simp [tally, hr]
  unfold GhostsFit; omega

/-- The test hand's step only removes ghost bytes and keeps the target. -/
theorem testStep_ghosts {c : Shard} {rc : Refs} {r : Shard × Refs} (hi : c.Tallied)
    (h : c.testStep rc = .ok r)
    : r.1.sizeTest ≤ c.sizeTest ∧ r.1.targetSize = c.targetSize := by
  obtain ⟨p, e, hand, he, ⟨-, d, rfl, rfl⟩ | ⟨-, rfl⟩⟩ := testStep_ok h
  · have := hi.sizes p (hi.mem_of_handTest hand) e he
    simp only [freeEntry_fst]
    exact ⟨by dsimp only [Shard.detach]; omega, rfl⟩
  · exact ⟨le_rfl, rfl⟩

/-- The hot hand's step leaves the ghosts and the target alone. -/
theorem hotStep_ghosts {c c' : Shard} (h : c.hotStep = .ok c')
    : c'.sizeTest = c.sizeTest ∧ c'.targetSize = c.targetSize := by
  obtain ⟨p, e, -, -, d, rfl, rfl⟩ := hotStep_ok h
  split <;> (try split) <;> exact ⟨rfl, rfl⟩

/-- Every run of the hands from a shard with the invariant keeps the ghosts within the
target size, and the test loop of `runHandCold` brings them back within it whatever they
were; by induction on the fuel shared by the six functions. -/
theorem ghostsFit_of_runs (n : Nat)
    : (∀ c rc r, c.Tallied → evict n c rc = .ok r → c.GhostsFit → r.1.GhostsFit) ∧
      (∀ c rc cc sc r, c.Tallied → runHandCold n c rc cc sc = .ok r → c.GhostsFit →
        r.1.GhostsFit) ∧
      (∀ c rc r, c.Tallied → runHandColdTestLoop n c rc = .ok r → r.1.GhostsFit) ∧
      (∀ c rc r, c.Tallied → runHandColdHotLoop n c rc = .ok r → c.GhostsFit → r.1.GhostsFit) ∧
      (∀ c rc r, c.Tallied → runHandHot n c rc = .ok r → c.GhostsFit → r.1.GhostsFit) ∧
      (∀ c rc r, c.Tallied → runHandTest n c rc = .ok r → c.GhostsFit → r.1.GhostsFit) := by
  induction n with
  | zero => simp [evict, runHandCold, runHandColdTestLoop, runHandColdHotLoop, runHandHot,
      runHandTest]
  | succ n ih =>
    obtain ⟨hE, hC, hTL, hHL, hH, hT⟩ := ih
    obtain ⟨-, sC, sTL, -, sH, sT⟩ := sweeps_of_runs n
    refine ⟨?_, ?_, ?_, ?_, ?_, ?_⟩
    · intro c rc r hi h hg
      rw [evict] at h
      split at h
      · obtain ⟨⟨c1, rc1⟩, h1, h2⟩ := bind_eq_ok.mp h
        exact hE _ _ _ (hi.sweeps (sC _ _ _ _ _ h1)) h2 (hC _ _ _ _ _ hi h1 hg)
      · cases h; exact hg
    · intro c rc cc sc r hi h hg
      rw [runHandCold] at h
      split at h
      · cases h
      obtain ⟨⟨p, e⟩, hd, h⟩ := bind_eq_ok.mp h
      obtain ⟨hp, he⟩ := deref_eq_ok hd
      dsimp only at h
      split at h
      next cold =>
        split at h
        next ref =>
          obtain ⟨⟨c1, rc1⟩, h1, h2⟩ := bind_eq_ok.mp h
          cases h1
          exact hHL _ _ _ (hi.promote hp he cold).advanceCold h2 hg
        next ref =>
          obtain ⟨⟨c1, rc1⟩, h1, h2⟩ := bind_eq_ok.mp h
          have hi1 := (hi.demote hp he cold).sweeps (sTL _ _ _ h1)
          exact hHL _ _ _ hi1.advanceCold h2 (hTL _ _ _ (hi.demote hp he cold) h1)
      · obtain ⟨⟨c1, rc1⟩, h1, h2⟩ := bind_eq_ok.mp h
        cases h1
        exact hHL _ _ _ hi.advanceCold h2 hg
    · intro c rc r hi h
      rw [runHandColdTestLoop] at h
      split at h
      · obtain ⟨⟨c1, rc1⟩, h1, h2⟩ := bind_eq_ok.mp h
        exact hTL _ _ _ (hi.sweeps (sT _ _ _ h1)) h2
      · next hg =>
        cases h
        cases ht : c.handTest with
        | none => exact hi.ghostsFit_of_handTest ht
        | some q => exact not_lt.mp fun hlt => hg ⟨hlt, by simp [ht]⟩
    · intro c rc r hi h hg
      rw [runHandColdHotLoop] at h
      split at h
      · obtain ⟨⟨c1, rc1⟩, h1, h2⟩ := bind_eq_ok.mp h
        exact hHL _ _ _ (hi.sweeps (sH _ _ _ h1)) h2 (hH _ _ _ hi h1 hg)
      · cases h; exact hg
    · intro c rc r hi h hg
      rw [runHandHot] at h
      split at h
      · obtain ⟨⟨c1, rc1⟩, h1, h⟩ := bind_eq_ok.mp h
        have hg1 := hT _ _ _ hi h1 hg
        dsimp only at h
        split at h
        · cases h; exact hg1
        · obtain ⟨_, -, h⟩ := bind_eq_ok.mp h
          obtain ⟨c2, h2, h⟩ := bind_eq_ok.mp h
          cases h
          obtain ⟨e1, e2⟩ := hotStep_ghosts h2
          show c2.sizeTest ≤ c2.targetSize
          rw [e1, e2]; exact hg1
      · obtain ⟨c2, h2, h⟩ := bind_eq_ok.mp h
        cases h
        obtain ⟨e1, e2⟩ := hotStep_ghosts h2
        show c2.sizeTest ≤ c2.targetSize
        rw [e1, e2]; exact hg
    · intro c rc r hi h hg
      rw [runHandTest] at h
      split at h
      · split at h
        · cases h
        · obtain ⟨⟨c1, rc1⟩, h1, h⟩ := bind_eq_ok.mp h
          have hg1 := hC _ _ _ _ _ hi h1 hg
          dsimp only at h
          split at h
          · cases h; exact hg1
          · obtain ⟨e1, e2⟩ := testStep_ghosts (hi.sweeps (sC _ _ _ _ _ h1)) h
            show r.1.sizeTest ≤ r.1.targetSize
            rw [e2]; exact e1.trans hg1
      · obtain ⟨e1, e2⟩ := testStep_ghosts hi h
        show r.1.sizeTest ≤ r.1.targetSize
        rw [e2]; exact e1.trans hg

-----------------------------------------------------------------------------------------
-- The budgets after eviction
-----------------------------------------------------------------------------------------

/-- The three budgets after eviction. On every shard with the representation invariant, on
any fuel from `evictFuel`, `evict` returns with the resident bytes below the target size;
when it had work to do, with the hot bytes below `targetSize - coldTarget` or the ring
empty, as the hot hand is run after each step of the cold hand; and with the ghosts' bytes
within the target size when they were before, as each demotion is followed by the test
hand. -/
theorem evict_budgets {L n : Nat} {c : Shard} (hi : c.Inv) (hlen : c.blockLinks.length ≤ L)
    (hn : evictFuel L ≤ n) (rc : Refs)
    : ∃ c' rc', c.evict n rc = .ok (c', rc') ∧ c'.sizeHot + c'.sizeCold < c'.targetSize ∧
      (c.targetSize ≤ c.sizeHot + c.sizeCold →
        c'.sizeHot < c'.targetSize - c'.coldTarget ∨ c'.blockLinks = []) ∧
      (c.sizeTest ≤ c.targetSize → c'.sizeTest ≤ c'.targetSize) := by
  obtain ⟨c', rc', h⟩ := hi.evict_returns hlen hn rc
  have hi' := hi.evict h
  have hlt := hi.resident_lt_of_evict h
  refine ⟨c', rc', h, hlt, fun hover => ?_, (ghostsFit_of_runs n).1 c rc (c', rc') hi.toTallied h⟩
  rcases evict_exit_hot h with heq | hhot
  · obtain ⟨rfl, -⟩ := Prod.mk.inj heq
    omega
  · by_cases hr : c'.blockLinks = []
    · exact .inr hr
    · obtain ⟨p, hp⟩ := hi'.handHot_of_ne hr
      exact .inl (lt_of_not_le fun hge => hhot ⟨hge, by simp [hp]⟩)

set_option smartUnfolding false in
/-- Two pages of 6 bytes in a shard of 10: the budgets hold after `evict`. -/
theorem evict_budgets_twoPages
    : ∃ c, Reachable (Shard.empty 10) c ∧ c.blockLinks.length ≤ 2 ∧
      ∃ c' rc', c.evict (evictFuel 2) (fun _ => 1) = .ok (c', rc') ∧
        c'.sizeHot + c'.sizeCold < c'.targetSize ∧
        (c.targetSize ≤ c.sizeHot + c.sizeCold →
          c'.sizeHot < c'.targetSize - c'.coldTarget ∨ c'.blockLinks = []) ∧
        (c.sizeTest ≤ c.targetSize → c'.sizeTest ≤ c'.targetSize) :=
  have reach : Reachable (Shard.empty 10) _ :=
    .tail (.single (@Step.set _ _ 2 (fun _ => 1) _ 1 1 0 ⟨0, 6⟩ _ rfl))
      (@Step.set _ _ 2 (fun _ => 1) _ 1 1 1 ⟨1, 6⟩ _ rfl)
  ⟨_, reach, by decide,
    evict_budgets ((Inv.empty (by decide) (by decide)).reachable reach) (by decide) le_rfl _⟩

-----------------------------------------------------------------------------------------
-- Each step and the ghosts
-----------------------------------------------------------------------------------------

/-- A ring that only lost entries, the others unchanged, holds no more bytes of any type:
the sum over a sub-permutation of nonnegative sizes. -/
theorem Tallied.tally_le_of_sub {c c' : Shard} (hi : c.Tallied) (hi' : c'.Tallied)
    (hsub : ∀ q ∈ c'.blockLinks, q ∈ c.blockLinks)
    (harena : ∀ q ∈ c'.blockLinks, c'.arena q = c.arena q) (t : EntryType)
    : c'.tally (bytesOf t) ≤ c.tally (bytesOf t) := by
  obtain ⟨l, hperm, hsl⟩ := List.subperm_of_subset hi'.nodup hsub
  let g := fun q => ((c.arena q).map (bytesOf t)).getD 0
  have hg : ∀ q ∈ c.blockLinks, 0 ≤ g q := fun q hq => by
    obtain ⟨e, he⟩ := Option.isSome_iff_exists.mp (hi.live q hq)
    have := hi.sizes q hq e he
    simp only [g, he, Option.map_some', Option.getD_some, bytesOf]; split <;> omega
  calc c'.tally (bytesOf t) = (c'.blockLinks.map g).sum :=
        congrArg List.sum (List.map_congr_left fun q hq => by simp only [g, harena q hq])
    _ = (l.map g).sum := ((hperm.map g).sum_eq).symm
    _ ≤ (c.blockLinks.map g).sum :=
        (hsl.map g).sum_le_sum fun x hx => by
          obtain ⟨q, hq, rfl⟩ := List.mem_map.mp hx; exact hg q hq
    _ = c.tally (bytesOf t) := rfl

theorem get_ghosts {c c' : Shard} {rc rc' : Refs} {id fileNum offset : UInt64} {hd : Handle}
    (h : c.get rc id fileNum offset = .ok (c', rc', hd))
    : c'.sizeTest = c.sizeTest ∧ c'.targetSize = c.targetSize := by
  rcases get_ok h with ⟨-, -, rfl⟩ | ⟨p, e, v, -, -, -, -, -, rfl⟩ <;> exact ⟨rfl, rfl⟩

/-- `metaAdd` of an entry that is no ghost, then counting it when linked or freeing it
when declined, keeps the target and the ghosts within it: its `evict` keeps them there and
linking adds no ghost. -/
theorem Tallied.admit_ghosts {c c3 c' : Shard} {rc rc3 : Refs} {fuel : Nat} {k : Key} {p : Nat}
    {e : Entry} {added : Bool} (hi : c.Tallied) (hg : c.GhostsFit) (hte : e.ptype ≠ etTest)
    (h : c.metaAdd fuel rc k p = .ok (c3, rc3, added))
    (hc : added = true ∧ c' = c3.count e ∨ added = false ∧ c' = (c3.freeEntry rc3 p).1)
    : c'.targetSize = c.targetSize ∧ c'.GhostsFit := by
  obtain ⟨c1, e1, hev, -, hc3⟩ := metaAdd_ok h
  have ht1 := (Evolves.evict hi hev).targetSize
  have hg1 : c1.GhostsFit := (ghostsFit_of_runs fuel).1 c rc (c1, rc3) hi hev hg
  have h3 : c3.sizeTest = c1.sizeTest ∧ c3.targetSize = c1.targetSize := by
    rcases hc3 with ⟨-, rfl, -⟩ | ⟨-, rfl, -⟩
    · exact ⟨rfl, rfl⟩
    · exact ⟨by simp [Shard.link], link_targetSize⟩
  have h' : c'.sizeTest = c3.sizeTest ∧ c'.targetSize = c3.targetSize := by
    rcases hc with ⟨-, rfl⟩ | ⟨-, rfl⟩
    · exact ⟨by simp [count, bytesOf, hte], rfl⟩
    · rw [freeEntry_fst]; exact ⟨rfl, rfl⟩
  unfold GhostsFit at hg1 ⊢
  exact ⟨by rw [h'.2, h3.2, ht1], by rw [h'.1, h'.2, h3.1, h3.2]; exact hg1⟩

/-- `Set` keeps the target and the ghosts within it: an absent key or a ghost hit admits a
resident entry after `metaAdd`'s eviction, the ghost hit first dropping its ghost, and a
resident key only changes a resident entry's size before its own `evict`. -/
theorem Tallied.set_ghosts {c c' : Shard} {rc rc' : Refs} {fuel : Nat}
    {id fileNum offset : UInt64} {value : Value} {hd : Handle} (hi : c.Tallied) (hg : c.GhostsFit)
    (h : c.set fuel rc id fileNum offset value = .ok (c', rc', hd))
    : c'.targetSize = c.targetSize ∧ c'.GhostsFit := by
  obtain ⟨-, -, -, hc⟩ := set_ok h
  rcases hc with ⟨-, h⟩ | ⟨p, e, hb, he, ⟨hv, h⟩ | ⟨hv, h⟩⟩
  · obtain ⟨c3, rc3, added, h3, hc⟩ := setAbsent_ok h
    exact (hi.newSlot _).2.admit_ghosts hg (by simp [newEntry]) h3
      (hc.imp (fun ⟨ha, hc, _⟩ => ⟨ha, hc⟩) fun ⟨ha, hc⟩ => ⟨ha, congrArg Prod.fst hc⟩)
  · have hp := ((hi.blocks _ _).mp hb).1
    have hnt : e.ptype ≠ etTest := fun ht => hv ((hi.vals p hp e he).mpr ht)
    obtain ⟨hi0, h0⟩ := hi.setResident_evict hp he hv h
    have hle : c.sizeTest - bytesOf etTest e +
        bytesOf etTest { e with val := some value, referenced := true, size := value.len } ≤
        c.targetSize := by
      simp only [bytesOf, hnt, if_false]; unfold GhostsFit at hg; omega
    exact ⟨(Evolves.evict hi0 h0).targetSize, (ghostsFit_of_runs fuel).1 _ _ (c', rc') hi0 h0 hle⟩
  · have hp := ((hi.blocks _ _).mp hb).1
    have hte := (hi.vals p hp e he).mp hv
    obtain ⟨c6, rc6, added, h6, hc⟩ := setTest_ok he hte h
    have := hi.sizes p hp e he
    have hle : c.sizeTest - bytesOf etTest e ≤ c.targetSize := by
      simp only [bytesOf, hte, if_true]; unfold GhostsFit at hg; omega
    exact (hi.ghostSlot hp he value).2.admit_ghosts hle (by simp) h6
      (hc.imp (fun ⟨ha, _, hc⟩ => ⟨ha, hc⟩) fun ⟨ha, hc⟩ => ⟨ha, congrArg Prod.fst hc⟩)

/-- `Delete` keeps the target and only drops the bytes of the entry it evicts. -/
theorem Tallied.deleteLocked_ghosts {c c' : Shard} {rc rc' : Refs} {k : Key} {v : Option Value}
    (hi : c.Tallied) (h : c.deleteLocked rc k = .ok (c', rc', v))
    : c'.sizeTest ≤ c.sizeTest ∧ c'.targetSize = c.targetSize := by
  unfold Shard.deleteLocked at h
  split at h
  · cases h; exact ⟨le_rfl, rfl⟩
  · next p hb =>
    obtain ⟨⟨c1, rc1, v1⟩, h1, h⟩ := bind_eq_ok.mp h
    obtain ⟨_, -, h⟩ := bind_eq_ok.mp h
    cases h
    obtain ⟨e, he, rfl, -, -⟩ := metaEvict_ok h1
    have := hi.sizes p ((hi.blocks _ _).mp hb).1 e he
    rw [freeEntry_fst]
    exact ⟨show c.sizeTest - bytesOf etTest e ≤ c.sizeTest by
      simp only [bytesOf]; split <;> omega, rfl⟩

/-- A run of `EvictFile` keeps the target and only removes entries from the ring. -/
theorem Tallied.evictFileRun_ghosts {c c' : Shard} {rc rc' : Refs} {fkey : Key} {more : Bool}
    (hi : c.Tallied) (h : c.evictFileRun rc fkey = .ok (c', rc', more))
    : c'.sizeTest ≤ c.sizeTest ∧ c'.targetSize = c.targetSize := by
  obtain ⟨c1, rc1, more1, hrun, hi1, hf, -⟩ := evictFileRun_spec rc fkey hi
  obtain ⟨rfl, -, -⟩ : c1 = c' ∧ rc1 = rc' ∧ more1 = more := by
    simpa [hrun] using h
  rw [hi.sizeTest, hi1.sizeTest]
  exact ⟨hi.tally_le_of_sub hi1 hf.sub hf.arena etTest,
    by simp only [Shard.targetSize, hf.maxSize, hf.reservedSize]⟩

/-- `Reserve` that does not lower the target keeps the ghosts within it: it moves only the
budget and `coldTarget`, which leaves the ring and its ghosts as they were, and evicts. -/
theorem Tallied.reserve_ghosts {c c' : Shard} {rc rc' : Refs} {fuel : Nat} {n : Int} (hi : c.Tallied)
    (hg : c.GhostsFit) (h : c.reserve fuel rc n = .ok (c', rc'))
    (hup : c.targetSize ≤ c'.targetSize)
    : c'.GhostsFit := by
  obtain ⟨c0, hi0, -, hl, ha, -, h0⟩ := reserve_ok h
  replace hi0 := hi0 hi
  have hs : c0.sizeTest = c.sizeTest := by rw [hi0.sizeTest, hi.sizeTest]; simp only [tally, hl, ha]
  have ht := (Evolves.evict hi0 h0).targetSize
  unfold GhostsFit at hg
  exact (ghostsFit_of_runs fuel).1 c0 rc (c', rc') hi0 h0 (show c0.sizeTest ≤ _ by omega)

-----------------------------------------------------------------------------------------
-- The ghosts' budget along runs that keep the target
-----------------------------------------------------------------------------------------

/-- A step after which the target size is no smaller: any step but a `Reserve` that
shrinks the budget. -/
def StepUp (c c' : Shard) : Prop := Step c c' ∧ c.targetSize ≤ c'.targetSize

/-- Whether each of the calls returns and leaves the target no smaller, run one after the
other; it computes, like `runCalls`. -/
def targetsUp : Shard → List ShardCall → Bool
  | _, [] => true
  | c, k :: ks =>
    match k.run c with
    | some c1 => decide (c.targetSize ≤ c1.targetSize) && targetsUp c1 ks
    | none => false

/-- A run of calls that never lowers the target is a run of `StepUp`. -/
theorem runCalls_stepUp
    : ∀ {c c' : Shard} {ks : List ShardCall}, runCalls c ks = some c' → targetsUp c ks = true →
      Relation.ReflTransGen StepUp c c'
  | _, _, [], h, _ => by cases h; exact .refl
  | c, _, k :: _, h, hu => by
    obtain ⟨c1, h1, h2⟩ := Option.bind_eq_some.mp h
    simp only [targetsUp, h1, Bool.and_eq_true, decide_eq_true_eq] at hu
    exact .head ⟨ShardCall.step h1, hu.1⟩ (runCalls_stepUp h2 hu.2)

/-- One step that does not lower the target keeps the ghosts within it. -/
theorem Tallied.stepUp_ghosts {c c' : Shard} (hi : c.Tallied) (hg : c.GhostsFit)
    : StepUp c c' → c'.GhostsFit
  | ⟨.get run, _⟩ => by
    obtain ⟨hs, ht⟩ := get_ghosts run; unfold GhostsFit at hg ⊢; rw [hs, ht]; exact hg
  | ⟨.set run, _⟩ => (hi.set_ghosts hg run).2
  | ⟨.delete run, _⟩ => by
    obtain ⟨hs, ht⟩ := hi.deleteLocked_ghosts run; unfold GhostsFit at hg ⊢; omega
  | ⟨.evictFileRun run, _⟩ => by
    obtain ⟨hs, ht⟩ := hi.evictFileRun_ghosts run; unfold GhostsFit at hg ⊢; omega
  | ⟨.reserve run, hup⟩ => hi.reserve_ghosts hg run hup

end Shard

open Shard in
set_option smartUnfolding false in
/-- The ghosts' budget of CLOCK-Pro over runs: every shard of a cache that `newShards` builds
with a nonnegative size holds at most its target size in ghost bytes along every run whose
steps never lower the target, by induction on the run with the representation invariant
alongside. A `Reserve` that lowers the target needs not evict, and then leaves the ghosts
over it: on a shard of 10 bytes whose `coldTarget` two reservations have lowered to 5,
pages of 2 and 8 bytes and then 1 byte demote the page of 8 to a ghost, and a `Reserve`
of 4 leaves 8 ghost bytes over a target of 6. -/
theorem newShards_ghosts_fit
    : (∀ {size : Int} {shards : Nat} {cache : Cache} {s c : Shard}, 0 ≤ size →
        newShards size shards = .ok cache → s ∈ cache.shards →
        Relation.ReflTransGen StepUp s c → c.GhostsFit) ∧
      ∃ c c' rc', Reachable (Shard.empty 10) c ∧ c.GhostsFit ∧
        c.reserve 3 (fun _ => 1) 4 = .ok (c', rc') ∧ ¬ c'.GhostsFit := by
  refine ⟨fun {size shards cache s c} _ hnew hs hr => ?_, ?_⟩
  · obtain rfl := mem_newShards hnew hs
    have base : (Shard.empty (size.tdiv shards)).GhostsFit :=
      show (0 : Int) ≤ _ from le_trans (by decide) (targetSize_pos _)
    induction hr with
    | refl => exact base
    | tail hr' st ih =>
      exact ((Tallied.empty _).reachable (hr'.mono fun _ _ h => h.1)).stepUp_ghosts ih st
  · obtain ⟨c, hc, hfit, r, hr, hover⟩ : ∃ c, runCalls (Shard.empty 10)
        [.reserve 3 (fun _ => 1) 5, .reserve 3 (fun _ => 1) (-5),
          .set 3 (fun _ => 1) 1 1 0 ⟨0, 2⟩, .set 3 (fun _ => 1) 1 1 1 ⟨1, 8⟩,
          .set 3 (fun _ => 1) 1 1 2 ⟨2, 1⟩] = some c ∧
        c.GhostsFit ∧ ∃ r, c.reserve 3 (fun _ => 1) 4 = .ok r ∧ ¬ r.1.GhostsFit :=
      ⟨_, rfl, by decide, _, rfl, by decide⟩
    exact ⟨c, r.1, r.2, runCalls_reachable hc, hfit, hr, hover⟩

open Shard in
set_option smartUnfolding false in
/-- A run from the one shard of `newShards 10 1`: two pages of 10 bytes, then a page of 1
byte whose `Set` demotes one of them to a ghost; the ghost's 10 bytes fit the target of 10. -/
theorem newShards_ghosts_fit_demoted
    : ∃ cache c, newShards 10 1 = .ok cache ∧ Shard.empty 10 ∈ cache.shards ∧
      Relation.ReflTransGen StepUp (Shard.empty 10) c ∧ c.sizeTest = 10 ∧ c.GhostsFit :=
  let ⟨c, hc, hu, hg⟩ : ∃ c, runCalls (Shard.empty 10)
      [.set 1 (fun _ => 1) 1 1 0 ⟨0, 10⟩, .set 5 (fun _ => 1) 1 1 1 ⟨1, 10⟩,
        .set 3 (fun _ => 1) 1 1 2 ⟨2, 1⟩] = some c ∧
      targetsUp (Shard.empty 10)
        [.set 1 (fun _ => 1) 1 1 0 ⟨0, 10⟩, .set 5 (fun _ => 1) 1 1 1 ⟨1, 10⟩,
          .set 3 (fun _ => 1) 1 1 2 ⟨2, 1⟩] = true ∧ c.sizeTest = 10 :=
    ⟨_, rfl, by decide, by decide⟩
  have hrun := runCalls_stepUp hc hu
  ⟨_, c, rfl, List.mem_singleton_self _, hrun, hg,
    newShards_ghosts_fit.1 (by decide)
      (show newShards 10 1 = .ok ⟨1, 10, 1, [Shard.empty 10]⟩ from rfl) (List.mem_singleton_self _) hrun⟩

end Vecble.ClockPro
