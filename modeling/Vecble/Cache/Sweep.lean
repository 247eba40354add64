import Vecble.Cache.Shard

/-! What one step of the three clock hands can do to a shard, and that every run of
`evict`, `runHandCold`, `runHandHot` and `runHandTest` is a sequence of such steps.
Every property of eviction is then proved once per step.
-/

namespace Vecble.ClockPro

open EntryType

theorem bind_eq_ok {ε α β : Type} {x : Except ε α} {f : α → Except ε β} {b : β}
    : x >>= f = .ok b ↔ ∃ a, x = .ok a ∧ f a = .ok b := by
  cases x <;> simp [bind, Except.bind]

theorem map_eq_ok {ε α β : Type} {x : Except ε α} {f : α → β} {b : β}
    : x.map f = .ok b ↔ ∃ a, x = .ok a ∧ f a = b := by
  cases x <;> simp [Except.map]

theorem map_ok_iff {ε α β : Type} {x : Except ε α} {f : α → β}
    : (∃ b, x.map f = .ok b) ↔ ∃ a, x = .ok a := by
  cases x <;> simp [Except.map]

namespace Shard

/-- One step of a clock hand, with the reference counts: the cold hand promotes a
referenced cold page or turns an unreferenced one into a ghost and releases its value,
the cold hand moves on, and the hot and test hands take their own steps. -/
inductive Sweep : Shard × Refs → Shard × Refs → Prop
  | promote {c : Shard} {rc p e} (hand : c.handCold = some p) (found : c.arena p = some e)
      (cold : e.ptype = etCold) (ref : e.referenced = true) :
      Sweep (c, rc) (c.promote p e, rc)
  | demote {c : Shard} {rc p e} (hand : c.handCold = some p) (found : c.arena p = some e)
      (cold : e.ptype = etCold) (ref : e.referenced = false) :
      Sweep (c, rc) (c.demote p e, release rc e.val)
  | advanceCold {c : Shard} {rc} : Sweep (c, rc) ({ c with handCold := c.next c.handCold }, rc)
  | hot {c c' : Shard} {rc} (step : c.hotStep = .ok c') : Sweep (c, rc) (c', rc)
  | test {c : Shard} {rc r} (step : c.testStep rc = .ok r) : Sweep (c, rc) r

/-- Any number of hand steps. -/
abbrev Sweeps : Shard × Refs → Shard × Refs → Prop := Relation.ReflTransGen Sweep

theorem deref_eq_ok {c : Shard} {h : Option Nat} {p : Nat} {e : Entry}
    (hd : c.deref h = .ok (p, e))
    : h = some p ∧ c.arena p = some e := by
  cases h with
  | none => simp [deref] at hd
  | some q =>
      simp only [deref, entry] at hd
      split at hd <;> simp_all [Except.map]

end Shard

namespace Shard

/-- Every successful run of the hands is a sequence of hand steps, by induction on the
step budget shared by the six mutually recursive functions. -/
theorem sweeps_of_runs (n : Nat)
    : (∀ c rc r, evict n c rc = .ok r → Sweeps (c, rc) r) ∧
      (∀ c rc cc sc r, runHandCold n c rc cc sc = .ok r → Sweeps (c, rc) r) ∧
      (∀ c rc r, runHandColdTestLoop n c rc = .ok r → Sweeps (c, rc) r) ∧
      (∀ c rc r, runHandColdHotLoop n c rc = .ok r → Sweeps (c, rc) r) ∧
      (∀ c rc r, runHandHot n c rc = .ok r → Sweeps (c, rc) r) ∧
      (∀ c rc r, runHandTest n c rc = .ok r → Sweeps (c, rc) r) := by
  induction n with
  | zero => simp [evict, runHandCold, runHandColdTestLoop, runHandColdHotLoop, runHandHot,
      runHandTest]
  | succ n ih =>
    obtain ⟨hE, hC, hTL, hHL, hH, hT⟩ := ih
    refine ⟨?_, ?_, ?_, ?_, ?_, ?_⟩
    · intro c rc r h
      rw [evict] at h
      split at h
      · obtain ⟨⟨c1, rc1⟩, h1, h2⟩ := bind_eq_ok.mp h
        exact (hC _ _ _ _ _ h1).trans (hE _ _ _ h2)
      · cases h; exact .refl
    · intro c rc cc sc r h
      rw [runHandCold] at h
      split at h
      · cases h
      obtain ⟨⟨p, e⟩, hd, h⟩ := bind_eq_ok.mp h
      obtain ⟨hp, he⟩ := deref_eq_ok hd
      dsimp only at h
      split at h
      next cold =>
        split at h
        next ref =>
          obtain ⟨⟨c1, rc1⟩, h1, h2⟩ := bind_eq_ok.mp h
          cases h1
          exact .head (.promote hp he cold ref) (.head .advanceCold (hHL _ _ _ h2))
        next ref =>
          obtain ⟨⟨c1, rc1⟩, h1, h2⟩ := bind_eq_ok.mp h
          exact .head (.demote hp he cold (by simpa using ref))
            ((hTL _ _ _ h1).trans (.head .advanceCold (hHL _ _ _ h2)))
      · obtain ⟨⟨c1, rc1⟩, h1, h2⟩ := bind_eq_ok.mp h
        cases h1
        exact .head .advanceCold (hHL _ _ _ h2)
    · intro c rc r h
      rw [runHandColdTestLoop] at h
      split at h
      · obtain ⟨⟨c1, rc1⟩, h1, h2⟩ := bind_eq_ok.mp h
        exact (hT _ _ _ h1).trans (hTL _ _ _ h2)
      · cases h; exact .refl
    · intro c rc r h
      rw [runHandColdHotLoop] at h
      split at h
      · obtain ⟨⟨c1, rc1⟩, h1, h2⟩ := bind_eq_ok.mp h
        exact (hH _ _ _ h1).trans (hHL _ _ _ h2)
      · cases h; exact .refl
    · intro c rc r h
      rw [runHandHot] at h
      split at h
      · obtain ⟨⟨c1, rc1⟩, h1, h⟩ := bind_eq_ok.mp h
        dsimp only at h
        split at h
        · cases h; exact hT _ _ _ h1
        · obtain ⟨_, -, h⟩ := bind_eq_ok.mp h
          obtain ⟨c2, h2, h⟩ := bind_eq_ok.mp h
          cases h
          exact (hT _ _ _ h1).tail (.hot h2)
      · obtain ⟨c2, h2, h⟩ := bind_eq_ok.mp h
        cases h
        exact .single (.hot h2)
    · intro c rc r h
      rw [runHandTest] at h
      split at h
      · split at h
        · cases h
        · obtain ⟨⟨c1, rc1⟩, h1, h⟩ := bind_eq_ok.mp h
          dsimp only at h
          split at h
          · cases h; exact hC _ _ _ _ _ h1
          · exact (hC _ _ _ _ _ h1).tail (.test h)
      · exact .single (.test h)

end Shard

end Vecble.ClockPro
