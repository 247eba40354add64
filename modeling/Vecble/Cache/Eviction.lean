import Vecble.Cache.Invariant

/-! The representation invariant across the three clock hands: each hand step keeps it,
hence so does every run of `evict`.
-/

namespace Vecble.ClockPro

open EntryType

namespace Shard

theorem promote_eq {c : Shard} {p : Nat} {e : Entry} (cold : e.ptype = etCold)
    : c.promote p e = (c.setEntry p { e with referenced := false, ptype := etHot }).recount e
      { e with referenced := false, ptype := etHot } := by
  simp [promote, recount, setEntry, oneOf, bytesOf, cold]

theorem demote_eq {c : Shard} {p : Nat} {e : Entry} (cold : e.ptype = etCold)
    : c.demote p e = (c.setEntry p { e with val := none, ptype := etTest }).recount e
      { e with val := none, ptype := etTest } := by
  simp [demote, recount, setEntry, oneOf, bytesOf, cold]

theorem Tallied.promote {c : Shard} {p : Nat} {e : Entry} (hi : c.Tallied) (hand : c.handCold = some p)
    (found : c.arena p = some e) (cold : e.ptype = etCold)
    : (c.promote p e).Tallied := by
  have hp := hi.mem_of_handCold hand
  rw [promote_eq cold]
  refine hi.rewrite hp found rfl ?_ (hi.sizes p hp e found)
  simpa [cold] using hi.vals p hp e found

theorem Tallied.demote {c : Shard} {p : Nat} {e : Entry} (hi : c.Tallied) (hand : c.handCold = some p)
    (found : c.arena p = some e) (cold : e.ptype = etCold)
    : (c.demote p e).Tallied := by
  have hp := hi.mem_of_handCold hand
  rw [demote_eq cold]
  exact hi.rewrite hp found rfl (by simp) (hi.sizes p hp e found)

theorem Tallied.advanceCold {c : Shard} (hi : c.Tallied) : Tallied { c with handCold := c.next c.handCold } :=
  { hi with toShape := hi.toShape.advanceCold }

theorem Tallied.advanceHot {c : Shard} (hi : c.Tallied) : Tallied { c with handHot := c.next c.handHot } :=
  { hi with toShape := hi.toShape.advanceHot }

theorem Tallied.advanceTest {c : Shard} (hi : c.Tallied) : Tallied { c with handTest := c.next c.handTest } :=
  { hi with toShape := hi.toShape.advanceTest }

/-- What the hot hand's step does: it reads the entry under the hand, clears the bit of a
referenced hot page or turns an unreferenced one cold, and moves on. -/
theorem hotStep_ok {c c' : Shard} (h : c.hotStep = .ok c')
    : ∃ p e, c.handHot = some p ∧ c.arena p = some e ∧ ∃ d : Shard,
      d = (if e.ptype = etHot then
            if e.referenced then c.setEntry p { e with referenced := false }
            else { c.setEntry p { e with ptype := etCold } with
              sizeHot := c.sizeHot - e.size, countHot := c.countHot - 1,
              sizeCold := c.sizeCold + e.size, countCold := c.countCold + 1 }
          else c) ∧
      c' = { d with handHot := d.next d.handHot } := by
  obtain ⟨⟨p, e⟩, hd, h⟩ := bind_eq_ok.mp h
  obtain ⟨hand, he⟩ := deref_eq_ok hd
  cases h
  exact ⟨p, e, hand, he, _, rfl, rfl⟩

/-- What the test hand's step does: a ghost under the hand is uncounted, lowers
`coldTarget` (not below zero) and is unlinked and freed, releasing its value; any other
entry stays. Then the hand moves on. -/
theorem testStep_ok {c : Shard} {rc : Refs} {r : Shard × Refs} (h : c.testStep rc = .ok r)
    : ∃ p e, c.handTest = some p ∧ c.arena p = some e ∧
      (e.ptype = etTest ∧ (∃ d : Shard,
          d = ((Shard.detach
            { c with
              sizeTest := c.sizeTest - e.size, countTest := c.countTest - 1,
              coldTarget := if c.coldTarget - e.size < 0 then 0 else c.coldTarget - e.size }
            p e).freeEntry (release rc e.val) p).1 ∧
          r = ({ d with handTest := d.next d.handTest }, release rc e.val)) ∨
        e.ptype ≠ etTest ∧ r = ({ c with handTest := c.next c.handTest }, rc)) := by
  obtain ⟨⟨p, e⟩, hd, h⟩ := bind_eq_ok.mp h
  obtain ⟨hand, he⟩ := deref_eq_ok hd
  refine ⟨p, e, hand, he, ?_⟩
  dsimp only at h
  split at h
  next test =>
    obtain ⟨⟨c2, v⟩, h2, h⟩ := bind_eq_ok.mp h
    obtain ⟨e2, he2, rfl, rfl⟩ := metaDel_ok h2
    obtain rfl : e = e2 := Option.some.inj (he.symm.trans he2)
    obtain ⟨_, h1, h⟩ := bind_eq_ok.mp h
    cases h1; cases h
    refine .inl ⟨test, _, rfl, ?_⟩
    simp [freeEntry, Shard.detach, release]
  next test =>
    obtain ⟨_, h1, h⟩ := bind_eq_ok.mp h
    cases h1; cases h
    exact .inr ⟨test, rfl⟩

theorem Tallied.hotStep {c c' : Shard} (hi : c.Tallied) (h : c.hotStep = .ok c') : c'.Tallied := by
  obtain ⟨p, e, hand, he, d, rfl, rfl⟩ := hotStep_ok h
  have hp := hi.mem_of_handHot hand
  apply Tallied.advanceHot
  split
  next hot =>
    have hv := hi.vals p hp e he
    have hs := hi.sizes p hp e he
    split
    · have h := hi.rewrite hp he (d := { e with referenced := false }) rfl hv hs
      rwa [recount_of_same (e := e) (d := { e with referenced := false }) rfl rfl] at h
    · have h := hi.rewrite hp he (d := { e with ptype := etCold }) rfl (by simp_all) hs
      have eq : (c.setEntry p { e with ptype := etCold }).recount e { e with ptype := etCold } =
          { c.setEntry p { e with ptype := etCold } with
            sizeHot := c.sizeHot - e.size, countHot := c.countHot - 1,
            sizeCold := c.sizeCold + e.size, countCold := c.countCold + 1 } := by
        simp [recount, setEntry, oneOf, bytesOf, hot]
      rwa [eq] at h
  · exact hi

theorem Tallied.testStep {c : Shard} {rc : Refs} {r : Shard × Refs} (hi : c.Tallied)
    (h : c.testStep rc = .ok r)
    : r.1.Tallied := by
  obtain ⟨p, e, hand, he, ⟨test, c2, rfl, rfl⟩ | ⟨-, rfl⟩⟩ := testStep_ok h
  · have hp := hi.mem_of_handTest hand
    apply Tallied.advanceTest
    have hi' := hi.withColdTarget (if c.coldTarget - e.size < 0 then 0 else c.coldTarget - e.size)
    have h := (hi'.detach hp he).freeEntry (r := release rc e.val) hi'.nodup.not_mem_erase
    simpa [uncount, oneOf, bytesOf, test] using h
  · exact hi.advanceTest

theorem Tallied.sweep {a b : Shard × Refs} (h : Sweep a b) (hi : a.1.Tallied) : b.1.Tallied := by
  cases h with
  | promote hand found cold _ => exact hi.promote hand found cold
  | demote hand found cold _ => exact hi.demote hand found cold
  | advanceCold => exact hi.advanceCold
  | hot step => exact hi.hotStep step
  | test step => exact hi.testStep step

theorem Tallied.sweeps {a b : Shard × Refs} (h : Sweeps a b) (hi : a.1.Tallied) : b.1.Tallied := by
  induction h with
  | refl => exact hi
  | tail _ step ih => exact ih.sweep step

/-- Eviction keeps the invariant short of `coldTarget`, since each hand step does. -/
theorem Tallied.evict {c c' : Shard} {rc rc' : Refs} {n : Nat} (hi : c.Tallied)
    (h : c.evict n rc = .ok (c', rc'))
    : c'.Tallied :=
  hi.sweeps (a := (c, rc)) (b := (c', rc')) ((sweeps_of_runs n).1 c rc _ h)

/-- `evict` returns only once the resident bytes are below the target or the cold hand
is nil, by induction on its loop. -/
theorem evict_exit {c c' : Shard} {rc rc' : Refs}
    : ∀ {n : Nat}, c.evict n rc = .ok (c', rc') →
      c'.sizeHot + c'.sizeCold < c'.targetSize ∨ c'.handCold = none
  | 0, h => by simp [evict] at h
  | n + 1, h => by
      rw [evict] at h
      split at h
      · obtain ⟨⟨c1, rc1⟩, -, h2⟩ := bind_eq_ok.mp h
        exact evict_exit h2
      · next hc =>
        cases h
        by_cases hn : c.handCold = none
        · exact .inr hn
        · exact .inl (by
            simp only [not_and, Option.isSome_iff_ne_none] at hc
            exact lt_of_not_le fun h => hc h hn)

-----------------------------------------------------------------------------------------
-- What the hands leave alone
-----------------------------------------------------------------------------------------

/-- What a run of the hands does beyond keeping the invariant: the budget and the
allocator stay, `coldTarget` stays or the test hand lowers it to no less than zero, the ring
only loses entries and keeps the order of the rest, entries off the ring are untouched, and
an entry still on the ring keeps its key and either keeps its value or has lost it. -/
structure Evolves (c c' : Shard) : Prop where
  maxSize : c'.maxSize = c.maxSize
  reservedSize : c'.reservedSize = c.reservedSize
  entryAlloc : c'.entryAlloc = c.entryAlloc
  coldTarget : c'.coldTarget = c.coldTarget ∨ 0 ≤ c'.coldTarget ∧ c'.coldTarget ≤ max c.coldTarget 0
  ring : c'.blockLinks.Sublist c.blockLinks
  offRing : ∀ q, q ∉ c.blockLinks → c'.arena q = c.arena q
  keyAt : ∀ q ∈ c'.blockLinks, c'.keyAt q = c.keyAt q
  valAt : ∀ q ∈ c'.blockLinks, c'.valAt q = c.valAt q ∨ c'.valAt q = none

/-- A step that moves no field `Evolves` reads but the arena and the hands. -/
theorem Evolves.same {c c' : Shard} (hm : c'.maxSize = c.maxSize)
    (hr : c'.reservedSize = c.reservedSize) (ha : c'.entryAlloc = c.entryAlloc)
    (hct : c'.coldTarget = c.coldTarget) (hl : c'.blockLinks = c.blockLinks)
    (hat : c'.arena = c.arena)
    : Evolves c c' where
  maxSize := hm
  reservedSize := hr
  entryAlloc := ha
  coldTarget := .inl hct
  ring := hl ▸ .refl _
  offRing q _ := by rw [hat]
  keyAt q _ := by simp only [Shard.keyAt, hat]
  valAt q _ := .inl (by simp only [Shard.valAt, hat])

theorem Evolves.refl (c : Shard) : Evolves c c := .same rfl rfl rfl rfl rfl rfl

theorem Evolves.trans {a b c : Shard} (h1 : Evolves a b) (h2 : Evolves b c) : Evolves a c where
  maxSize := h2.maxSize.trans h1.maxSize
  reservedSize := h2.reservedSize.trans h1.reservedSize
  entryAlloc := h2.entryAlloc.trans h1.entryAlloc
  coldTarget := by rcases h1.coldTarget with h | h <;> rcases h2.coldTarget with h' | h' <;> omega
  ring := h2.ring.trans h1.ring
  offRing q hq := (h2.offRing q fun h => hq (h1.ring.subset h)).trans (h1.offRing q hq)
  keyAt q hq := (h2.keyAt q hq).trans (h1.keyAt q (h2.ring.subset hq))
  valAt q hq := by
    rcases h2.valAt q hq with h | h
    · rw [h]; exact h1.valAt q (h2.ring.subset hq)
    · exact .inr h

theorem Evolves.targetSize {c c' : Shard} (h : Evolves c c') : c'.targetSize = c.targetSize := by
  simp only [Shard.targetSize, h.maxSize, h.reservedSize]

/-- `coldTarget` stays within `[0, targetSize]` across a run of the hands. -/
theorem Evolves.coldTarget_mem {c c' : Shard} (h : Evolves c c')
    (hct : 0 ≤ c.coldTarget ∧ c.coldTarget ≤ c.targetSize)
    : 0 ≤ c'.coldTarget ∧ c'.coldTarget ≤ c'.targetSize := by
  rw [h.targetSize]; rcases h.coldTarget with h | h <;> omega

/-- Rewriting a ring entry in place, keeping its key and its value or dropping the value. -/
theorem evolves_setEntry {c : Shard} {p : Nat} {e d : Entry} (hp : p ∈ c.blockLinks)
    (he : c.arena p = some e) (hk : d.key = e.key) (hv : d.val = e.val ∨ d.val = none)
    : Evolves c (c.setEntry p d) where
  maxSize := rfl
  reservedSize := rfl
  entryAlloc := rfl
  coldTarget := .inl rfl
  ring := .refl _
  offRing q hq := Function.update_noteq (fun (h : q = p) => hq (h ▸ hp)) _ _
  keyAt q _ := by rw [keyAt_setEntry he hk]
  valAt q _ := by
    by_cases hq : q = p
    · subst hq; simpa [valAt, setEntry, he] using hv
    · exact .inl (by simp [valAt, setEntry, Function.update_noteq hq])

/-- Uncounting, unlinking and freeing a ring entry. -/
theorem evolves_remove {c : Shard} {p : Nat} {e : Entry} {r : Refs} (hn : c.blockLinks.Nodup)
    (hp : p ∈ c.blockLinks)
    : Evolves c ((c.detach p e).freeEntry r p).1 := by
  rw [freeEntry_fst]
  have hmem : ∀ q, q ∈ c.blockLinks.erase p → q ≠ p ∧ q ∈ c.blockLinks :=
    fun q hq => (List.Nodup.mem_erase_iff hn).mp hq
  exact {
    maxSize := rfl
    reservedSize := rfl
    entryAlloc := rfl
    coldTarget := .inl rfl
    ring := List.erase_sublist _ _
    offRing := fun q hq => by
      have : q ≠ p := fun h => hq (h ▸ hp)
      simp [Shard.detach, Function.update_noteq this]
    keyAt := fun q hq => by simp [keyAt, Shard.detach, Function.update_noteq (hmem q hq).1]
    valAt := fun q hq => .inl (by simp [valAt, Shard.detach, Function.update_noteq (hmem q hq).1]) }

/-- Moving a hand or a counter changes nothing `Evolves` reads. -/
theorem Evolves.of_arena {c c' : Shard} (h : Evolves c c') {d : Shard}
    (hm : d.maxSize = c'.maxSize) (hr : d.reservedSize = c'.reservedSize)
    (ha : d.entryAlloc = c'.entryAlloc) (hct : d.coldTarget = c'.coldTarget)
    (hl : d.blockLinks = c'.blockLinks) (hat : d.arena = c'.arena)
    : Evolves c d :=
  h.trans (.same hm hr ha hct hl hat)

theorem Evolves.hotStep {c c' : Shard} (hi : c.Tallied) (h : c.hotStep = .ok c') : Evolves c c' := by
  obtain ⟨p, e, hand, he, d, rfl, rfl⟩ := hotStep_ok h
  have hp := hi.mem_of_handHot hand
  split
  · split
    · exact (evolves_setEntry (d := { e with referenced := false }) hp he rfl (.inl rfl)).of_arena
        rfl rfl rfl rfl rfl rfl
    · exact (evolves_setEntry (d := { e with ptype := etCold }) hp he rfl (.inl rfl)).of_arena
        rfl rfl rfl rfl rfl rfl
  · exact .same rfl rfl rfl rfl rfl rfl

theorem Evolves.testStep {c : Shard} {rc : Refs} {r : Shard × Refs} (hi : c.Tallied)
    (h : c.testStep rc = .ok r)
    : Evolves c r.1 := by
  obtain ⟨p, e, hand, he, ⟨-, c2, rfl, rfl⟩ | ⟨-, rfl⟩⟩ := testStep_ok h
  · have hp := hi.mem_of_handTest hand
    have hs := hi.sizes p hp e he
    have h0 : Evolves c { c with
        sizeTest := c.sizeTest - e.size, countTest := c.countTest - 1,
        coldTarget := if c.coldTarget - e.size < 0 then 0 else c.coldTarget - e.size } :=
      { Evolves.refl c with coldTarget := .inr (by dsimp only; split <;> omega) }
    exact (h0.trans (evolves_remove (e := e) (r := release rc e.val) hi.nodup hp)).of_arena
      rfl rfl rfl rfl rfl rfl
  · exact .same rfl rfl rfl rfl rfl rfl

theorem Evolves.sweep {a b : Shard × Refs} (h : Sweep a b) (hi : a.1.Tallied) : Evolves a.1 b.1 := by
  cases h with
  | @promote c rc p e hand found cold _ =>
      exact (evolves_setEntry (d := { e with referenced := false, ptype := etHot })
        (hi.mem_of_handCold hand) found rfl (.inl rfl)).of_arena rfl rfl rfl rfl rfl rfl
  | @demote c rc p e hand found cold _ =>
      exact (evolves_setEntry (d := { e with val := none, ptype := etTest })
        (hi.mem_of_handCold hand) found rfl (.inr rfl)).of_arena rfl rfl rfl rfl rfl rfl
  | advanceCold => exact .same rfl rfl rfl rfl rfl rfl
  | hot step => exact .hotStep hi step
  | test step => exact .testStep hi step

/-- A run of the hands only removes entries and values, by induction on the run. -/
theorem Evolves.sweeps {a b : Shard × Refs} (h : Sweeps a b) (hi : a.1.Tallied) : Evolves a.1 b.1 := by
  induction h with
  | refl => exact .refl _
  | tail hab step ih => exact ih.trans (.sweep step (hi.sweeps hab))

theorem Evolves.evict {c c' : Shard} {rc rc' : Refs} {n : Nat} (hi : c.Tallied)
    (h : c.evict n rc = .ok (c', rc'))
    : Evolves c c' :=
  Evolves.sweeps (a := (c, rc)) (b := (c', rc')) ((sweeps_of_runs n).1 c rc _ h) hi

theorem Inv.sweeps {a b : Shard × Refs} (h : Sweeps a b) (hi : a.1.Inv) : b.1.Inv :=
  ⟨hi.toTallied.sweeps h, (Evolves.sweeps h hi.toTallied).coldTarget_mem hi.coldTarget⟩

theorem Inv.sweep {a b : Shard × Refs} (h : Sweep a b) (hi : a.1.Inv) : b.1.Inv :=
  hi.sweeps (.single h)

/-- Eviction keeps the representation invariant, since each hand step does. -/
theorem Inv.evict {c c' : Shard} {rc rc' : Refs} {n : Nat} (hi : c.Inv)
    (h : c.evict n rc = .ok (c', rc'))
    : c'.Inv :=
  hi.sweeps (a := (c, rc)) (b := (c', rc')) ((sweeps_of_runs n).1 c rc _ h)

end Shard

end Vecble.ClockPro
