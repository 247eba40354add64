import Vecble.Cache.Budget

/-! Termination of eviction: `evict` and the hand loops it calls return once the fuel exceeds
a bound cubic in the length of the ring, from every shard with the representation invariant,
and never read a nil hand or a freed entry.
-/

namespace Vecble.ClockPro

open EntryType

-----------------------------------------------------------------------------------------
-- Distances along a ring
-----------------------------------------------------------------------------------------

/-- The number of steps forward from `p` along `ring` to the first entry with `P`, the
length of the ring when no entry has it. -/
def fwd (ring : List Nat) (P : Nat → Bool) (p : Nat) : Nat :=
  (ring.rotate (ring.indexOf p)).findIdx P

theorem fwd_le (ring : List Nat) (P : Nat → Bool) (p : Nat) : fwd ring P p ≤ ring.length :=
  (List.findIdx_le_length P).trans (List.length_rotate ..).le

/-- A ring read from `p` on. -/
theorem rotate_indexOf {a b : List Nat} {p : Nat} (ha : p ∉ a)
    : (a ++ p :: b).rotate ((a ++ p :: b).indexOf p) = p :: (b ++ a) := by
  rw [List.indexOf_append_of_not_mem ha, List.indexOf_cons_self, Nat.add_zero,
    List.rotate_append_length_eq, List.cons_append]

theorem fwd_of_forall {ring : List Nat} {P : Nat → Bool} (h : ∀ q ∈ ring, P q = false)
    (p : Nat)
    : fwd ring P p = ring.length := by
  rw [fwd, List.findIdx_eq_length.mpr fun q hq => h q (List.mem_rotate.mp hq),
    List.length_rotate]

/-- A duplicate-free ring split at `p`: `p` is in neither part. -/
theorem not_mem_of_split {a b : List Nat} {p : Nat} (hn : (a ++ p :: b).Nodup)
    : p ∉ a ∧ p ∉ b := by
  have := (List.nodup_cons.mp (List.nodup_middle.mp hn)).1
  exact ⟨fun h => this (List.mem_append_left b h), fun h => this (List.mem_append_right a h)⟩

theorem fwd_self {ring : List Nat} {P : Nat → Bool} {p : Nat} (hn : ring.Nodup) (hp : p ∈ ring)
    (hP : P p)
    : fwd ring P p = 0 := by
  obtain ⟨a, b, rfl⟩ := List.append_of_mem hp
  rw [fwd, rotate_indexOf (not_mem_of_split hn).1, List.findIdx_cons, hP]; rfl

/-- Passing an entry without `P` brings a hand one step closer to the first entry with
`P`, when there is one. -/
theorem fwd_next {ring : List Nat} {P : Nat → Bool} {p : Nat} (hn : ring.Nodup) (hp : p ∈ ring)
    (hP : P p = false) (hex : ∃ q ∈ ring, P q)
    : fwd ring P (ringNext ring p) + 1 = fwd ring P p := by
  obtain ⟨a, b, rfl⟩ := List.append_of_mem hp
  obtain ⟨ha, hb⟩ := not_mem_of_split hn
  have hfwd : fwd (a ++ p :: b) P p = (b ++ a).findIdx P + 1 := by
    rw [fwd, rotate_indexOf ha, List.findIdx_cons, hP]; rfl
  obtain ⟨q, hq, hPq⟩ := hex
  have hq' : q ∈ b ++ a := by
    rcases List.mem_append.mp hq with h | h
    · exact List.mem_append_right b h
    · rcases List.mem_cons.mp h with rfl | h
      · simp [hP] at hPq
      · exact List.mem_append_left a h
  have hlt := List.findIdx_lt_length_of_exists ⟨q, hq', hPq⟩
  rw [hfwd, ringNext_append ha]
  cases b with
  | cons x b =>
      have hsplit : a ++ p :: x :: b = (a ++ [p]) ++ x :: b := by simp
      have hx := (not_mem_of_split (hsplit ▸ hn)).1
      rw [List.headD_cons, hsplit, fwd, rotate_indexOf hx,
        show x :: (b ++ (a ++ [p])) = (x :: b ++ a) ++ [p] by simp,
        List.findIdx_append, if_pos hlt]
  | nil =>
      cases a with
      | nil => simp at hq'
      | cons y a =>
          rw [List.headD_nil, List.cons_append, List.headD_cons, fwd, List.indexOf_cons_self,
            List.rotate_zero, ← List.cons_append, List.findIdx_append, if_pos (by simpa using hlt),
            List.nil_append]

namespace Shard

-----------------------------------------------------------------------------------------
-- The measure
-----------------------------------------------------------------------------------------

/-- How many more changes the hands can make to an entry: a referenced page becomes an
unreferenced hot page, an unreferenced hot page a cold one, an unreferenced cold page a
ghost, and a ghost is freed. -/
def rank (e : Entry) : Int :=
  match e.ptype with
  | etTest => 1
  | etCold => if e.referenced then 4 else 2
  | etHot => if e.referenced then 4 else 3

/-- The ranks of the entries on the ring. -/
def rankSum (c : Shard) : Int := c.tally rank

/-- Whether the entry at `q` has type `t`. -/
def typeIs (c : Shard) (t : EntryType) (q : Nat) : Bool := (c.arena q).map Entry.ptype == some t

/-- The distance from a hand to the first entry with `P`; none for a nil hand. -/
def handFwd (c : Shard) (P : Nat → Bool) : Option Nat → Nat
  | none => 0
  | some p => fwd c.blockLinks P p

/-- How far each hand is from the next entry it acts on: the cold hand from a cold page,
the test hand from a ghost, the hot hand from a hot page. -/
def handLag (c : Shard) : Nat :=
  c.handFwd (c.typeIs etCold) c.handCold + c.handFwd (c.typeIs etTest) c.handTest +
    c.handFwd (c.typeIs etHot) c.handHot

/-- How far the test hand is behind the cold hand, and the hot hand behind the test hand. -/
def handGap (c : Shard) : Nat :=
  c.handFwd (fun q => some q == c.handCold) c.handTest +
    c.handFwd (fun q => some q == c.handTest) c.handHot

/-- The potential of a shard whose ring has at most `L` entries: the ranks first, then the
hands' lags. -/
def potential (L : Nat) (c : Shard) : Int := c.rankSum * (3 * L + 1) + c.handLag

/-- The measure of a call at place `r` of the call graph: the potential first, then the
place, then the hands' gaps. Every hand step that changes an entry lowers its `rank`; one that
changes none moves a hand closer to the next entry it acts on (`handLag`). In the hot loop
with no hot page and `coldTarget` at the target, the hot and test hands pass cold pages and
`handGap` falls; that loop stops once `coldTarget` is below the target or the cold hand has
bytes to work on (`Spare`). -/
def callMeasure (L r : Nat) (c : Shard) : Int := (8 * c.potential L + r) * (2 * L + 1) + c.handGap

/-- The place of `runHandCold` in the call graph: below every other function when there
are cold pages for its hand, above the hot loop it runs when there are none. -/
def coldPlace (c : Shard) : Nat := if 0 < c.countCold then 0 else 5

/-- The hot loop of `runHandCold` can stop: `coldTarget` is below the target, or the ring
holds bytes. -/
def Spare (c : Shard) : Prop :=
  c.coldTarget < c.targetSize ∨ 0 < c.sizeHot + c.sizeCold + c.sizeTest

/-- What every call of the hands may assume: the representation invariant, `Spare`, and a
ring of at most `L` entries. -/
structure Ready (L : Nat) (c : Shard) : Prop where
  inv : c.Inv
  spare : c.Spare
  len : c.blockLinks.length ≤ L

theorem handFwd_le (c : Shard) (P : Nat → Bool) (h : Option Nat)
    : c.handFwd P h ≤ c.blockLinks.length := by
  cases h <;> simp only [handFwd, Nat.zero_le, fwd_le]

theorem handLag_le (c : Shard) : c.handLag ≤ 3 * c.blockLinks.length := by
  have := c.handFwd_le (c.typeIs etCold) c.handCold
  have := c.handFwd_le (c.typeIs etTest) c.handTest
  have := c.handFwd_le (c.typeIs etHot) c.handHot
  unfold handLag; omega

theorem handGap_le (c : Shard) : c.handGap ≤ 2 * c.blockLinks.length := by
  have := c.handFwd_le (fun q => some q == c.handCold) c.handTest
  have := c.handFwd_le (fun q => some q == c.handTest) c.handHot
  unfold handGap; omega

theorem rank_nonneg (e : Entry) : 0 ≤ rank e := by
  unfold rank; split <;> (try split) <;> omega

theorem rank_le (e : Entry) : rank e ≤ 4 := by
  unfold rank; split <;> (try split) <;> omega

theorem Inv.rankSum_nonneg {c : Shard} (hi : c.Inv) : 0 ≤ c.rankSum :=
  hi.tally_nonneg fun e _ => rank_nonneg e

theorem rankSum_le (c : Shard) : c.rankSum ≤ 4 * c.blockLinks.length := by
  have := List.sum_le_card_nsmul (c.blockLinks.map fun p => ((c.arena p).map rank).getD 0) 4
    fun x hx => by
      obtain ⟨q, -, rfl⟩ := List.mem_map.mp hx
      cases c.arena q <;> simp [rank_le]
  simpa [rankSum, tally, mul_comm] using this

/-- Lowering the rank sum lowers the potential, whatever it does to the hands' lags. -/
theorem potential_lt_of_rankSum_lt {L : Nat} {c c' : Shard} (hlen : c'.blockLinks.length ≤ L)
    (h : c'.rankSum < c.rankSum)
    : c'.potential L < c.potential L := by
  have hlag : (c'.handLag : Int) ≤ 3 * L := by have := c'.handLag_le; omega
  calc c'.rankSum * (3 * L + 1) + c'.handLag
      ≤ (c.rankSum - 1) * (3 * L + 1) + 3 * L :=
        add_le_add (Int.mul_le_mul_of_nonneg_right (by omega) (by omega)) hlag
    _ < c.rankSum * (3 * L + 1) + c.handLag := by
        have : (c.rankSum - 1) * (3 * L + 1) = c.rankSum * (3 * L + 1) - (3 * L + 1) := by ring
        omega

theorem callMeasure_lt_of_potential_lt {L r r' : Nat} {c c' : Shard}
    (hlen : c'.blockLinks.length ≤ L) (hr : r' < 8) (h : c'.potential L < c.potential L)
    : c'.callMeasure L r' < c.callMeasure L r := by
  have hgap : (c'.handGap : Int) ≤ 2 * L := by have := c'.handGap_le; omega
  calc (8 * c'.potential L + r') * (2 * L + 1) + c'.handGap
      ≤ (8 * c.potential L - 1) * (2 * L + 1) + 2 * L :=
        add_le_add (Int.mul_le_mul_of_nonneg_right (by omega) (by omega)) hgap
    _ < (8 * c.potential L + r) * (2 * L + 1) + c.handGap := by
        have : (8 * c.potential L - 1) * (2 * L + 1) =
            (8 * c.potential L + r) * (2 * L + 1) - (r + 1) * (2 * L + 1) := by ring
        have : (2 * L + 1 : Int) ≤ (r + 1) * (2 * L + 1) := by nlinarith
        omega

theorem callMeasure_lt_of_place_lt {L r r' : Nat} {c c' : Shard}
    (hlen : c'.blockLinks.length ≤ L) (hr : r' < r) (h : c'.potential L ≤ c.potential L)
    : c'.callMeasure L r' < c.callMeasure L r := by
  have hgap : (c'.handGap : Int) ≤ 2 * L := by have := c'.handGap_le; omega
  calc (8 * c'.potential L + r') * (2 * L + 1) + c'.handGap
      ≤ (8 * c.potential L + r - 1) * (2 * L + 1) + 2 * L :=
        add_le_add (Int.mul_le_mul_of_nonneg_right (by omega) (by omega)) hgap
    _ < (8 * c.potential L + r) * (2 * L + 1) + c.handGap := by
        have : (8 * c.potential L + r - 1) * (2 * L + 1) =
            (8 * c.potential L + r) * (2 * L + 1) - (2 * L + 1) := by ring
        omega

theorem callMeasure_lt_of_handGap_lt {L r : Nat} {c c' : Shard}
    (h : c'.potential L ≤ c.potential L) (hg : c'.handGap < c.handGap)
    : c'.callMeasure L r < c.callMeasure L r := by
  have := Int.mul_le_mul_of_nonneg_right (show 8 * c'.potential L + r ≤ 8 * c.potential L + r
    by omega) (show (0 : Int) ≤ 2 * L + 1 by omega)
  unfold callMeasure; omega

-----------------------------------------------------------------------------------------
-- Entries of a type
-----------------------------------------------------------------------------------------

/-- A positive count of type `t` has an entry of type `t` on the ring. -/
theorem exists_typeIs_of_pos {c : Shard} {t : EntryType} (h : 0 < c.tally (oneOf t))
    : ∃ q ∈ c.blockLinks, c.typeIs t q := by
  by_contra hn
  push_neg at hn
  have : c.tally (oneOf t) = 0 := List.sum_eq_zero fun x hx => by
    obtain ⟨q, hq, rfl⟩ := List.mem_map.mp hx
    have := hn q hq
    cases he : c.arena q <;> simp_all [typeIs, oneOf]
  omega

/-- An entry of type `t` on the ring counts one toward `t`. -/
theorem one_le_tally_oneOf {c : Shard} {t : EntryType} {q : Nat} {e : Entry}
    (hq : q ∈ c.blockLinks) (he : c.arena q = some e) (ht : e.ptype = t)
    : 1 ≤ c.tally (oneOf t) := by
  have := List.single_le_sum (l := c.blockLinks.map fun p => ((c.arena p).map (oneOf t)).getD 0)
    (fun x hx => by
      obtain ⟨q, -, rfl⟩ := List.mem_map.mp hx
      cases c.arena q <;> simp only [oneOf, Option.map_none', Option.map_some', Option.getD_none,
        Option.getD_some, le_refl]
      split <;> omega) _ (List.mem_map_of_mem _ hq)
  simpa [he, oneOf, ht] using this

/-- A zero count of type `t` leaves no entry of type `t` on the ring. -/
theorem typeIs_of_tally_eq_zero {c : Shard} {t : EntryType} (h : c.tally (oneOf t) = 0)
    : ∀ q ∈ c.blockLinks, c.typeIs t q = false := by
  intro q hq
  cases he : c.arena q with
  | none => simp [typeIs, he]
  | some e =>
      by_contra ht
      have := one_le_tally_oneOf hq he (by simpa [typeIs, he] using ht)
      omega

theorem tally_bytesOf_eq_zero {c : Shard} {t : EntryType}
    (h : ∀ q ∈ c.blockLinks, c.typeIs t q = false)
    : c.tally (bytesOf t) = 0 :=
  List.sum_eq_zero fun x hx => by
    obtain ⟨q, hq, rfl⟩ := List.mem_map.mp hx
    have := h q hq
    cases he : c.arena q <;> simp_all [typeIs, bytesOf]

/-- A ring with an entry carries every hand. -/
theorem Inv.handCold_of_ne {c : Shard} (hi : c.Inv) (h : c.blockLinks ≠ [])
    : ∃ p, c.handCold = some p := by
  have := hi.handCold
  cases hc : c.handCold with
  | none => rw [hc] at this; exact absurd this h
  | some p => exact ⟨p, rfl⟩

theorem Inv.handHot_of_ne {c : Shard} (hi : c.Inv) (h : c.blockLinks ≠ [])
    : ∃ p, c.handHot = some p := by
  have := hi.handHot
  cases hc : c.handHot with
  | none => rw [hc] at this; exact absurd this h
  | some p => exact ⟨p, rfl⟩

theorem Inv.handTest_of_ne {c : Shard} (hi : c.Inv) (h : c.blockLinks ≠ [])
    : ∃ p, c.handTest = some p := by
  have := hi.handTest
  cases hc : c.handTest with
  | none => rw [hc] at this; exact absurd this h
  | some p => exact ⟨p, rfl⟩

theorem ne_nil_of_tally_ne {c : Shard} {f : Entry → Int} (h : c.tally f ≠ 0)
    : c.blockLinks ≠ [] := fun hr => h (by simp [tally, hr])

-----------------------------------------------------------------------------------------
-- One hand step
-----------------------------------------------------------------------------------------

theorem rankSum_promote {c : Shard} {p : Nat} {e : Entry} (hi : c.Inv) (hand : c.handCold = some p)
    (found : c.arena p = some e) (cold : e.ptype = etCold) (ref : e.referenced = true)
    : (c.promote p e).rankSum = c.rankSum - 1 := by
  rw [promote_eq cold]
  show (c.setEntry p _).tally rank = _
  rw [tally_setEntry rank hi.nodup (hi.mem_of_handCold hand) found]
  simp only [rank, cold, ref, if_true, Bool.false_eq_true, if_false, rankSum]; ring

theorem rankSum_demote {c : Shard} {p : Nat} {e : Entry} (hi : c.Inv) (hand : c.handCold = some p)
    (found : c.arena p = some e) (cold : e.ptype = etCold) (ref : e.referenced = false)
    : (c.demote p e).rankSum = c.rankSum - 1 := by
  rw [demote_eq cold]
  show (c.setEntry p _).tally rank = _
  rw [tally_setEntry rank hi.nodup (hi.mem_of_handCold hand) found]
  simp only [rank, cold, ref, Bool.false_eq_true, if_false, rankSum]; ring

/-- The hot hand's step lowers the rank sum, or only moves the hand past an entry that is
not hot. -/
theorem Inv.hotStep_cases {c c' : Shard} (hi : c.Inv) (h : c.hotStep = .ok c')
    : ∃ p, c.handHot = some p ∧ (c'.rankSum = c.rankSum - 1 ∨
      c.typeIs etHot p = false ∧ c' = { c with handHot := c.next c.handHot }) := by
  obtain ⟨p, e, hand, he, d, rfl, rfl⟩ := hotStep_ok h
  have hp := hi.mem_of_handHot hand
  refine ⟨p, hand, ?_⟩
  split_ifs with hhot href
  · left
    show (c.setEntry p _).tally rank = _
    rw [tally_setEntry rank hi.nodup hp he]
    simp only [rank, hhot, href, if_true, Bool.false_eq_true, if_false, rankSum]; ring
  · left
    show (c.setEntry p _).tally rank = _
    rw [tally_setEntry rank hi.nodup hp he]
    simp only [rank, hhot, href, Bool.false_eq_true, if_false, rankSum]; ring
  · exact .inr ⟨by simp [typeIs, he, hhot], rfl⟩

/-- The test hand's step frees a ghost, lowering the rank sum, or only moves the hand past
an entry that is not a ghost. -/
theorem Inv.testStep_cases {c : Shard} {rc : Refs} {r : Shard × Refs} (hi : c.Inv)
    (h : c.testStep rc = .ok r)
    : ∃ p, c.handTest = some p ∧ (r.1.rankSum = c.rankSum - 1 ∨
      c.typeIs etTest p = false ∧ r = ({ c with handTest := c.next c.handTest }, rc)) := by
  obtain ⟨p, e, hand, he, ⟨test, d, hd, rfl⟩ | ⟨test, rfl⟩⟩ := testStep_ok h
  · refine ⟨p, hand, .inl ?_⟩
    have hp := hi.mem_of_handTest hand
    show d.tally rank = _
    rw [hd, tally_freeEntry rank (hi.nodup.not_mem_erase)]
    change (c.detach p e).tally rank = _
    rw [tally_detach rank hi.nodup hp he]
    simp [rank, test, rankSum]
  · exact ⟨p, hand, .inr ⟨by simp [typeIs, he, test], rfl⟩⟩

/-- No hand step raises the rank sum. -/
theorem Inv.rankSum_sweep {a b : Shard × Refs} (hi : a.1.Inv) (h : Sweep a b)
    : b.1.rankSum ≤ a.1.rankSum := by
  cases h <;> dsimp only at hi ⊢
  case promote hand found cold ref => rw [rankSum_promote hi hand found cold ref]; omega
  case demote hand found cold ref => rw [rankSum_demote hi hand found cold ref]; omega
  case advanceCold => exact le_rfl
  case hot step =>
    obtain ⟨p, -, h | ⟨-, rfl⟩⟩ := hi.hotStep_cases step
    · omega
    · exact le_rfl
  case test step =>
    obtain ⟨p, -, h | ⟨-, rfl⟩⟩ := hi.testStep_cases step
    · omega
    · exact le_rfl

theorem Inv.rankSum_sweeps {a b : Shard × Refs} (hi : a.1.Inv) (h : Sweeps a b)
    : b.1.rankSum ≤ a.1.rankSum := by
  induction h with
  | refl => exact le_rfl
  | tail hab step ih => exact ((hi.sweeps hab).rankSum_sweep step).trans ih

/-- No hand step breaks `Spare`: a freed ghost takes its size off the ring and off
`coldTarget` alike, and the other steps move bytes between the types. -/
theorem Inv.spare_sweep {a b : Shard × Refs} (hi : a.1.Inv) (h : Sweep a b) (hs : a.1.Spare)
    : b.1.Spare := by
  have ht := (Evolves.sweep h hi.toTallied).targetSize
  unfold Spare at hs ⊢
  rw [ht]
  cases h with
  | promote => simp only [Shard.promote, setEntry] at hs ⊢; omega
  | demote => simp only [Shard.demote, setEntry] at hs ⊢; omega
  | advanceCold => exact hs
  | hot step =>
    obtain ⟨p, e, -, -, d, rfl, rfl⟩ := hotStep_ok step
    dsimp only at hs ⊢
    split_ifs <;> (try simp only [setEntry]) <;> omega
  | @test c rc r step =>
    dsimp only at hi hs ⊢
    obtain ⟨p, e, hand, he, ⟨-, d, rfl, rfl⟩ | ⟨-, rfl⟩⟩ := testStep_ok step
    · have := hi.sizes p (hi.mem_of_handTest hand) e he
      have := hi.coldTarget
      have := c.targetSize_pos
      simp only [freeEntry_fst, Shard.detach] at hs ⊢
      split_ifs <;> omega
    · exact hs

/-- A run of the hands keeps every call `Ready`. -/
theorem Ready.sweeps {L : Nat} {a b : Shard × Refs} (h : Sweeps a b) (hr : Ready L a.1)
    : Ready L b.1 := by
  induction h with
  | refl => exact hr
  | tail hab step ih =>
      have hi' := ih.inv.sweep step
      exact ⟨hi', ih.inv.spare_sweep step ih.spare,
        (Evolves.sweep step ih.inv.toTallied).ring.length_le.trans ih.len⟩

-----------------------------------------------------------------------------------------
-- A hand moving past an entry it leaves alone
-----------------------------------------------------------------------------------------

/-- Moving a hand one place past an entry without `P`: its distance to `P` does not grow,
and falls when the ring has an entry with `P`. -/
theorem handFwd_next {c : Shard} {P : Nat → Bool} {p : Nat} (hn : c.blockLinks.Nodup)
    (hp : p ∈ c.blockLinks) (hP : P p = false)
    : c.handFwd P (c.next (some p)) ≤ c.handFwd P (some p) ∧
      ((∃ q ∈ c.blockLinks, P q) → c.handFwd P (c.next (some p)) < c.handFwd P (some p)) := by
  simp only [handFwd, next, Option.map_some']
  by_cases hex : ∃ q ∈ c.blockLinks, P q
  · have := fwd_next hn hp hP hex
    exact ⟨by omega, fun _ => by omega⟩
  · have hall : ∀ q ∈ c.blockLinks, P q = false := fun q hq => by
      simpa using fun h => hex ⟨q, hq, h⟩
    rw [fwd_of_forall hall, fwd_of_forall hall]
    exact ⟨le_rfl, fun h => absurd h hex⟩

section Hands

variable {c : Shard} {h : Option Nat}

theorem rankSum_withCold : rankSum { c with handCold := h } = c.rankSum := rfl
theorem rankSum_withHot : rankSum { c with handHot := h } = c.rankSum := rfl
theorem rankSum_withTest : rankSum { c with handTest := h } = c.rankSum := rfl

theorem handLag_withCold
    : handLag { c with handCold := h } =
      c.handFwd (c.typeIs etCold) h + c.handFwd (c.typeIs etTest) c.handTest +
        c.handFwd (c.typeIs etHot) c.handHot := rfl
theorem handLag_withHot
    : handLag { c with handHot := h } =
      c.handFwd (c.typeIs etCold) c.handCold + c.handFwd (c.typeIs etTest) c.handTest +
        c.handFwd (c.typeIs etHot) h := rfl
theorem handLag_withTest
    : handLag { c with handTest := h } =
      c.handFwd (c.typeIs etCold) c.handCold + c.handFwd (c.typeIs etTest) h +
        c.handFwd (c.typeIs etHot) c.handHot := rfl

theorem handGap_withHot
    : handGap { c with handHot := h } =
      c.handFwd (fun q => some q == c.handCold) c.handTest +
        c.handFwd (fun q => some q == c.handTest) h := rfl
theorem handGap_withTest
    : handGap { c with handTest := h } =
      c.handFwd (fun q => some q == c.handCold) h + c.handFwd (fun q => some q == h) c.handHot := rfl

end Hands

section Advance

variable {L : Nat} {c : Shard} {p : Nat} {h : Option Nat}

theorem potential_withCold
    : potential L { c with handCold := h } +
      c.handFwd (c.typeIs etCold) c.handCold = c.potential L + c.handFwd (c.typeIs etCold) h := by
  simp only [potential, rankSum_withCold, handLag_withCold]; unfold handLag; omega

theorem potential_withHot
    : potential L { c with handHot := h } +
      c.handFwd (c.typeIs etHot) c.handHot = c.potential L + c.handFwd (c.typeIs etHot) h := by
  simp only [potential, rankSum_withHot, handLag_withHot]; unfold handLag; omega

theorem potential_withTest
    : potential L { c with handTest := h } +
      c.handFwd (c.typeIs etTest) c.handTest = c.potential L + c.handFwd (c.typeIs etTest) h := by
  simp only [potential, rankSum_withTest, handLag_withTest]; unfold handLag; omega

/-- The cold hand moving past an entry that is not cold keeps the potential, and lowers it
when the ring has a cold page. -/
theorem Inv.potential_advanceCold (hi : c.Inv) (hand : c.handCold = some p)
    (ht : c.typeIs etCold p = false)
    : potential L { c with handCold := c.next c.handCold } ≤ c.potential L ∧
      (0 < c.countCold → potential L { c with handCold := c.next c.handCold } < c.potential L) := by
  obtain ⟨h1, h2⟩ := handFwd_next hi.nodup (hi.mem_of_handCold hand) ht
  have he := potential_withCold (L := L) (c := c) (h := c.next c.handCold)
  simp only [hand] at he ⊢
  refine ⟨by omega, fun hpos => ?_⟩
  have := h2 (exists_typeIs_of_pos (hi.countCold ▸ hpos))
  omega

theorem Inv.potential_advanceHot (hi : c.Inv) (hand : c.handHot = some p)
    (ht : c.typeIs etHot p = false)
    : potential L { c with handHot := c.next c.handHot } ≤ c.potential L ∧
      (0 < c.countHot → potential L { c with handHot := c.next c.handHot } < c.potential L) := by
  obtain ⟨h1, h2⟩ := handFwd_next hi.nodup (hi.mem_of_handHot hand) ht
  have he := potential_withHot (L := L) (c := c) (h := c.next c.handHot)
  simp only [hand] at he ⊢
  refine ⟨by omega, fun hpos => ?_⟩
  have := h2 (exists_typeIs_of_pos (hi.countHot ▸ hpos))
  omega

theorem Inv.potential_advanceTest (hi : c.Inv) (hand : c.handTest = some p)
    (ht : c.typeIs etTest p = false)
    : potential L { c with handTest := c.next c.handTest } ≤ c.potential L ∧
      (0 < c.countTest → potential L { c with handTest := c.next c.handTest } < c.potential L) := by
  obtain ⟨h1, h2⟩ := handFwd_next hi.nodup (hi.mem_of_handTest hand) ht
  have he := potential_withTest (L := L) (c := c) (h := c.next c.handTest)
  simp only [hand] at he ⊢
  refine ⟨by omega, fun hpos => ?_⟩
  have := h2 (exists_typeIs_of_pos (hi.countTest ▸ hpos))
  omega

/-- The hot hand moving on while the test hand stays elsewhere closes the gap between
them. -/
theorem Inv.handGap_advanceHot {t : Nat} (hi : c.Inv) (hH : c.handHot = some p)
    (hT : c.handTest = some t) (hne : p ≠ t)
    : handGap { c with handHot := c.next c.handHot } < c.handGap := by
  have key := fwd_next (P := fun q => some q == c.handTest) hi.nodup (hi.mem_of_handHot hH)
    (by simp [hT, hne]) ⟨t, hi.mem_of_handTest hT, by simp [hT]⟩
  rw [handGap_withHot]
  simp only [handGap, hH, next, Option.map_some', handFwd] at key ⊢
  omega

/-- The test hand and then the hot hand moving on together, from one entry that is not
under the cold hand, close the gap between the test hand and the cold hand. -/
theorem Inv.handGap_advanceBoth {q : Nat} (hi : c.Inv) (hH : c.handHot = some p)
    (hT : c.handTest = some p) (hC : c.handCold = some q) (hne : p ≠ q)
    : handGap { ({ c with handTest := c.next c.handTest } : Shard) with
      handHot := ({ c with handTest := c.next c.handTest } : Shard).next c.handHot } <
      c.handGap := by
  have hp := hi.mem_of_handHot hH
  have key := fwd_next (P := fun x => some x == c.handCold) hi.nodup hp (by simp [hC, hne])
    ⟨q, hi.mem_of_handCold hC, by simp [hC]⟩
  have h0 : fwd c.blockLinks (fun x => some x == some (ringNext c.blockLinks p))
      (ringNext c.blockLinks p) = 0 := fwd_self hi.nodup (ringNext_mem hp) (by simp)
  have h1 : fwd c.blockLinks (fun x => some x == some p) p = 0 := fwd_self hi.nodup hp (by simp)
  rw [handGap_withHot]
  simp only [handGap, hH, hT, next, Option.map_some', handFwd] at key h0 h1 ⊢
  omega

end Advance

/-- The hot hand's step never raises the potential, and lowers it when the ring has a hot
page. -/
theorem Ready.potential_hotStep {L : Nat} {c c' : Shard} (hr : Ready L c) (h : c.hotStep = .ok c')
    : c'.potential L ≤ c.potential L ∧ (0 < c.countHot → c'.potential L < c.potential L) := by
  obtain ⟨p, hand, hs | ⟨ht, rfl⟩⟩ := hr.inv.hotStep_cases h
  · have := @potential_lt_of_rankSum_lt _ c c'
      (Ready.sweeps (b := (c', (fun _ => 0 : Refs))) (.single (.hot h)) hr).len (by omega)
    exact ⟨this.le, fun _ => this⟩
  · exact hr.inv.potential_advanceHot hand ht

/-- The test hand's step never raises the potential, and lowers it when the ring has a
ghost. -/
theorem Ready.potential_testStep {L : Nat} {c : Shard} {rc : Refs} {r : Shard × Refs}
    (hr : Ready L c) (h : c.testStep rc = .ok r)
    : r.1.potential L ≤ c.potential L ∧ (0 < c.countTest → r.1.potential L < c.potential L) := by
  obtain ⟨p, hand, hs | ⟨ht, rfl⟩⟩ := hr.inv.testStep_cases h
  · have := potential_lt_of_rankSum_lt (c := c) (Ready.sweeps (.single (.test h)) hr).len (by omega)
    exact ⟨this.le, fun _ => this⟩
  · exact hr.inv.potential_advanceTest hand ht

/-- A hand on the ring of a shard with the invariant takes its step. -/
theorem Inv.hotStep_exists {c : Shard} (hi : c.Inv) (h : c.handHot.isSome)
    : ∃ c', c.hotStep = .ok c' := by
  obtain ⟨p, hp⟩ := Option.isSome_iff_exists.mp h
  obtain ⟨e, he⟩ := Option.isSome_iff_exists.mp (hi.live p (hi.mem_of_handHot hp))
  exact ⟨_, bind_eq_ok.mpr ⟨(p, e), by simp [deref, entry, hp, he, Except.map], rfl⟩⟩

theorem Inv.testStep_exists {c : Shard} (hi : c.Inv) (h : c.handTest.isSome) (rc : Refs)
    : ∃ r, c.testStep rc = .ok r := by
  obtain ⟨p, hp⟩ := Option.isSome_iff_exists.mp h
  obtain ⟨e, he⟩ := Option.isSome_iff_exists.mp (hi.live p (hi.mem_of_handTest hp))
  unfold Shard.testStep
  by_cases ht : e.ptype = etTest <;>
    simp [deref, entry, metaDel, hp, he, ht, Except.map, bind, Except.bind, pure, Except.pure]

theorem Inv.spare_of_le {c : Shard} (hi : c.Inv) (h : c.targetSize ≤ c.sizeHot + c.sizeCold)
    : c.Spare := by
  have := c.targetSize_pos
  have : 0 ≤ c.sizeTest := hi.sizeTest ▸ hi.tally_nonneg fun e he => by
    unfold bytesOf; split <;> omega
  exact .inr (by omega)

theorem Inv.callMeasure_nonneg {L r : Nat} {c : Shard} (hi : c.Inv) : 0 ≤ c.callMeasure L r := by
  have := hi.rankSum_nonneg
  have : 0 ≤ c.potential L := by unfold potential; positivity
  unfold callMeasure; positivity

-----------------------------------------------------------------------------------------
-- The six functions return
-----------------------------------------------------------------------------------------

section Returns

variable (L : Nat)

/-- What the six functions of the hands give on fuel `n`, for a ring of at most `L`
entries and a call below its measure: a result, and what the call did to the potential. -/
structure Returns (n : Nat) : Prop where
  evict : ∀ (c : Shard) rc, c.Inv → c.blockLinks.length ≤ L → c.callMeasure L 6 < n →
    ∃ r, evict n c rc = .ok r
  cold : ∀ (c : Shard) rc, Ready L c → (0 < c.countCold ∨ c.targetSize ≤ c.sizeHot + c.sizeCold) →
    c.callMeasure L c.coldPlace < n →
    ∃ r, runHandCold n c rc c.countCold c.sizeCold = .ok r ∧ r.1.potential L < c.potential L
  testLoop : ∀ (c : Shard) rc, Ready L c → c.callMeasure L 2 < n →
    ∃ r, runHandColdTestLoop n c rc = .ok r ∧ r.1.potential L ≤ c.potential L
  hotLoop : ∀ (c : Shard) rc, Ready L c → c.callMeasure L 3 < n →
    ∃ r, runHandColdHotLoop n c rc = .ok r ∧ r.1.potential L ≤ c.potential L ∧
      (c.targetSize - c.coldTarget ≤ c.sizeHot → c.handHot.isSome → 0 < c.countHot →
        r.1.potential L < c.potential L)
  hot : ∀ (c : Shard) rc, Ready L c → c.handHot.isSome →
    c.targetSize - c.coldTarget ≤ c.sizeHot → c.callMeasure L 2 < n →
    ∃ r, runHandHot n c rc = .ok r ∧ r.1.potential L ≤ c.potential L ∧
      (r.1.potential L < c.potential L ∨ r.1.handGap < c.handGap) ∧
      (0 < c.countHot → r.1.potential L < c.potential L)
  test : ∀ (c : Shard) rc, Ready L c → c.handTest.isSome → c.callMeasure L 1 < n →
    ∃ r, runHandTest n c rc = .ok r ∧ r.1.potential L ≤ c.potential L ∧
      (r.1.potential L < c.potential L ∨ c.countTest = 0 ∧
        ¬(0 < c.sizeCold ∧ c.handTest = c.handCold ∧ c.handCold.isSome) ∧
        r = ({ c with handTest := c.next c.handTest }, rc))

variable {L}

theorem Returns.zero : Returns L 0 where
  evict c _ hi _ hm := absurd hm (by have := hi.callMeasure_nonneg (L := L) (r := 6); omega)
  cold c _ hr _ hm := absurd hm (by have := hr.inv.callMeasure_nonneg (L := L) (r := c.coldPlace); omega)
  testLoop c _ hr hm := absurd hm (by have := hr.inv.callMeasure_nonneg (L := L) (r := 2); omega)
  hotLoop c _ hr hm := absurd hm (by have := hr.inv.callMeasure_nonneg (L := L) (r := 3); omega)
  hot c _ hr _ _ hm := absurd hm (by have := hr.inv.callMeasure_nonneg (L := L) (r := 2); omega)
  test c _ hr _ hm := absurd hm (by have := hr.inv.callMeasure_nonneg (L := L) (r := 1); omega)

variable {n : Nat}

/-- `evict` runs the cold hand, which lowers the potential, and goes round again. -/
theorem Returns.evict_succ (ih : Returns L n) (c : Shard) (rc : Refs) (hi : c.Inv)
    (hlen : c.blockLinks.length ≤ L) (hm : c.callMeasure L 6 < (n + 1 : Nat))
    : ∃ r, Shard.evict (n + 1) c rc = .ok r := by
  rw [Shard.evict]
  split
  next hg =>
    have hr : Ready L c := ⟨hi, hi.spare_of_le hg.1, hlen⟩
    have hplace : c.coldPlace < 6 := by unfold coldPlace; split <;> omega
    obtain ⟨⟨c1, rc1⟩, h1, hp1⟩ := ih.cold c rc hr (.inr hg.1)
      (by have := callMeasure_lt_of_place_lt hlen hplace le_rfl; omega)
    have hr1 : Ready L c1 := Ready.sweeps ((sweeps_of_runs n).2.1 c rc _ _ _ h1) hr
    dsimp only at hp1
    obtain ⟨r, h2⟩ := ih.evict c1 rc1 hr1.inv hr1.len
      (by have := @callMeasure_lt_of_potential_lt _ 6 6 _ _ hr1.len (by omega) hp1; omega)
    exact ⟨r, bind_eq_ok.mpr ⟨_, h1, h2⟩⟩
  next => exact ⟨_, rfl⟩

/-- A ring with resident bytes is not empty. -/
theorem Inv.ne_nil_of_resident {c : Shard} (hi : c.Inv) (h : 0 < c.sizeHot + c.sizeCold)
    : c.blockLinks ≠ [] := fun hnil => by
  have h1 : c.sizeHot = 0 := by rw [hi.sizeHot]; simp [tally, hnil]
  have h2 : c.sizeCold = 0 := by rw [hi.sizeCold]; simp [tally, hnil]
  omega

/-- `runHandCold` lowers the potential: it changes the cold page under its hand or moves the
hand closer to one; with no cold page at all, the hot bytes reach the target and the hot
loop it runs lowers the potential. -/
theorem Returns.cold_succ (ih : Returns L n) (c : Shard) (rc : Refs) (hr : Ready L c)
    (hpre : 0 < c.countCold ∨ c.targetSize ≤ c.sizeHot + c.sizeCold)
    (hm : c.callMeasure L c.coldPlace < (n + 1 : Nat))
    : ∃ r, runHandCold (n + 1) c rc c.countCold c.sizeCold = .ok r ∧
      r.1.potential L < c.potential L := by
  have hi := hr.inv
  have hpos := c.targetSize_pos
  have hne : c.blockLinks ≠ [] := by
    rcases hpre with h | h
    · exact ne_nil_of_tally_ne (f := oneOf etCold) (by rw [← hi.countCold]; omega)
    · exact hi.ne_nil_of_resident (by omega)
  obtain ⟨p, hand⟩ := hi.handCold_of_ne hne
  obtain ⟨e, he⟩ := Option.isSome_iff_exists.mp (hi.live p (hi.mem_of_handCold hand))
  have hd : c.deref c.handCold = .ok (p, e) := by simp [deref, entry, hand, he, Except.map]
  rw [runHandCold, if_neg (by simp)]
  by_cases hcold : e.ptype = etCold
  · have hcc : 0 < c.countCold := by
      rw [hi.countCold]; exact one_le_tally_oneOf (hi.mem_of_handCold hand) he hcold
    have hplace : c.coldPlace = 0 := by simp [coldPlace, hcc]
    by_cases href : e.referenced = true
    · -- a referenced cold page turns hot
      have st : Sweeps (c, rc) ({ c.promote p e with
          handCold := (c.promote p e).next (c.promote p e).handCold }, rc) :=
        .head (.promote hand he hcold href) (.single .advanceCold)
      have hr2 := Ready.sweeps st hr
      have hlt := potential_lt_of_rankSum_lt (c := c) hr2.len
        (by dsimp only; rw [rankSum_withCold, rankSum_promote hi hand he hcold href]; omega)
      obtain ⟨r, h, hp, -⟩ := ih.hotLoop _ rc hr2
        (by have := @callMeasure_lt_of_potential_lt _ c.coldPlace 3 _ _ hr2.len
              (by omega) hlt; omega)
      refine ⟨r, bind_eq_ok.mpr ⟨(p, e), hd, ?_⟩, lt_of_le_of_lt hp hlt⟩
      dsimp only
      rw [if_pos hcold, if_pos href]
      exact bind_eq_ok.mpr ⟨_, rfl, h⟩
    · -- an unreferenced cold page becomes a ghost, and the test loop runs
      have href' : e.referenced = false := by simpa using href
      have st1 : Sweeps (c, rc) (c.demote p e, release rc e.val) :=
        .single (.demote hand he hcold href')
      have hr1 := Ready.sweeps st1 hr
      have hlt1 := potential_lt_of_rankSum_lt (c := c) hr1.len
        (by dsimp only; rw [rankSum_demote hi hand he hcold href']; omega)
      obtain ⟨⟨c3, rc3⟩, h3, -⟩ := ih.testLoop _ _ hr1
        (by have := @callMeasure_lt_of_potential_lt _ c.coldPlace 2 _ _ hr1.len
              (by omega) hlt1; omega)
      have st3 := (sweeps_of_runs n).2.2.1 _ _ _ h3
      have hrank := hr1.inv.rankSum_sweeps st3
      rw [rankSum_demote hi hand he hcold href'] at hrank
      have st4 : Sweeps (c, rc) ({ c3 with handCold := c3.next c3.handCold }, rc3) :=
        (st1.trans st3).tail .advanceCold
      have hr4 := Ready.sweeps st4 hr
      have hlt4 := potential_lt_of_rankSum_lt (c := c) hr4.len
        (by dsimp only at hrank ⊢; rw [rankSum_withCold]; omega)
      obtain ⟨r, h, hp, -⟩ := ih.hotLoop _ rc3 hr4
        (by have := @callMeasure_lt_of_potential_lt _ c.coldPlace 3 _ _ hr4.len
              (by omega) hlt4; omega)
      refine ⟨r, bind_eq_ok.mpr ⟨(p, e), hd, ?_⟩, lt_of_le_of_lt hp hlt4⟩
      dsimp only
      rw [if_pos hcold, if_neg href]
      exact bind_eq_ok.mpr ⟨_, h3, h⟩
  · -- the hand passes an entry that is not cold
    obtain ⟨hle, hlt⟩ := hi.potential_advanceCold (L := L) hand (by simp [typeIs, he, hcold])
    have hr2 : Ready L { c with handCold := c.next c.handCold } := Ready.sweeps (b := (_, rc))
      (.single .advanceCold) hr
    have hm2 : callMeasure L 3 { c with handCold := c.next c.handCold } < n := by
      by_cases hcc : 0 < c.countCold
      · have := @callMeasure_lt_of_potential_lt _ c.coldPlace 3 _ _ hr2.len (by omega)
          (hlt hcc)
        omega
      · have : c.coldPlace = 5 := by simp [coldPlace, hcc]
        have := @callMeasure_lt_of_place_lt _ c.coldPlace 3 _ _ hr2.len (by omega) hle
        omega
    obtain ⟨r, h, hp, hstrict⟩ := ih.hotLoop _ rc hr2 hm2
    refine ⟨r, bind_eq_ok.mpr ⟨(p, e), hd, ?_⟩, ?_⟩
    · dsimp only
      rw [if_neg hcold]
      exact bind_eq_ok.mpr ⟨_, rfl, h⟩
    · by_cases hcc : 0 < c.countCold
      · exact lt_of_le_of_lt hp (hlt hcc)
      · have hc0 : c.tally (oneOf etCold) = 0 := by
          have := hi.tally_nonneg (f := oneOf etCold) fun e _ => by unfold oneOf; split <;> omega
          rw [← hi.countCold] at this ⊢; omega
        have hsc : c.sizeCold = 0 := hi.sizeCold ▸ tally_bytesOf_eq_zero (typeIs_of_tally_eq_zero hc0)
        have hsh : c.targetSize ≤ c.sizeHot := by omega
        have hct := hi.coldTarget
        obtain ⟨q, hq⟩ := hi.handHot_of_ne hne
        exact lt_of_lt_of_le (hstrict (show c.targetSize - c.coldTarget ≤ c.sizeHot by omega) (by simp [hq])
          (by rw [hi.countHot]; exact hi.count_pos etHot (by rw [← hi.sizeHot]; omega))) hle

/-- The test loop runs the test hand while the ghosts exceed the target; each run lowers
the potential, since there are ghosts. -/
theorem Returns.testLoop_succ (ih : Returns L n) (c : Shard) (rc : Refs) (hr : Ready L c)
    (hm : c.callMeasure L 2 < (n + 1 : Nat))
    : ∃ r, runHandColdTestLoop (n + 1) c rc = .ok r ∧ r.1.potential L ≤ c.potential L := by
  rw [runHandColdTestLoop]
  split
  next hg =>
    obtain ⟨⟨c1, rc1⟩, h1, -, hcase⟩ := ih.test c rc hr hg.2
      (by have := @callMeasure_lt_of_place_lt _ 2 1 _ _ hr.len (by omega) le_rfl; omega)
    have hct : 0 < c.countTest := by
      have := c.targetSize_pos
      rw [hr.inv.countTest]; exact hr.inv.count_pos etTest (by rw [← hr.inv.sizeTest]; omega)
    have hlt1 : c1.potential L < c.potential L := hcase.resolve_right fun ⟨h0, _⟩ => by omega
    have hr1 : Ready L c1 := Ready.sweeps ((sweeps_of_runs n).2.2.2.2.2 _ _ _ h1) hr
    obtain ⟨r, h2, hp2⟩ := ih.testLoop c1 rc1 hr1
      (by have := @callMeasure_lt_of_potential_lt _ 2 2 _ _ hr1.len (by omega) hlt1; omega)
    exact ⟨r, bind_eq_ok.mpr ⟨_, h1, h2⟩, by omega⟩
  next => exact ⟨_, rfl, le_rfl⟩

/-- The hot loop runs the hot hand while the hot bytes exceed `targetSize - coldTarget`;
each run lowers the potential or, failing that, the hands' gaps. -/
theorem Returns.hotLoop_succ (ih : Returns L n) (c : Shard) (rc : Refs) (hr : Ready L c)
    (hm : c.callMeasure L 3 < (n + 1 : Nat))
    : ∃ r, runHandColdHotLoop (n + 1) c rc = .ok r ∧ r.1.potential L ≤ c.potential L ∧
      (c.targetSize - c.coldTarget ≤ c.sizeHot → c.handHot.isSome → 0 < c.countHot →
        r.1.potential L < c.potential L) := by
  rw [runHandColdHotLoop]
  split
  next hg =>
    obtain ⟨⟨c1, rc1⟩, h1, hle1, hdec, hstrict⟩ := ih.hot c rc hr hg.2 hg.1
      (by have := @callMeasure_lt_of_place_lt _ 3 2 _ _ hr.len (by omega) le_rfl; omega)
    dsimp only at hle1 hdec hstrict
    have hr1 : Ready L c1 := Ready.sweeps ((sweeps_of_runs n).2.2.2.2.1 _ _ _ h1) hr
    have hm1 : c1.callMeasure L 3 < n := by
      rcases hdec with hlt | hgap
      · have := @callMeasure_lt_of_potential_lt _ 3 3 _ _ hr1.len (by omega) hlt; omega
      · have := callMeasure_lt_of_handGap_lt (r := 3) hle1 hgap; omega
    obtain ⟨r, h2, hp2, -⟩ := ih.hotLoop c1 rc1 hr1 hm1
    exact ⟨r, bind_eq_ok.mpr ⟨_, h1, h2⟩, by omega, fun _ _ hch => by have := hstrict hch; omega⟩
  next hg => exact ⟨_, rfl, le_rfl, fun h1 h2 _ => absurd ⟨h1, h2⟩ hg⟩

/-- `runHandTest` never raises the potential. It lowers it, unless there is no ghost and it
only moved the test hand; the cold hand it may run first lowers it. -/
theorem Returns.test_succ (ih : Returns L n) (c : Shard) (rc : Refs) (hr : Ready L c)
    (hT : c.handTest.isSome) (hm : c.callMeasure L 1 < (n + 1 : Nat))
    : ∃ r, runHandTest (n + 1) c rc = .ok r ∧ r.1.potential L ≤ c.potential L ∧
      (r.1.potential L < c.potential L ∨ c.countTest = 0 ∧
        ¬(0 < c.sizeCold ∧ c.handTest = c.handCold ∧ c.handCold.isSome) ∧
        r = ({ c with handTest := c.next c.handTest }, rc)) := by
  have hi := hr.inv
  rw [runHandTest]
  split
  next hg =>
    have hcc : 0 < c.countCold := by
      rw [hi.countCold]; exact hi.count_pos etCold (by rw [← hi.sizeCold]; exact hg.1)
    rw [if_neg (by omega)]
    have hplace : c.coldPlace = 0 := by simp [coldPlace, hcc]
    obtain ⟨⟨c1, rc1⟩, h1, hlt1⟩ := ih.cold c rc hr (.inl hcc)
      (by have := @callMeasure_lt_of_place_lt _ 1 c.coldPlace _ _ hr.len (by omega)
            le_rfl; omega)
    dsimp only at hlt1
    have hr1 : Ready L c1 := Ready.sweeps ((sweeps_of_runs n).2.1 _ _ _ _ _ h1) hr
    by_cases hn : c1.handTest.isNone
    · refine ⟨(c1, rc1), bind_eq_ok.mpr ⟨_, h1, ?_⟩, hlt1.le, .inl hlt1⟩
      dsimp only; rw [if_pos hn]; rfl
    · obtain ⟨r, h2⟩ := hr1.inv.testStep_exists
        (by simpa [Option.isSome_iff_ne_none] using hn) rc1
      have := (hr1.potential_testStep h2).1
      refine ⟨r, bind_eq_ok.mpr ⟨_, h1, ?_⟩, by omega, .inl (by omega)⟩
      dsimp only; rw [if_neg hn]; exact h2
  next hg =>
    obtain ⟨r, h⟩ := hi.testStep_exists hT rc
    refine ⟨r, h, (hr.potential_testStep h).1, ?_⟩
    obtain ⟨p, hand, hs | ⟨ht, rfl⟩⟩ := hi.testStep_cases h
    · exact .inl (potential_lt_of_rankSum_lt (c := c) (Ready.sweeps (.single (.test h)) hr).len
        (by omega))
    · by_cases hct : 0 < c.countTest
      · exact .inl ((hi.potential_advanceTest hand ht).2 hct)
      · have : 0 ≤ c.countTest := hi.countTest ▸ hi.tally_nonneg fun e _ => by
          unfold oneOf; split <;> omega
        exact .inr ⟨by omega, hg, rfl⟩

/-- `runHandHot` never raises the potential and lowers it when there is a hot page. With no
hot page the hot loop's guard puts `coldTarget` at the target, so `Spare` leaves bytes on the
ring: the hot hand passes a page that is not hot and closes its gap to the test hand, or the
two hands pass such a page together and close the test hand's gap to the cold hand. -/
theorem Returns.hot_succ (ih : Returns L n) (c : Shard) (rc : Refs) (hr : Ready L c)
    (hH : c.handHot.isSome) (hg : c.targetSize - c.coldTarget ≤ c.sizeHot)
    (hm : c.callMeasure L 2 < (n + 1 : Nat))
    : ∃ r, runHandHot (n + 1) c rc = .ok r ∧ r.1.potential L ≤ c.potential L ∧
      (r.1.potential L < c.potential L ∨ r.1.handGap < c.handGap) ∧
      (0 < c.countHot → r.1.potential L < c.potential L) := by
  have hi := hr.inv
  obtain ⟨p, hp⟩ := Option.isSome_iff_exists.mp hH
  have hne : c.blockLinks ≠ [] := List.ne_nil_of_mem (hi.mem_of_handHot hp)
  rw [runHandHot]
  split
  next hc =>
    -- the test hand goes first
    obtain ⟨⟨c1, rc1⟩, h1, hle1, hcase⟩ := ih.test c rc hr hc.2
      (by have := @callMeasure_lt_of_place_lt _ 2 1 _ _ hr.len (by omega) le_rfl; omega)
    dsimp only at hle1 hcase
    have hr1 : Ready L c1 := Ready.sweeps ((sweeps_of_runs n).2.2.2.2.2 _ _ _ h1) hr
    rcases hcase with hlt1 | ⟨hct0, hnot, heq⟩
    · by_cases hn : c1.handHot.isNone
      · refine ⟨(c1, rc1), bind_eq_ok.mpr ⟨_, h1, ?_⟩, hlt1.le, .inl hlt1, fun _ => hlt1⟩
        dsimp only; rw [if_pos hn]; rfl
      · obtain ⟨c2, h2⟩ := hr1.inv.hotStep_exists
          (by simpa [Option.isSome_iff_ne_none] using hn)
        have := (hr1.potential_hotStep h2).1
        refine ⟨(c2, rc1), bind_eq_ok.mpr ⟨_, h1, ?_⟩, by dsimp only; omega,
          .inl (by dsimp only; omega), fun _ => by dsimp only; omega⟩
        dsimp only; rw [if_neg hn]; exact bind_eq_ok.mpr ⟨(), rfl, bind_eq_ok.mpr ⟨c2, h2, rfl⟩⟩
    · -- the test hand only moved
      obtain ⟨hc1, hrc1⟩ := Prod.mk.inj heq
      subst c1 rc1
      obtain ⟨c2, h2⟩ := hr1.inv.hotStep_exists hH
      obtain ⟨hle2, hlt2⟩ := hr1.potential_hotStep h2
      have hn : ¬(({ c with handTest := c.next c.handTest } : Shard).handHot.isNone = true) := by
        simp [hp]
      refine ⟨(c2, rc), bind_eq_ok.mpr ⟨_, h1, ?_⟩, by dsimp only; omega, ?_,
        fun hch => by dsimp only; have := hlt2 hch; omega⟩
      · dsimp only; rw [if_neg hn]; exact bind_eq_ok.mpr ⟨(), rfl, bind_eq_ok.mpr ⟨c2, h2, rfl⟩⟩
      · dsimp only
        by_cases hch : 0 < c.countHot
        · exact .inl (by have := hlt2 hch; omega)
        · have hc0 : c.tally (oneOf etHot) = 0 := by
            have := hi.tally_nonneg (f := oneOf etHot) fun e _ => by unfold oneOf; split <;> omega
            rw [← hi.countHot] at this ⊢; omega
          have hsH : c.sizeHot = 0 := hi.sizeHot ▸ tally_bytesOf_eq_zero (typeIs_of_tally_eq_zero hc0)
          have hsT : c.sizeTest = 0 :=
            hi.sizeTest ▸ tally_bytesOf_eq_zero (typeIs_of_tally_eq_zero (hi.countTest ▸ hct0))
          have hct := hi.coldTarget
          have hsC : 0 < c.sizeCold := by rcases hr.spare with h | h <;> omega
          obtain ⟨q, hq⟩ := hi.handCold_of_ne hne
          have hpt : c.handTest = some p := hc.1 ▸ hp
          have hpq : p ≠ q := fun h => hnot ⟨hsC, by rw [hpt, hq, h], by simp [hq]⟩
          obtain ⟨-, -, hs | ⟨-, rfl⟩⟩ := hr1.inv.hotStep_cases h2
          · exact .inl (@potential_lt_of_rankSum_lt _ c c2
              (Ready.sweeps (b := (c2, rc)) (.single (.hot h2)) hr1).len
              (by rw [hs, rankSum_withTest]; omega))
          · exact .inr (hi.handGap_advanceBoth hp hpt hq hpq)
  next hc =>
    obtain ⟨c2, h2⟩ := hi.hotStep_exists hH
    obtain ⟨hle2, hlt2⟩ := hr.potential_hotStep h2
    refine ⟨(c2, rc), bind_eq_ok.mpr ⟨c2, h2, rfl⟩, hle2, ?_, hlt2⟩
    by_cases hch : 0 < c.countHot
    · exact .inl (hlt2 hch)
    · obtain ⟨-, -, hs | ⟨-, rfl⟩⟩ := hi.hotStep_cases h2
      · exact .inl (@potential_lt_of_rankSum_lt _ c c2
          (Ready.sweeps (b := (c2, rc)) (.single (.hot h2)) hr).len (by omega))
      · obtain ⟨t, ht⟩ := hi.handTest_of_ne hne
        exact .inr (hi.handGap_advanceHot hp ht fun h => hc ⟨by rw [hp, ht, h], by simp [ht]⟩)

theorem Returns.succ (ih : Returns L n) : Returns L (n + 1) where
  evict := ih.evict_succ
  cold := ih.cold_succ
  testLoop := ih.testLoop_succ
  hotLoop := ih.hotLoop_succ
  hot := ih.hot_succ
  test := ih.test_succ

/-- The six functions return on every fuel above their measure, by induction on the fuel:
each call they make is on one unit less and below a smaller measure. -/
theorem returns (L n : Nat) : Returns L n := by
  induction n with
  | zero => exact .zero
  | succ n ih => exact ih.succ

end Returns

-----------------------------------------------------------------------------------------
-- Eviction returns
-----------------------------------------------------------------------------------------

/-- A fuel that suffices for `evict` on every ring of at most `L` entries: the measure of
`evict` is below it. -/
def evictFuel (L : Nat) : Nat :=
  (8 * (4 * L * (3 * L + 1) + 3 * L) + 6) * (2 * L + 1) + 2 * L + 1

theorem callMeasure_lt_evictFuel {L : Nat} {c : Shard} (hlen : c.blockLinks.length ≤ L)
    : c.callMeasure L 6 < evictFuel L := by
  have hR : c.rankSum ≤ 4 * L := by have := c.rankSum_le; omega
  have hlag : (c.handLag : Int) ≤ 3 * L := by have := c.handLag_le; omega
  have hgap : (c.handGap : Int) ≤ 2 * L := by have := c.handGap_le; omega
  have hpot : c.potential L ≤ 4 * L * (3 * L + 1) + 3 * L := by
    have := Int.mul_le_mul_of_nonneg_right hR (show (0 : Int) ≤ 3 * L + 1 by omega)
    unfold potential; omega
  have := Int.mul_le_mul_of_nonneg_right
    (show 8 * c.potential L + 6 ≤ 8 * (4 * L * (3 * L + 1) + 3 * L) + 6 by omega)
    (show (0 : Int) ≤ 2 * L + 1 by omega)
  unfold callMeasure evictFuel; push_cast; omega

/-- `evict` returns from every shard with the representation invariant, whatever its ring,
entry sizes (zero included), referenced bits and hand positions, on any fuel from
`evictFuel` of a bound on the ring's length: it reads no nil hand and no freed entry. -/
theorem Inv.evict_returns {L n : Nat} {c : Shard} (hi : c.Inv) (hlen : c.blockLinks.length ≤ L)
    (hn : evictFuel L ≤ n) (rc : Refs)
    : ∃ c' rc', c.evict n rc = .ok (c', rc') :=
  let ⟨⟨c', rc'⟩, h⟩ := (returns L n).evict c rc hi hlen
    (by have := callMeasure_lt_evictFuel (c := c) hlen; omega)
  ⟨c', rc', h⟩

/-- Termination of eviction, with the fuel bound `evictFuel`: `evict` returns, and what it
returns keeps the invariant and the target and holds resident bytes below the target. -/
theorem evict_terminates {L n : Nat} {c : Shard} (hi : c.Inv) (hlen : c.blockLinks.length ≤ L)
    (hn : evictFuel L ≤ n) (rc : Refs)
    : ∃ c' rc', c.evict n rc = .ok (c', rc') ∧ c'.Inv ∧ c'.targetSize = c.targetSize ∧
      c'.sizeHot + c'.sizeCold < c'.targetSize :=
  let ⟨c', rc', h⟩ := hi.evict_returns hlen hn rc
  ⟨c', rc', h, hi.evict h, (Evolves.evict hi.toTallied h).targetSize, hi.resident_lt_of_evict h⟩

set_option smartUnfolding false in
/-- Two pages of 6 bytes in a shard of 10: the resident bytes reach the target, and `evict`
returns on the fuel `evictFuel 2`. -/
theorem evict_terminates_twoPages
    : ∃ c, Reachable (Shard.empty 10) c ∧ c.blockLinks.length ≤ 2 ∧
      c.targetSize ≤ c.sizeHot + c.sizeCold ∧
      ∃ c' rc', c.evict (evictFuel 2) (fun _ => 1) = .ok (c', rc') ∧ c'.Inv ∧
        c'.targetSize = c.targetSize ∧ c'.sizeHot + c'.sizeCold < c'.targetSize :=
  have reach : Reachable (Shard.empty 10) _ :=
    .tail (.single (@Step.set _ _ 2 (fun _ => 1) _ 1 1 0 ⟨0, 6⟩ _ rfl))
      (@Step.set _ _ 2 (fun _ => 1) _ 1 1 1 ⟨1, 6⟩ _ rfl)
  ⟨_, reach, by decide, by decide,
    evict_terminates ((Inv.empty (by decide) (by decide)).reachable reach) (by decide) le_rfl _⟩

-----------------------------------------------------------------------------------------
-- Set and Reserve return
-----------------------------------------------------------------------------------------

theorem exists_ok_bind {ε α β : Type} {x : Except ε α} {f : α → Except ε β} (a : α)
    (hx : x = .ok a) (hf : ∃ b, f a = .ok b)
    : ∃ b, (x >>= f) = .ok b :=
  let ⟨b, hb⟩ := hf; ⟨b, bind_eq_ok.mpr ⟨a, hx, hb⟩⟩

/-- `metaAdd` of an allocated entry off the ring returns: its eviction does, and the entry
stays where it was. -/
theorem Inv.metaAdd_terminates {L n p : Nat} {c : Shard} {e : Entry} (hi : c.Inv)
    (hp : p ∉ c.blockLinks) (he : c.arena p = some e) (hlen : c.blockLinks.length ≤ L)
    (hn : evictFuel L ≤ n) (rc : Refs) (k : Key)
    : ∃ r, c.metaAdd n rc k p = .ok r := by
  obtain ⟨c1, rc1, h1⟩ := hi.evict_returns hlen hn rc
  have he1 : c1.arena p = some e := ((Evolves.evict hi.toTallied h1).offRing p hp).trans he
  exact exists_ok_bind _ h1 (exists_ok_bind e (by simp [Shard.entry, he1])
    (by dsimp only; split <;> exact ⟨_, rfl⟩))

theorem Inv.setAbsent_terminates {n : Nat} {c : Shard} (hi : c.Inv)
    (hn : evictFuel c.blockLinks.length ≤ n) (rc : Refs) (k : Key) (value : Value)
    : ∃ r, Shard.setAbsent n c rc k value = .ok r := by
  obtain ⟨hp, hi2⟩ := hi.newSlot { newEntry k value.len with val := some value }
  obtain ⟨⟨c3, rc3, added⟩, h3⟩ := hi2.metaAdd_terminates hp (Function.update_same _ _ _)
    le_rfl hn (acquire rc value) k
  unfold Shard.setAbsent
  simp only [setValue]
  refine exists_ok_bind (c3, rc3, added) ?_ (by dsimp only; split <;> exact ⟨_, rfl⟩)
  convert h3 using 2
  simp [setEntry, Function.update_idem]

theorem Inv.setResident_terminates {n p : Nat} {c : Shard} {e : Entry} (hi : c.Inv)
    (hp : p ∈ c.blockLinks) (he : c.arena p = some e) (hv : e.val ≠ none)
    (hn : evictFuel c.blockLinks.length ≤ n) (rc : Refs) (value : Value)
    : ∃ r, Shard.setResident n c rc p e value = .ok r := by
  have hnt : e.ptype ≠ etTest := fun ht => hv ((hi.vals p hp e he).mpr ht)
  have ht := hi.rewrite (d := { e with val := some value, referenced := true, size := value.len })
    hp he rfl (by simp [hnt]) (Int.ofNat_nonneg _)
  have hi0 : Inv _ := ⟨ht, hi.coldTarget⟩
  obtain ⟨c', rc', h⟩ := hi0.evict_returns le_rfl hn (release (acquire rc value) e.val)
  refine ⟨(c', rc'), ?_⟩
  simp only [Shard.setResident, setValue, setEntry_setEntry]
  convert h using 2
  split
  next hpt => simp [recount, oneOf, bytesOf, hpt]; omega
  next hpt =>
    have hc : e.ptype = etCold := by cases hq : e.ptype <;> simp_all
    simp [recount, oneOf, bytesOf, hc]; omega

theorem Inv.setTest_terminates {n p : Nat} {c : Shard} {e : Entry} (hi : c.Inv)
    (hp : p ∈ c.blockLinks) (he : c.arena p = some e) (hte : e.ptype = etTest)
    (hn : evictFuel c.blockLinks.length ≤ n) (rc : Refs) (k : Key) (value : Value)
    : ∃ r, Shard.setTest n c rc k p e value = .ok r := by
  obtain ⟨hp2, hi3⟩ := hi.ghostSlot hp he value
  have hlen : (((c.uncount e).detach p e).blockLinks).length ≤ c.blockLinks.length :=
    (List.erase_sublist p c.blockLinks).length_le
  obtain ⟨⟨c6, rc6, added⟩, h6⟩ := hi3.metaAdd_terminates hp2 (Function.update_same _ _ _)
    hlen hn (acquire (release rc e.val) value) k
  have hu : ({ c with sizeTest := c.sizeTest - e.size, countTest := c.countTest - 1 } : Shard) =
      c.uncount e := by simp [uncount, oneOf, bytesOf, hte]
  unfold Shard.setTest
  rw [hu]
  refine exists_ok_bind ((c.uncount e).detach p e, e.val)
    (by simp [metaDel, Shard.entry, uncount, he, Functor.map, Except.map]) ?_
  simp only [setValue, setEntry_setEntry]
  exact exists_ok_bind (c6, rc6, added) h6 (by dsimp only; split <;> exact ⟨_, rfl⟩)

/-- `Set` returns on every shard with the representation invariant, for every key and every
value with one reference, on any fuel from `evictFuel` of the ring's length, whichever entry
the key has: no hand, entry read or consistency check fails, and the handle holds the
value. -/
theorem Inv.set_returns {n : Nat} {c : Shard} (hi : c.Inv) {rc : Refs} {value : Value}
    (hone : rc value.addr = 1) (id fileNum offset : UInt64)
    (hn : evictFuel c.blockLinks.length ≤ n)
    : ∃ c' rc', c.set n rc id fileNum offset value = .ok (c', rc', ⟨some value⟩) := by
  have fin : ∀ {x : Except Fault (Shard × Refs)} {c' : Shard} {rc' : Refs}, x = .ok (c', rc') →
      c'.Tallied → (x >>= fun (y : Shard × Refs) => do y.1.checkConsistency; pure (y.1, y.2,
        (⟨some value⟩ : Handle))) = .ok (c', rc', ⟨some value⟩) := fun h hi' =>
    bind_eq_ok.mpr ⟨_, h, bind_eq_ok.mpr ⟨(), hi'.checkConsistency, rfl⟩⟩
  unfold Shard.set
  rw [if_neg (by simp [hone])]
  dsimp only
  cases hb : c.blocks ⟨id, fileNum, offset⟩ with
  | none =>
    obtain ⟨⟨c', rc'⟩, h⟩ := hi.setAbsent_terminates hn rc ⟨id, fileNum, offset⟩ value
    exact ⟨c', rc', fin h (hi.setAbsent hb h)⟩
  | some p =>
    obtain ⟨hp, hk⟩ := (hi.blocks _ _).mp hb
    obtain ⟨e, he⟩ := Option.isSome_iff_exists.mp (hi.live p hp)
    have hentry : c.entry p = .ok e := by simp [Shard.entry, he]
    cases hv : e.val with
    | some v =>
      obtain ⟨⟨c', rc'⟩, h⟩ := hi.setResident_terminates hp he (by simp [hv]) hn rc value
      refine ⟨c', rc', bind_eq_ok.mpr ⟨e, hentry, ?_⟩⟩
      dsimp only; rw [hv]; exact fin h (hi.setResident hp he (by simp [hv]) h)
    | none =>
      have hte := (hi.vals p hp e he).mp hv
      obtain ⟨⟨c', rc'⟩, h⟩ := hi.setTest_terminates hp he hte hn rc ⟨id, fileNum, offset⟩ value
      refine ⟨c', rc', bind_eq_ok.mpr ⟨e, hentry, ?_⟩⟩
      dsimp only; rw [hv]; exact fin h (hi.setTest hp he (by simpa [keyAt, he] using hk) hte h)

/-- `Set` always returns, and the shard keeps the invariant. -/
theorem set_terminates {n : Nat} {c : Shard} (hi : c.Inv) {rc : Refs} {value : Value}
    (hone : rc value.addr = 1) (id fileNum offset : UInt64)
    (hn : evictFuel c.blockLinks.length ≤ n)
    : ∃ c' rc', c.set n rc id fileNum offset value = .ok (c', rc', ⟨some value⟩) ∧ c'.Inv :=
  let ⟨c', rc', h⟩ := hi.set_returns hone id fileNum offset hn
  ⟨c', rc', h, hi.set h⟩

set_option smartUnfolding false in
/-- A third page of 6 bytes on the two-page shard: `Set` returns on the fuel `evictFuel 2`. -/
theorem set_terminates_twoPages
    : ∃ c, Reachable (Shard.empty 10) c ∧ evictFuel c.blockLinks.length ≤ evictFuel 2 ∧
      ∃ c' rc', c.set (evictFuel 2) (fun _ => 1) 1 1 2 ⟨2, 6⟩ = .ok (c', rc', ⟨some ⟨2, 6⟩⟩) ∧
        c'.Inv :=
  have reach : Reachable (Shard.empty 10) _ :=
    .tail (.single (@Step.set _ _ 2 (fun _ => 1) _ 1 1 0 ⟨0, 6⟩ _ rfl))
      (@Step.set _ _ 2 (fun _ => 1) _ 1 1 1 ⟨1, 6⟩ _ rfl)
  ⟨_, reach, by decide,
    set_terminates ((Inv.empty (by decide) (by decide)).reachable reach) rfl 1 1 2 (by decide)⟩

/-- `Reserve` returns on every shard with the representation invariant, for every amount, on
any fuel from `evictFuel` of the ring's length: moving the budget and clamping `coldTarget`
keep the invariant, so the eviction after them returns. -/
theorem Inv.reserve_returns {n : Nat} {c : Shard} (hi : c.Inv) (rc : Refs) (m : Int)
    (hn : evictFuel c.blockLinks.length ≤ n)
    : ∃ c' rc', c.reserve n rc m = .ok (c', rc') := by
  have hpos := targetSize_pos { c with reservedSize := wrap64 (c.reservedSize + m) }
  have fin : ∀ c0 : Shard, c0.Inv → c0.blockLinks = c.blockLinks →
      ∃ c' rc', (do let (c, rc) ← c0.evict n rc; c.checkConsistency; pure (c, rc)) =
        Except.ok (c', rc') := fun c0 hi0 hl => by
    obtain ⟨c', rc', h⟩ := hi0.evict_returns (by rw [hl]) hn rc
    exact ⟨c', rc', bind_eq_ok.mpr ⟨_, h, bind_eq_ok.mpr ⟨(), (hi0.evict h).checkConsistency, rfl⟩⟩⟩
  unfold Shard.reserve
  dsimp only
  split
  · exact fin _ { hi with
      toShape := hi.toShape.congr rfl rfl rfl rfl rfl rfl rfl rfl rfl
      coldTarget := ⟨le_trans (by decide) hpos, le_rfl⟩ } rfl
  · next hle => exact fin _ { hi with
      toShape := hi.toShape.congr rfl rfl rfl rfl rfl rfl rfl rfl rfl
      coldTarget := ⟨hi.coldTarget.1, not_lt.mp hle⟩ } rfl

/-- What a `Reserve` that returns leaves: the invariant, the reserved size moved by the amount
in `int64`, the same `maxSize`, the resident bytes under the new target, and a ring that only
lost entries, each one left keeping its key and either its value or none. -/
theorem Inv.reserve_spec {n : Nat} {c c' : Shard} {rc rc' : Refs} {m : Int} (hi : c.Inv)
    (h : c.reserve n rc m = .ok (c', rc'))
    : c'.Inv ∧ c'.reservedSize = wrap64 (c.reservedSize + m) ∧ c'.maxSize = c.maxSize ∧
      c'.sizeHot + c'.sizeCold < c'.targetSize ∧ c'.blockLinks.Sublist c.blockLinks ∧
      ∀ q ∈ c'.blockLinks, c'.keyAt q = c.keyAt q ∧ (c'.valAt q = c.valAt q ∨ c'.valAt q = none) := by
  obtain ⟨c0, -, hi0, hl, ha, ⟨hr, hm⟩, h0⟩ := reserve_ok h
  have ev := Evolves.evict (hi0 hi).toTallied h0
  have hk : c0.keyAt = c.keyAt := by funext q; simp only [Shard.keyAt, ha]
  have hv : c0.valAt = c.valAt := by funext q; simp only [Shard.valAt, ha]
  exact ⟨hi.reserve h, ev.reservedSize.trans hr, ev.maxSize.trans hm,
    (hi0 hi).resident_lt_of_evict h0, hl ▸ ev.ring,
    fun q hq => ⟨hk ▸ ev.keyAt q hq, hv ▸ ev.valAt q hq⟩⟩

/-- `Reserve` always returns, and enforces the new target at once: it moves the budget, keeps
the invariant and `maxSize`, and evicts pages and values from the ring, nothing else. -/
theorem reserve_terminates {n : Nat} {c : Shard} (hi : c.Inv) (rc : Refs) (m : Int)
    (hn : evictFuel c.blockLinks.length ≤ n)
    : ∃ c' rc', c.reserve n rc m = .ok (c', rc') ∧ c'.Inv ∧
      c'.reservedSize = wrap64 (c.reservedSize + m) ∧ c'.maxSize = c.maxSize ∧
      c'.sizeHot + c'.sizeCold < c'.targetSize ∧ c'.blockLinks.Sublist c.blockLinks ∧
      ∀ q ∈ c'.blockLinks, c'.keyAt q = c.keyAt q ∧ (c'.valAt q = c.valAt q ∨ c'.valAt q = none) :=
  let ⟨c', rc', h⟩ := hi.reserve_returns rc m hn
  ⟨c', rc', h, hi.reserve_spec h⟩

set_option smartUnfolding false in
/-- Reserving 4 bytes of the two-page shard: `Reserve` returns on the fuel `evictFuel 2`,
evicting one of the two pages. -/
theorem reserve_terminates_twoPages
    : ∃ c, Reachable (Shard.empty 10) c ∧ evictFuel c.blockLinks.length ≤ evictFuel 2 ∧
      ∃ c' rc', c.reserve (evictFuel 2) (fun _ => 1) 4 = .ok (c', rc') ∧ c'.Inv ∧
        c'.reservedSize = wrap64 (c.reservedSize + 4) ∧ c'.maxSize = c.maxSize ∧
        c'.sizeHot + c'.sizeCold < c'.targetSize ∧ c'.blockLinks.Sublist c.blockLinks ∧
        ∀ q ∈ c'.blockLinks, c'.keyAt q = c.keyAt q ∧ (c'.valAt q = c.valAt q ∨ c'.valAt q = none) :=
  have reach : Reachable (Shard.empty 10) _ :=
    .tail (.single (@Step.set _ _ 2 (fun _ => 1) _ 1 1 0 ⟨0, 6⟩ _ rfl))
      (@Step.set _ _ 2 (fun _ => 1) _ 1 1 1 ⟨1, 6⟩ _ rfl)
  ⟨_, reach, by decide,
    reserve_terminates ((Inv.empty (by decide) (by decide)).reachable reach) _ 4 (by decide)⟩

end Shard

end Vecble.ClockPro
