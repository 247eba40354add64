import Vecble.Cache.Client
import Vecble.Cache.Removal

/-! Coherence: the cache refines a map from keys to values replayed from the same calls.
Every value on a shard's ring is the map's value for its key, and each shard keeps only the
keys `getShard` routes to it.
-/

namespace Vecble.ClockPro

open EntryType

namespace Shard

/-- Every entry on the clock ring satisfies `R` of its key and value. -/
def Holds (R : Key → Option Value → Prop) (c : Shard) : Prop :=
  ∀ q ∈ c.blockLinks, ∀ e, c.arena q = some e → R e.key e.val

section Holds

variable {R R' : Key → Option Value → Prop}

/-- A ring that only lost entries, the others unchanged, keeps `R`; and `R` may weaken to
`R'` on the entries that stay. -/
theorem Holds.sub {c c' : Shard} (hR : c.Holds R)
    (hsub : ∀ q ∈ c'.blockLinks, q ∈ c.blockLinks ∧ c'.arena q = c.arena q)
    (himp : ∀ q ∈ c'.blockLinks, ∀ e, c.arena q = some e → R e.key e.val → R' e.key e.val)
    : c'.Holds R' := fun q hq e he => by
  obtain ⟨hq', ha⟩ := hsub q hq
  rw [ha] at he
  exact himp q hq e he (hR q hq' e he)

/-- A run of the hands keeps `R` when dropping a value keeps it. -/
theorem Holds.evolve {c c' : Shard} (hR : c.Holds R) (ev : Evolves c c')
    (hdrop : ∀ k v, R k v → R k none)
    : c'.Holds R := fun q hq e he => by
  obtain ⟨e0, he0⟩ : ∃ e0, c.arena q = some e0 := by
    have := ev.keyAt q hq
    simp only [keyAt, he, Option.map_some'] at this
    cases h0 : c.arena q with
    | none => simp [h0] at this
    | some e0 => exact ⟨e0, rfl⟩
  have hk : e.key = e0.key := by simpa [keyAt, he, he0] using ev.keyAt q hq
  have hr := hR q (ev.ring.subset hq) e0 he0
  rcases ev.valAt q hq with hv | hv <;> simp only [valAt, he, he0, Option.some_bind] at hv
  · rw [hk, hv]; exact hr
  · rw [hk, hv]; exact hdrop _ _ hr

/-- Linking a live entry whose key and value satisfy `R` keeps `R`. -/
theorem Holds.link {c : Shard} {p : Nat} {e : Entry} (hR : c.Holds R) (hs : c.Shape)
    (he : c.arena p = some e) (hr : R e.key e.val)
    : (c.link e.key p).Holds R := by
  obtain ⟨hperm, -⟩ := linkBlock_ring (c := { c with blocks := Function.update c.blocks e.key (some p) })
    (p := p) hs.handHot hs.handCold hs.handTest
  intro q hq e' he'
  simp only [Shard.link, linkFile_blockLinks, linkFile_arena, linkBlock_arena] at hq he'
  rcases List.mem_cons.mp (hperm.subset hq) with rfl | hq
  · rw [he] at he'; cases he'; exact hr
  · exact hR q hq e' he'

/-- `metaAdd` of an entry off the ring whose key and value satisfy `R` keeps `R`, whether
it links the entry (then counts it) or declines it (then frees it). -/
theorem Tallied.metaAdd_holds {c c3 : Shard} {rc rc3 : Refs} {fuel p : Nat} {e : Entry}
    {added : Bool} (hi : c.Tallied) (hR : c.Holds R) (hdrop : ∀ k v, R k v → R k none)
    (hp : p ∉ c.blockLinks) (he : c.arena p = some e) (hr : R e.key e.val)
    (h : c.metaAdd fuel rc e.key p = .ok (c3, rc3, added))
    : (added = true → (c3.count e).Holds R) ∧ (added = false → (c3.freeEntry rc3 p).1.Holds R) := by
  obtain ⟨c1, e1, hev, he1, hc⟩ := metaAdd_ok h
  have ev := Evolves.evict hi hev
  have hR1 := hR.evolve ev hdrop
  have hp1 : p ∉ c1.blockLinks := fun h => hp (ev.ring.subset h)
  obtain rfl : e1 = e := Option.some.inj (he1.symm.trans ((ev.offRing p hp).trans he))
  rcases hc with ⟨-, rfl, rfl⟩ | ⟨-, rfl, rfl⟩
  · refine ⟨nofun, fun _ => hR1.sub (fun q hq => ?_) fun _ _ _ _ h => h⟩
    rw [freeEntry_fst] at hq ⊢
    exact ⟨hq, Function.update_noteq (fun (h : q = p) => hp1 (h ▸ hq)) _ _⟩
  · exact ⟨fun _ => hR1.link (hi.evict hev).toShape he1 hr, nofun⟩

/-- An entry on the ring of a shard with the invariant is the blocks map's entry for its
key, so no other ring entry has that key. -/
theorem Tallied.key_unique {c : Shard} {p q : Nat} {e d : Entry} (hi : c.Tallied) (hp : p ∈ c.blockLinks)
    (he : c.arena p = some e) (hq : q ∈ c.blockLinks) (hd : c.arena q = some d)
    (hk : d.key = e.key)
    : q = p := by
  have h1 := (hi.blocks e.key p).mpr ⟨hp, by simp [keyAt, he]⟩
  have h2 := (hi.blocks e.key q).mpr ⟨hq, by simp [keyAt, hd, hk]⟩
  exact Option.some.inj (h2.symm.trans h1)

/-- A ring entry of a shard whose blocks map lacks `k` has another key. -/
theorem Tallied.key_ne_of_blocks {c : Shard} {k : Key} {q : Nat} {e : Entry} (hi : c.Tallied)
    (hb : c.blocks k = none) (hq : q ∈ c.blockLinks) (he : c.arena q = some e)
    : e.key ≠ k :=
  fun hk => by simpa [hb] using (hi.blocks k q).mpr ⟨hq, by simp [keyAt, he, hk]⟩

/-- `Set` of `value` under `k` leaves `R'` on the ring when `R'` holds of `k` with the new
value, survives dropping a value, and follows from `R` for every other key. -/
theorem Tallied.set_holds {c c' : Shard} {rc rc' : Refs} {fuel : Nat} {id fileNum offset : UInt64}
    {value : Value} {hd : Handle} (hi : c.Tallied) (hR : c.Holds R)
    (hdrop : ∀ k v, R' k v → R' k none) (hnew : R' ⟨id, fileNum, offset⟩ (some value))
    (hother : ∀ k w, k ≠ ⟨id, fileNum, offset⟩ → R k w → R' k w)
    (h : c.set fuel rc id fileNum offset value = .ok (c', rc', hd))
    : c'.Holds R' := by
  obtain ⟨-, -, -, hc⟩ := set_ok h
  rcases hc with ⟨hb, h⟩ | ⟨p, e, hb, he, ⟨hv, h⟩ | ⟨hv, h⟩⟩
  · obtain ⟨c3, rc3, added, h3, hc⟩ := setAbsent_ok h
    obtain ⟨hp, hi2⟩ := hi.newSlot { newEntry ⟨id, fileNum, offset⟩ value.len with val := some value }
    have hR2 : Holds R' (Shard.setEntry { c with entryAlloc := c.entryAlloc + 1 } c.entryAlloc
        { newEntry ⟨id, fileNum, offset⟩ value.len with val := some value }) :=
      hR.sub (fun q hq => ⟨hq, Function.update_noteq (fun (h : q = c.entryAlloc) => hp (h ▸ hq)) _ _⟩)
        fun q hq e he hr => hother _ _ (hi.key_ne_of_blocks hb hq he) hr
    have hadd := hi2.metaAdd_holds hR2 hdrop hp (Function.update_same _ _ _) hnew h3
    rcases hc with ⟨rfl, rfl, rfl⟩ | ⟨rfl, hc⟩
    · exact hadd.1 rfl
    · rw [show c' = (c3.freeEntry rc3 c.entryAlloc).1 from congrArg Prod.fst hc]; exact hadd.2 rfl
  · obtain ⟨hp, hk⟩ := (hi.blocks _ _).mp hb
    have hke : e.key = ⟨id, fileNum, offset⟩ := by simpa [keyAt, he] using hk
    obtain ⟨hi0, h0⟩ := hi.setResident_evict hp he hv h
    refine Holds.evolve (fun q hq d hd => ?_) (Evolves.evict hi0 h0) hdrop
    by_cases hqp : q = p
    · subst hqp
      simp only [recount, setEntry, Function.update_same, Option.some.injEq] at hd
      subst hd; rw [hke]; exact hnew
    · simp only [recount, setEntry, Function.update_noteq hqp] at hq hd
      exact hother _ _ (fun hk' => hqp (hi.key_unique hp he hq hd (hk'.trans hke.symm)))
        (hR q hq d hd)
  · obtain ⟨hp, hk⟩ := (hi.blocks _ _).mp hb
    have hke : e.key = ⟨id, fileNum, offset⟩ := by simpa [keyAt, he] using hk
    obtain ⟨c6, rc6, added, h6, hc⟩ := setTest_ok he ((hi.vals p hp e he).mp hv) h
    obtain ⟨hp2, hi3⟩ := hi.ghostSlot hp he value
    have hmem : ∀ q, q ∈ c.blockLinks.erase p → q ≠ p ∧ q ∈ c.blockLinks :=
      fun q hq => (List.Nodup.mem_erase_iff hi.nodup).mp hq
    have hR3 : Holds R' (Shard.setEntry { (c.uncount e).detach p e with
        coldTarget := if c.coldTarget + value.len > c.targetSize then c.targetSize
          else c.coldTarget + value.len }
        p { e with val := some value, size := value.len, referenced := false, ptype := etHot }) := by
      refine hR.sub (fun q hq => ?_) fun q hq d hd hr => ?_
      · have hq' := hmem q hq
        exact ⟨hq'.2, by simp [setEntry, Shard.detach, uncount, Function.update_noteq hq'.1]⟩
      · have hq' := hmem q hq
        exact hother _ _ (fun hk' => hq'.1 (hi.key_unique hp he hq'.2 hd (hk'.trans hke.symm))) hr
    rw [← hke] at h6
    have hadd := hi3.metaAdd_holds hR3 hdrop hp2 (Function.update_same _ _ _)
      (by rw [hke]; exact hnew) h6
    rcases hc with ⟨rfl, rfl, rfl⟩ | ⟨rfl, hc⟩
    · exact hadd.1 rfl
    · rw [show c' = (c6.freeEntry rc6 p).1 from congrArg Prod.fst hc]; exact hadd.2 rfl

/-- `Get` only sets a referenced bit, which keeps every ring entry's key and value. -/
theorem Holds.get {c c' : Shard} {rc rc' : Refs} {id fileNum offset : UInt64} {hd : Handle}
    (hR : c.Holds R) (h : c.get rc id fileNum offset = .ok (c', rc', hd))
    : c'.Holds R := by
  rcases get_ok h with ⟨-, -, rfl⟩ | ⟨p, e, v, -, he, -, -, -, rfl⟩
  · exact hR
  · intro q hq d hd
    by_cases hqp : q = p
    · subst hqp
      simp only [setEntry, Function.update_same, Option.some.injEq] at hd
      subst hd; exact hR q hq e he
    · exact hR q hq d (by simpa [setEntry, Function.update_noteq hqp] using hd)

/-- A value `Get` returns is the value of the key's entry on the ring. -/
theorem Tallied.get_found {c c' : Shard} {rc rc' : Refs} {id fileNum offset : UInt64} {v : Value}
    (hi : c.Tallied) (h : c.get rc id fileNum offset = .ok (c', rc', ⟨some v⟩))
    : ∃ q ∈ c.blockLinks, ∃ e, c.arena q = some e ∧ e.key = ⟨id, fileNum, offset⟩ ∧
      e.val = some v := by
  rcases get_ok h with ⟨hd, -, -⟩ | ⟨p, e, v', hb, he, hv, hd, -, -⟩
  · cases hd
  · cases hd
    obtain ⟨hp, hk⟩ := (hi.blocks _ _).mp hb
    exact ⟨p, hp, e, he, by simpa [keyAt, he] using hk, hv⟩

/-- `Delete` of `k` leaves `R'` on the ring when `R` gives it for every other key: the
ring only loses the entry of `k`. -/
theorem Tallied.delete_holds {c c' : Shard} {rc rc' : Refs} {id fileNum offset : UInt64}
    (hi : c.Tallied) (hR : c.Holds R) (hother : ∀ k w, k ≠ ⟨id, fileNum, offset⟩ → R k w → R' k w)
    (h : c.delete rc id fileNum offset = .ok (c', rc'))
    : c'.Holds R' := by
  have hnone : c.blocks ⟨id, fileNum, offset⟩ = none → c.Holds R' := fun hb =>
    hR.sub (fun q hq => ⟨hq, rfl⟩) fun q hq e he hr => hother _ _ (hi.key_ne_of_blocks hb hq he) hr
  simp only [Shard.delete] at h
  split at h
  · next hb => cases h; exact hnone (Option.isNone_iff_eq_none.mp hb)
  · obtain ⟨⟨c1, rc1, v⟩, h1, h⟩ := bind_eq_ok.mp h
    cases h
    unfold Shard.deleteLocked at h1
    split at h1
    · next hb => cases h1; exact hnone hb
    · next p hb =>
      obtain ⟨⟨c2, rc2, v2⟩, h2, h1⟩ := bind_eq_ok.mp h1
      obtain ⟨_, -, h1⟩ := bind_eq_ok.mp h1
      cases h1
      obtain ⟨e, he, rfl, -, -⟩ := metaEvict_ok h2
      obtain ⟨hp, hk⟩ := (hi.blocks _ _).mp hb
      have hke : e.key = ⟨id, fileNum, offset⟩ := by simpa [keyAt, he] using hk
      have hr := @Tallied.removed_metaEvict _ rc _ _ hi hp he
      have hmem : ∀ q, q ∈ c.blockLinks.erase p → q ≠ p ∧ q ∈ c.blockLinks := fun q hq =>
        (List.Nodup.mem_erase_iff hi.nodup).mp hq
      refine hR.sub (fun q hq => ?_) fun q hq d hd h => ?_
      · rw [hr.ring] at hq; exact ⟨(hmem q hq).2, hr.others q (hmem q hq).1⟩
      · rw [hr.ring] at hq
        exact hother _ _ (fun hk' => (hmem q hq).1
          (hi.key_unique hp he (hmem q hq).2 hd (hk'.trans hke.symm))) h

/-- `EvictFile` of `fkey` leaves `R'` on the ring when `R` gives it for every key of
another file: the ring keeps exactly the other files' entries, unchanged. -/
theorem Tallied.evictFileLoop_holds {c c' : Shard} {rc rc' : Refs} {n : Nat} {fkey : Key}
    (hi : c.Tallied) (hR : c.Holds R) (hother : ∀ k w, k.file ≠ fkey → R k w → R' k w)
    (h : c.evictFileLoop n rc fkey = .ok (c', rc'))
    : c'.Holds R' := by
  obtain ⟨hi', hf, hn⟩ := (evictFileLoop_spec n rc hi).2 c' rc' h
  have hev := fileEvicted_of_frame hi hi' hf hn
  refine hR.sub (fun q hq => ⟨((hev.ring q).mp hq).1, hev.arena q hq⟩) fun q hq e he hr =>
    hother _ _ (fun hfile => ?_) hr
  exact ((hev.ring q).mp hq).2 ((hi.fileLinks _ _).mpr ⟨((hev.ring q).mp hq).1, by simp [keyAt, he, hfile]⟩)

/-- `Reserve` only runs the hands. -/
theorem Tallied.reserve_holds {c c' : Shard} {rc rc' : Refs} {fuel : Nat} {n : Int} (hi : c.Tallied)
    (hR : c.Holds R) (hdrop : ∀ k v, R k v → R k none)
    (h : c.reserve fuel rc n = .ok (c', rc'))
    : c'.Holds R := by
  obtain ⟨c0, hi0, -, hr, ha, -, h0⟩ := reserve_ok h
  exact (hR.sub (fun q hq => ⟨hr ▸ hq, by rw [ha]⟩) fun _ _ _ _ h => h).evolve
    (Evolves.evict (hi0 hi) h0) hdrop

end Holds

end Shard

-----------------------------------------------------------------------------------------
-- The map the calls describe
-----------------------------------------------------------------------------------------

/-- One call on the map the cache stands for: `Set` writes its key, `Delete` removes it,
`EvictFile` removes every key of the file, and the other calls leave the map as it is. -/
def Call.apply (m : Key → Option Value) : Call → Key → Option Value
  | .set id fileNum offset value => Function.update m ⟨id, fileNum, offset⟩ (some value)
  | .delete id fileNum offset => Function.update m ⟨id, fileNum, offset⟩ none
  | .evictFile id fileNum => fun k => if k.file = ⟨id, fileNum, 0⟩ then none else m k
  | .get .. | .reserve _ | .release _ => m

/-- The calls replayed on the empty map. -/
def replay (calls : List Call) : Key → Option Value := calls.foldl Call.apply fun _ => none

-----------------------------------------------------------------------------------------
-- The cache refines the map
-----------------------------------------------------------------------------------------

/-- What an entry on the ring of shard `i` keeps: `getShard` routes its key to `i`, and
its value, if any, is the map's for that key. -/
def Cache.Stored (c : Cache) (m : Key → Option Value) (i : Nat) (k : Key) (v : Option Value) :
    Prop :=
  c.getShard k.id k.fileNum k.offset = .ok i ∧ ∀ x, v = some x → m k = some x

/-- The cache refines the map `m`: every shard has the invariant, and every entry on the
ring of shard `i` is stored as `Stored` says. -/
structure Cache.Refines (m : Key → Option Value) (c : Cache) : Prop where
  inv : ∀ s ∈ c.shards, s.Tallied
  stored : ∀ (i : Nat) (s : Shard), c.shards[i]? = some s → s.Holds (c.Stored m i)

/-- Routing reads only the number of shards. -/
theorem Cache.stored_congr {c c' : Cache} (h : c'.shards.length = c.shards.length)
    : c'.Stored = c.Stored := by
  funext m i k v
  simp only [Cache.Stored, Cache.getShard, h]

theorem Cache.stored_drop {c : Cache} {m : Key → Option Value} {i : Nat} (k : Key)
    (v : Option Value)
    : c.Stored m i k v → c.Stored m i k none :=
  fun h => ⟨h.1, nofun⟩

/-- A shard list equal to another up to a per-shard relation matches it index by index. -/
theorem forall₂_getElem? {α β : Type} {P : α → β → Prop} {l : List α} {l' : List β}
    (h : List.Forall₂ P l l')
    : ∀ (i : Nat) (b : β), l'[i]? = some b → ∃ a, l[i]? = some a ∧ P a b := by
  induction h with
  | nil => intro i b hb; simp at hb
  | cons hp _ ih =>
    intro i b hb
    cases i with
    | zero => simp only [List.getElem?_cons_zero, Option.some.injEq] at hb ⊢; exact ⟨_, rfl, hb ▸ hp⟩
    | succ i => simpa using ih i b (by simpa using hb)

/-- A call on one shard, which stores it back, refines the map's change when the shard's
own change does and the others' entries, routed elsewhere, are not affected. -/
theorem Cache.Refines.onShard {m m' : Key → Option Value} {c : Cache} {i : Nat} {s s' : Shard}
    (hc : c.Refines m) (hs : c.shards[i]? = some s)
    (hinv : ∀ s ∈ ({ c with shards := c.shards.set i s' } : Cache).shards, s.Tallied)
    (hself : s'.Holds (c.Stored m' i))
    (hothers : ∀ k w j, j ≠ i → c.Stored m j k w → c.Stored m' j k w)
    : Refines m' { c with shards := c.shards.set i s' } := by
  refine ⟨hinv, fun j t ht => ?_⟩
  rw [Cache.stored_congr (List.length_set _ _ _)]
  by_cases hj : i = j
  · subst hj
    rw [List.getElem?_set_self (List.getElem?_eq_some_iff.mp hs).1] at ht
    cases ht
    exact hself
  · rw [List.getElem?_set_ne hj] at ht
    exact (hc.stored j t ht).sub (fun q hq => ⟨hq, rfl⟩) fun q hq e he h =>
      hothers _ _ _ (Ne.symm hj) h

/-- A key routed to shard `i` is not the key of an entry routed to another shard. -/
theorem Cache.Stored.ne {c : Cache} {m : Key → Option Value} {i j : Nat} {k : Key} {w : Option Value}
    {id fileNum offset : UInt64} (hi : c.getShard id fileNum offset = .ok i) (hj : j ≠ i)
    (h : c.Stored m j k w)
    : k ≠ ⟨id, fileNum, offset⟩ := by
  rintro rfl
  exact hj (Except.ok.inj (h.1.symm.trans hi))

open Shard in
/-- Each call keeps the cache refining the map, changed as the call changes it. -/
theorem Cache.Refines.step {m : Key → Option Value} {w w' : World} {call : Call}
    (hc : w.cache.Refines m) (st : World.Step w call w')
    : w'.cache.Refines (Call.apply m call) := by
  have hinv := World.Step.tallied hc.inv st
  cases st with
  | get run =>
    obtain ⟨i, s, s', -, hs, h, rfl⟩ := Cache.get_ok run
    exact hc.onShard hs hinv ((hc.stored i s hs).get h) fun _ _ _ _ h => h
  | set _ run =>
    obtain ⟨i, s, s', hi, hs, h, rfl⟩ := Cache.set_ok run
    refine hc.onShard hs hinv ((hc.inv s (List.getElem?_mem hs)).set_holds (hc.stored i s hs)
      Cache.stored_drop ⟨hi, fun x hx => ?_⟩ (fun k w hk h => ⟨h.1, fun x hx => ?_⟩) h)
      fun k w j hj h => ⟨h.1, fun x hx => ?_⟩
    · simpa [Call.apply] using hx
    · simpa [Call.apply, Function.update_noteq hk] using h.2 x hx
    · simpa [Call.apply, Function.update_noteq (h.ne hi hj)] using h.2 x hx
  | delete run =>
    obtain ⟨i, s, s', hi, hs, h, rfl⟩ := Cache.delete_ok run
    refine hc.onShard hs hinv ((hc.inv s (List.getElem?_mem hs)).delete_holds (hc.stored i s hs)
      (fun k w hk h => ⟨h.1, fun x hx => ?_⟩) h) fun k w j hj h => ⟨h.1, fun x hx => ?_⟩
    · simpa [Call.apply, Function.update_noteq hk] using h.2 x hx
    · simpa [Call.apply, Function.update_noteq (h.ne hi hj)] using h.2 x hx
  | @evictFile _ id fileNum _ _ run =>
    obtain ⟨ss, hall, rfl⟩ := Cache.evictFile_ok run
    have h2 := forEachShard_forall₂ (P := fun s s' => s.Tallied → ∀ R R' : Key → Option Value → Prop,
        s.Holds R → (∀ k w, k.file ≠ ⟨id, fileNum, 0⟩ → R k w → R' k w) → s'.Holds R')
      (fun _ _ _ _ _ h hi _ _ hR hother => hi.evictFileLoop_holds hR hother h) hall
    refine ⟨hinv, fun j t ht => ?_⟩
    obtain ⟨s, hs, hp⟩ := forall₂_getElem? h2 j t ht
    rw [Cache.stored_congr h2.length_eq.symm]
    exact hp (hc.inv s (List.getElem?_mem hs)) _ _ (hc.stored j s hs) fun k w hk h =>
      ⟨h.1, fun x hx => by simpa [Call.apply, hk] using h.2 x hx⟩
  | reserve run =>
    obtain ⟨ss, hall, rfl⟩ := Cache.reserve_ok run
    have h2 := forEachShard_forall₂ (P := fun s s' => s.Tallied → ∀ R : Key → Option Value → Prop,
        s.Holds R → (∀ k v, R k v → R k none) → s'.Holds R)
      (fun _ _ _ _ _ h hi _ hR hdrop => hi.reserve_holds hR hdrop h) hall
    refine ⟨hinv, fun j t ht => ?_⟩
    obtain ⟨s, hs, hp⟩ := forall₂_getElem? h2 j t ht
    rw [Cache.stored_congr h2.length_eq.symm]
    exact hp (hc.inv s (List.getElem?_mem hs)) _ (hc.stored j s hs) Cache.stored_drop
  | release _ => exact hc

/-- A cache `newShards` builds refines the empty map: its rings are empty. -/
theorem Cache.Refines.init {size : Int} {shards : Nat} {cache : Cache}
    (hnew : newShards size shards = .ok cache)
    : cache.Refines fun _ => none := by
  refine ⟨fun s hs => ?_, fun i s hs => ?_⟩
  · obtain rfl := mem_newShards hnew hs
    exact Shard.Tallied.empty _
  · obtain rfl := mem_newShards hnew (List.getElem?_mem hs)
    exact fun q hq => absurd hq (List.not_mem_nil q)

/-- Along a run the cache keeps refining the map, replayed over the run's calls. -/
theorem Cache.Refines.run {m : Key → Option Value} {w w' : World} {calls : List Call}
    (hc : w.cache.Refines m) (hr : World.Run w calls w')
    : w'.cache.Refines (calls.foldl Call.apply m) := by
  induction hr with
  | nil => exact hc
  | snoc _ st ih =>
    simp only [List.foldl_append, List.foldl_cons, List.foldl_nil]
    exact ih.step st

/-- The cache answers from the map the calls describe: every value on a shard's ring is
the replayed map's value for its key, and a `Get` that returns a value returns the map's,
the value of the latest `Set` of the key not followed by a `Delete` of it or an
`EvictFile` of its file. -/
def Coherent (calls : List Call) (w : World) : Prop :=
  (∀ s ∈ w.cache.shards, ∀ q ∈ s.blockLinks, ∀ e v, s.arena q = some e → e.val = some v →
    replay calls e.key = some v) ∧
  ∀ rc id fileNum offset c' rc' v, w.cache.get rc id fileNum offset = .ok (c', rc', ⟨some v⟩) →
    replay calls ⟨id, fileNum, offset⟩ = some v

/-- Coherence holds after every run of calls on a cache `newShards` builds, of any size. -/
theorem newShards_run_coherent {size : Int} {shards : Nat} {cache : Cache} {calls : List Call}
    {w : World} (hnew : newShards size shards = .ok cache)
    (hrun : World.Run (World.init cache) calls w)
    : Coherent calls w := by
  have hc := (Cache.Refines.init hnew).run hrun
  refine ⟨fun s hs q hq e v he hv => ?_, fun rc id fileNum offset c' rc' v h => ?_⟩
  · obtain ⟨i, hi⟩ := List.mem_iff_getElem?.mp hs
    exact (hc.stored i s hi q hq e he).2 v hv
  · obtain ⟨i, s, s', -, hs, h, -⟩ := Cache.get_ok h
    obtain ⟨q, hq, e, he, hk, hv⟩ := (hc.inv s (List.getElem?_mem hs)).get_found h
    rw [← hk]
    exact (hc.stored i s hs q hq e he).2 v hv

/-- A `Set` of an empty value on a cache of size `-4`, whose shard starts with `coldTarget`
below zero. -/
theorem newShards_run_coherent_set
    : newShards (-4) 1 = .ok ⟨1, -4, 1, [Shard.empty (-4)]⟩ ∧
      ∃ w, World.Run (World.init ⟨1, -4, 1, [Shard.empty (-4)]⟩) [.set 1 1 0 ⟨0, 0⟩] w ∧
        Coherent [.set 1 1 0 ⟨0, 0⟩] w :=
  have run : World.Run (World.init ⟨1, -4, 1, [Shard.empty (-4)]⟩) [.set 1 1 0 ⟨0, 0⟩] _ :=
    .snoc .nil (@World.Step.set _ 2 1 1 0 ⟨0, 0⟩ _ _ _ (Nat.zero_le _) rfl)
  ⟨rfl, _, run, @newShards_run_coherent (-4) 1 ⟨1, -4, 1, [Shard.empty (-4)]⟩ _ _ rfl run⟩

end Vecble.ClockPro
