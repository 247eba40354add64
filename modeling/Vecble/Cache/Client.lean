import Vecble.Cache.Budget

/-! The cache as its callers use it: one call at a time on a `Cache`, with the reference
counts of all values, the handles not yet released and the first address `Alloc` has not
handed out. A call that panics makes no step.
-/

namespace Vecble.ClockPro

open Shard

/-- A call on the cache with its arguments. `Set` takes a value `Alloc` has just made, and
`Release` drops a handle the caller holds. -/
inductive Call where
  | get (id fileNum offset : UInt64)
  | set (id fileNum offset : UInt64) (value : Value)
  | delete (id fileNum offset : UInt64)
  | evictFile (id fileNum : UInt64)
  | reserve (n : Int)
  | release (h : Handle)
deriving DecidableEq, Repr

/-- The cache with its callers' side: the reference count of every address, the handles
not yet released, and the first address no `Alloc` has handed out. -/
structure World where
  cache : Cache
  rc : Refs
  handles : List Handle
  next : Nat

/-- A cache just built: no value allocated, no handle out. -/
def World.init (cache : Cache) : World := ⟨cache, fun _ => 0, [], 0⟩

/-- One call run to completion, with whatever fuel it needs. `Set` first allocates its
value at an address no earlier `Alloc` used; the handle a call returns joins the caller's. -/
inductive World.Step : World → Call → World → Prop
  | get {w : World} {id fileNum offset : UInt64} {c : Cache} {rc : Refs} {hd : Handle}
      (run : w.cache.get w.rc id fileNum offset = .ok (c, rc, hd)) :
      Step w (.get id fileNum offset) ⟨c, rc, hd :: w.handles, w.next⟩
  | set {w : World} {fuel : Nat} {id fileNum offset : UInt64} {value : Value} {c : Cache}
      {rc : Refs} {hd : Handle} (fresh : w.next ≤ value.addr)
      (run : w.cache.set fuel (alloc w.rc value.addr value.len).2 id fileNum offset value =
        .ok (c, rc, hd)) :
      Step w (.set id fileNum offset value) ⟨c, rc, hd :: w.handles, value.addr + 1⟩
  | delete {w : World} {id fileNum offset : UInt64} {c : Cache} {rc : Refs}
      (run : w.cache.delete w.rc id fileNum offset = .ok (c, rc)) :
      Step w (.delete id fileNum offset) ⟨c, rc, w.handles, w.next⟩
  | evictFile {w : World} {fuel : Nat} {id fileNum : UInt64} {c : Cache} {rc : Refs}
      (run : w.cache.evictFile fuel w.rc id fileNum = .ok (c, rc)) :
      Step w (.evictFile id fileNum) ⟨c, rc, w.handles, w.next⟩
  | reserve {w : World} {fuel : Nat} {n : Int} {c : Cache} {rc : Refs} {shardN : Int}
      (run : w.cache.reserve fuel w.rc n = .ok (c, rc, shardN)) :
      Step w (.reserve n) ⟨c, rc, w.handles, w.next⟩
  | release {w : World} {h : Handle} (held : h ∈ w.handles) :
      Step w (.release h) ⟨w.cache, h.release w.rc, w.handles.erase h, w.next⟩

/-- A sequence of calls, one after the other. -/
inductive World.Run : World → List Call → World → Prop
  | nil {w : World} : Run w [] w
  | snoc {w w1 w2 : World} {calls : List Call} {call : Call} (run : Run w calls w1)
      (step : Step w1 call w2) : Run w (calls ++ [call]) w2

theorem World.Run.cons {w w1 w2 : World} {call : Call} {calls : List Call}
    (st : Step w call w1) (r : Run w1 calls w2)
    : Run w (call :: calls) w2 := by
  induction r with
  | nil => exact .snoc .nil st
  | snoc _ st' ih => exact .snoc ih st'

/-- One call run with `fuel`, a `Set` allocating its value where the value says. It computes,
so a concrete run is evaluated once. -/
def World.exec (fuel : Nat) (w : World) : Call → Option World
  | .get id fileNum offset =>
    match w.cache.get w.rc id fileNum offset with
    | .ok (c, rc, hd) => some ⟨c, rc, hd :: w.handles, w.next⟩
    | .error _ => none
  | .set id fileNum offset value =>
    if w.next ≤ value.addr then
      match w.cache.set fuel (alloc w.rc value.addr value.len).2 id fileNum offset value with
      | .ok (c, rc, hd) => some ⟨c, rc, hd :: w.handles, value.addr + 1⟩
      | .error _ => none
    else none
  | .delete id fileNum offset =>
    match w.cache.delete w.rc id fileNum offset with
    | .ok (c, rc) => some ⟨c, rc, w.handles, w.next⟩
    | .error _ => none
  | .evictFile id fileNum =>
    match w.cache.evictFile fuel w.rc id fileNum with
    | .ok (c, rc) => some ⟨c, rc, w.handles, w.next⟩
    | .error _ => none
  | .reserve n =>
    match w.cache.reserve fuel w.rc n with
    | .ok (c, rc, _) => some ⟨c, rc, w.handles, w.next⟩
    | .error _ => none
  | .release h =>
    if h ∈ w.handles then some ⟨w.cache, h.release w.rc, w.handles.erase h, w.next⟩ else none

/-- Calls run one after the other, each with `fuel`. -/
def World.execAll (fuel : Nat) : World → List Call → Option World
  | w, [] => some w
  | w, call :: calls => (w.exec fuel call).bind (World.execAll fuel · calls)

theorem World.exec_step {fuel : Nat} {w w' : World}
    : ∀ {call : Call}, w.exec fuel call = some w' → Step w call w'
  | .get .., h => by
    simp only [World.exec] at h
    split at h
    · next heq => cases h; exact .get heq
    · cases h
  | .set .., h => by
    simp only [World.exec] at h
    split_ifs at h with hf
    split at h
    · next heq => cases h; exact .set hf heq
    · cases h
  | .delete .., h => by
    simp only [World.exec] at h
    split at h
    · next heq => cases h; exact .delete heq
    · cases h
  | .evictFile .., h => by
    simp only [World.exec] at h
    split at h
    · next heq => cases h; exact .evictFile heq
    · cases h
  | .reserve .., h => by
    simp only [World.exec] at h
    split at h
    · next heq => cases h; exact .reserve heq
    · cases h
  | .release .., h => by
    simp only [World.exec] at h
    split_ifs at h with hh
    cases h; exact .release hh

theorem World.execAll_run {fuel : Nat}
    : ∀ {w w' : World} {calls : List Call}, w.execAll fuel calls = some w' → Run w calls w'
  | _, _, [], h => by cases h; exact .nil
  | _, _, _ :: _, h => by
    obtain ⟨w1, h1, h2⟩ := Option.bind_eq_some.mp h
    exact .cons (World.exec_step h1) (World.execAll_run h2)

-----------------------------------------------------------------------------------------
-- Routing a call to its shard
-----------------------------------------------------------------------------------------

/-- A call routed to one shard runs there and stores the shard back. -/
theorem Cache.route_ok {α : Type} {c c' : Cache} {id fileNum offset : UInt64}
    {f : Shard → Except Fault (Shard × α)} {a : α}
    (h : (do let i ← c.getShard id fileNum offset; c.onShard i f) = .ok (c', a))
    : ∃ i s s', c.getShard id fileNum offset = .ok i ∧ c.shards[i]? = some s ∧
      f s = .ok (s', a) ∧ c' = { c with shards := c.shards.set i s' } := by
  obtain ⟨i, hi, h⟩ := bind_eq_ok.mp h
  unfold Cache.onShard at h
  split at h
  · cases h
  · next s hs =>
    obtain ⟨⟨s', a'⟩, hf, he⟩ := map_eq_ok.mp h
    cases he
    exact ⟨i, s, s', hi, hs, hf, rfl⟩

theorem map_triple {x : Except Fault (Shard × Refs × Handle)}
    : x.map (fun (s, rc, h) => (s, rc, h)) = x := by
  cases x <;> rfl

theorem Cache.get_ok {c c' : Cache} {rc rc' : Refs} {id fileNum offset : UInt64} {hd : Handle}
    (h : c.get rc id fileNum offset = .ok (c', rc', hd))
    : ∃ i s s', c.getShard id fileNum offset = .ok i ∧ c.shards[i]? = some s ∧
      s.get rc id fileNum offset = .ok (s', rc', hd) ∧
      c' = { c with shards := c.shards.set i s' } := by
  obtain ⟨i, s, s', hi, hs, hf, rfl⟩ := Cache.route_ok h
  exact ⟨i, s, s', hi, hs, by rwa [map_triple] at hf, rfl⟩

theorem Cache.set_ok {c c' : Cache} {fuel : Nat} {rc rc' : Refs} {id fileNum offset : UInt64}
    {value : Value} {hd : Handle} (h : c.set fuel rc id fileNum offset value = .ok (c', rc', hd))
    : ∃ i s s', c.getShard id fileNum offset = .ok i ∧ c.shards[i]? = some s ∧
      s.set fuel rc id fileNum offset value = .ok (s', rc', hd) ∧
      c' = { c with shards := c.shards.set i s' } := by
  obtain ⟨i, s, s', hi, hs, hf, rfl⟩ := Cache.route_ok h
  exact ⟨i, s, s', hi, hs, by rwa [map_triple] at hf, rfl⟩

theorem Cache.delete_ok {c c' : Cache} {rc rc' : Refs} {id fileNum offset : UInt64}
    (h : c.delete rc id fileNum offset = .ok (c', rc'))
    : ∃ i s s', c.getShard id fileNum offset = .ok i ∧ c.shards[i]? = some s ∧
      s.delete rc id fileNum offset = .ok (s', rc') ∧
      c' = { c with shards := c.shards.set i s' } :=
  Cache.route_ok h

theorem Cache.evictFile_ok {c c' : Cache} {fuel : Nat} {rc rc' : Refs} {id fileNum : UInt64}
    (h : c.evictFile fuel rc id fileNum = .ok (c', rc'))
    : ∃ ss, forEachShard (fun s rc => s.evictFile fuel rc id fileNum) c.shards rc = .ok (ss, rc') ∧
      c' = { c with shards := ss } := by
  unfold Cache.evictFile at h
  split at h
  · cases h
  · obtain ⟨⟨ss, r⟩, hall, hc⟩ := map_eq_ok.mp h
    cases hc
    exact ⟨ss, hall, rfl⟩

theorem Cache.reserve_ok {c c' : Cache} {fuel : Nat} {rc rc' : Refs} {n shardN : Int}
    (h : c.reserve fuel rc n = .ok (c', rc', shardN))
    : ∃ ss, forEachShard (fun s rc => s.reserve fuel rc shardN) c.shards rc = .ok (ss, rc') ∧
      c' = { c with shards := ss } := by
  unfold Cache.reserve at h
  dsimp only at h
  split at h
  · cases h
  · obtain ⟨⟨ss, r⟩, hall, hc⟩ := map_eq_ok.mp h
    cases hc
    exact ⟨ss, hall, rfl⟩

/-- Every shard of `l'` has `R` when `l'` is `l` shard by shard under a step that takes `Q`
to `R`. -/
theorem forall_mem_of_forall₂ {P : Shard → Shard → Prop} {Q R : Shard → Prop}
    (hPQ : ∀ s s', P s s' → Q s → R s')
    : ∀ {l l' : List Shard}, List.Forall₂ P l l' → (∀ s ∈ l, Q s) → ∀ s' ∈ l', R s' := by
  intro l l' h
  induction h with
  | nil => exact fun _ s hs => absurd hs (List.not_mem_nil s)
  | cons hp _ ih =>
    simp only [List.mem_cons, forall_eq_or_imp]
    exact fun hq => ⟨hPQ _ _ hp hq.1, ih hq.2⟩

theorem forall_mem_set {l : List Shard} {i : Nat} {s' : Shard} {Q : Shard → Prop}
    (hl : ∀ s ∈ l, Q s) (hs' : Q s')
    : ∀ s ∈ l.set i s', Q s := fun s hs =>
  (List.mem_or_eq_of_mem_set hs).elim (hl s) fun h => h ▸ hs'

-----------------------------------------------------------------------------------------
-- Every shard keeps the invariant
-----------------------------------------------------------------------------------------

/-- Each call moves every shard by shard steps, so it keeps on every shard each property
that one shard step keeps. -/
theorem World.Step.keep {P : Shard → Prop} (hP : ∀ {c c'}, Shard.Step c c' → P c → P c')
    {w w' : World} {call : Call} (hi : ∀ s ∈ w.cache.shards, P s)
    : Step w call w' → ∀ s ∈ w'.cache.shards, P s
  | .get run => by
    obtain ⟨i, s, s', -, hs, h, rfl⟩ := Cache.get_ok run
    exact forall_mem_set hi (hP (.get h) (hi s (List.getElem?_mem hs)))
  | .set _ run => by
    obtain ⟨i, s, s', -, hs, h, rfl⟩ := Cache.set_ok run
    exact forall_mem_set hi (hP (.set h) (hi s (List.getElem?_mem hs)))
  | .delete run => by
    obtain ⟨i, s, s', -, hs, h, rfl⟩ := Cache.delete_ok run
    exact forall_mem_set hi ((reachable_of_delete h).keep hP (hi s (List.getElem?_mem hs)))
  | .evictFile run => by
    obtain ⟨ss, hall, rfl⟩ := Cache.evictFile_ok run
    exact forall_mem_of_forall₂ (Q := P) (fun _ _ h hi => h hi)
      (forEachShard_forall₂ (P := fun s s' => P s → P s')
        (fun _ _ _ _ _ h hi => (reachable_of_evictFileLoop h).keep hP hi) hall) hi
  | .reserve run => by
    obtain ⟨ss, hall, rfl⟩ := Cache.reserve_ok run
    exact forall_mem_of_forall₂ (Q := P) (fun _ _ h hi => h hi)
      (forEachShard_forall₂ (P := fun s s' => P s → P s') (fun _ _ _ _ _ h => hP (.reserve h))
        hall) hi
  | .release _ => hi

/-- Each call keeps the representation invariant on every shard. -/
theorem World.Step.inv {w w' : World} {call : Call} (hi : ∀ s ∈ w.cache.shards, s.Inv)
    (st : Step w call w')
    : ∀ s ∈ w'.cache.shards, s.Inv :=
  st.keep (fun st hi => hi.step st) hi

/-- Each call keeps the invariant short of `coldTarget` on every shard, whatever its size. -/
theorem World.Step.tallied {w w' : World} {call : Call} (hi : ∀ s ∈ w.cache.shards, s.Tallied)
    (st : Step w call w')
    : ∀ s ∈ w'.cache.shards, s.Tallied :=
  st.keep (fun st hi => hi.step st) hi

/-- No call touches the cache's own reference count. -/
theorem World.Step.refs {w w' : World} {call : Call} : Step w call w' → w'.cache.refs = w.cache.refs
  | .get run => by obtain ⟨_, _, _, -, -, -, rfl⟩ := Cache.get_ok run; rfl
  | .set _ run => by obtain ⟨_, _, _, -, -, -, rfl⟩ := Cache.set_ok run; rfl
  | .delete run => by obtain ⟨_, _, _, -, -, -, rfl⟩ := Cache.delete_ok run; rfl
  | .evictFile run => by obtain ⟨_, -, rfl⟩ := Cache.evictFile_ok run; rfl
  | .reserve run => by obtain ⟨_, -, rfl⟩ := Cache.reserve_ok run; rfl
  | .release _ => rfl

theorem World.Run.refs {w w' : World} {calls : List Call} (hr : Run w calls w')
    : w'.cache.refs = w.cache.refs := by
  induction hr with
  | nil => rfl
  | snoc _ st ih => exact st.refs.trans ih

/-- A run of calls keeps on every shard each property that one shard step keeps. -/
theorem World.Run.keep {P : Shard → Prop} (hP : ∀ {c c'}, Shard.Step c c' → P c → P c')
    {w w' : World} {calls : List Call} (hr : Run w calls w') (hi : ∀ s ∈ w.cache.shards, P s)
    : ∀ s ∈ w'.cache.shards, P s := by
  induction hr with
  | nil => exact hi
  | snoc _ st ih => exact st.keep hP ih

-----------------------------------------------------------------------------------------
-- The resident bytes over runs
-----------------------------------------------------------------------------------------

/-- Shards each below twice their target hold, together, at least one byte per shard less
than twice the sum of the targets. -/
theorem size_add_length_le {ss : List Shard}
    (h : ∀ s ∈ ss, s.sizeHot + s.sizeCold < 2 * s.targetSize)
    : (ss.map Shard.size).sum + ss.length ≤ 2 * (ss.map Shard.targetSize).sum := by
  induction ss with
  | nil => simp
  | cons s ss ih =>
    have hs := h s (List.mem_cons_self _ _)
    have ih := ih fun s' hs' => h s' (List.mem_cons_of_mem _ hs')
    simp only [List.map_cons, List.sum_cons, List.length_cons, Shard.size]
    push_cast
    omega

/-- The resident-size bound over runs: every shard reachable from a cache that `newShards`
builds, of any size, holds fewer than twice its target in hot and cold bytes; so along every
run of calls `Size()` stays below twice the sum of the shards' targets, by a byte per shard.
By induction on the run, with the invariant short of `coldTarget` alongside. -/
theorem newShards_resident_lt {size : Int} {shards : Nat} {cache : Cache}
    (hnew : newShards size shards = .ok cache)
    : (∀ s ∈ cache.shards, ∀ c, Reachable s c → c.sizeHot + c.sizeCold < 2 * c.targetSize) ∧
      ∀ calls w, World.Run (World.init cache) calls w →
        w.cache.size + w.cache.shards.length ≤ 2 * (w.cache.shards.map Shard.targetSize).sum := by
  have base : ∀ s ∈ cache.shards, s.Tallied ∧ s.sizeHot + s.sizeCold < 2 * s.targetSize :=
    fun s hs => mem_newShards hnew hs ▸ residentFits_empty _
  refine ⟨fun s hs c hr => (hr.keep residentFits_step (base s hs)).2, fun calls w hrun => ?_⟩
  exact size_add_length_le fun s hs => (hrun.keep residentFits_step base s hs).2

/-- The two `Set`s of 6 bytes that overrun the target of 10 leave 12 bytes, below 20. -/
theorem newShards_resident_lt_twoSets
    : newShards 10 1 = .ok ⟨1, 10, 1, [Shard.empty 10]⟩ ∧
      ∃ w, World.Run (World.init ⟨1, 10, 1, [Shard.empty 10]⟩)
          [.set 1 1 0 ⟨0, 6⟩, .set 1 1 1 ⟨1, 6⟩] w ∧ w.cache.size = 12 ∧
        w.cache.size + w.cache.shards.length ≤ 2 * (w.cache.shards.map Shard.targetSize).sum :=
  have run : World.Run (World.init ⟨1, 10, 1, [Shard.empty 10]⟩)
      [.set 1 1 0 ⟨0, 6⟩, .set 1 1 1 ⟨1, 6⟩] _ :=
    .snoc (.snoc .nil (@World.Step.set (World.init ⟨1, 10, 1, [Shard.empty 10]⟩) 2 1 1 0 ⟨0, 6⟩
      _ _ _ (Nat.zero_le _) rfl)) (@World.Step.set _ 2 1 1 1 ⟨1, 6⟩ _ _ _ le_rfl rfl)
  ⟨rfl, _, run, by decide,
    (@newShards_resident_lt 10 1 ⟨1, 10, 1, [Shard.empty 10]⟩ rfl).2 _ _ run⟩

end Vecble.ClockPro
