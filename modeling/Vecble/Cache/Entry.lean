import Mathlib

/-! Keys, values and entries of the block cache (`internal/cache/clockpro.go`), and the
intrusive rings the entries are linked into. The entry and value helpers live in files
the repository does not carry; they are modelled from the spec.
-/

namespace Vecble.ClockPro

/-- A block key: the namespace `id`, the file number and the block offset (the Go `key`
with its embedded `fileKey`). -/
structure Key where
  id : UInt64
  fileNum : UInt64
  offset : UInt64
deriving DecidableEq, Repr

/-- `key.file`: the key of the `files` map, the block key with its offset cleared. -/
def Key.file (k : Key) : Key := { k with offset := 0 }

@[simp] theorem Key.file_file (k : Key) : k.file.file = k.file := rfl

/-- A manually managed `Value`, by address. The cache reads only the length of its
buffer, never the bytes. -/
structure Value where
  addr : Nat
  len : Nat
deriving DecidableEq, Repr

/-- Reference counts of all values, by address. -/
abbrev Refs := Nat → Int

/-- Modelled from the spec: `Value.acquire` adds one owner. -/
def acquire (rc : Refs) (v : Value) : Refs :=
  Function.update rc v.addr (rc v.addr + 1)

/-- Modelled from the spec: `Value.release` drops one owner of a possibly nil value;
the buffer goes back to the allocator when the count reaches zero. -/
def release (rc : Refs) : Option Value → Refs
  | none => rc
  | some v => Function.update rc v.addr (rc v.addr - 1)

/-- The type of an entry (`entryType`): a ghost, a cold page or a hot page. -/
inductive EntryType where
  | etTest
  | etCold
  | etHot
deriving DecidableEq, Repr

open EntryType

/-- An `entry` with its key, value, size, type and referenced bit. The block and file
links are kept by the shard as ring lists. -/
structure Entry where
  key : Key
  val : Option Value
  size : Int
  ptype : EntryType
  referenced : Bool
deriving DecidableEq, Repr

/-- Modelled from the spec: `newEntry`, a cold entry holding no value yet. -/
def newEntry (key : Key) (size : Int) : Entry :=
  { key, val := none, size, ptype := etCold, referenced := false }

-----------------------------------------------------------------------------------------
-- Rings in link order
-----------------------------------------------------------------------------------------

/-- Modelled from the spec: `entry.next`, the entry after `p` on a ring listed in link
order. An entry on no ring is linked to itself. -/
def ringNext (ring : List Nat) (p : Nat) : Nat := go ring
where
  /-- The search for `p` along a suffix of the ring. -/
  go : List Nat → Nat
    | [] => p
    | [a] => if a = p then ring.headD p else p
    | a :: b :: l => if a = p then b else go (b :: l)

/-- Modelled from the spec: `entry.prev`, the entry before `p`. -/
def ringPrev (ring : List Nat) (p : Nat) : Nat := ringNext ring.reverse p

/-- Modelled from the spec: `e.link(s)` and `e.linkFile(s)`, `s` joins the ring just
before `e`. -/
def linkBefore (e s : Nat) : List Nat → List Nat
  | [] => [s]
  | a :: l => if a = e then s :: a :: l else a :: linkBefore e s l

theorem ringNext_go_of_not_mem {ring l : List Nat} {p : Nat} (h : p ∉ l)
    : ringNext.go ring p l = p := by
  induction l using ringNext.go.induct ring p with
  | case1 => rfl
  | case2 => simp at h
  | case3 a ha => simp [ringNext.go, ha]
  | case4 b l => simp at h
  | case5 a b l ha ih =>
      simp only [ringNext.go, ha, if_false]
      exact ih (fun hm => h (List.mem_cons_of_mem a hm))

theorem ringNext_of_not_mem {ring : List Nat} {p : Nat} (h : p ∉ ring)
    : ringNext ring p = p :=
  ringNext_go_of_not_mem h

theorem ringNext_go_mem {ring l : List Nat} {p : Nat} (hl : l ⊆ ring) (h : p ∈ l)
    : ringNext.go ring p l ∈ ring := by
  induction l using ringNext.go.induct ring p with
  | case1 => simp at h
  | case2 =>
      cases ring with
      | nil => exact absurd (hl (List.mem_singleton_self p)) (List.not_mem_nil p)
      | cons r rs => simp [ringNext.go]
  | case3 a ha => simp [Ne.symm ha] at h
  | case4 b l => simpa [ringNext.go] using hl (by simp)
  | case5 a b l ha ih =>
      simp only [ringNext.go, ha, if_false]
      exact ih (fun x hx => hl (List.mem_cons_of_mem a hx))
        (by simpa [Ne.symm ha] using h)

/-- The successor of a ring member is on the ring, by the search along the ring. -/
theorem ringNext_mem {ring : List Nat} {p : Nat} (h : p ∈ ring) : ringNext ring p ∈ ring :=
  ringNext_go_mem (fun _ hx => hx) h

theorem ringPrev_mem {ring : List Nat} {p : Nat} (h : p ∈ ring) : ringPrev ring p ∈ ring :=
  List.mem_reverse.mp (ringNext_mem (List.mem_reverse.mpr h))

theorem ringPrev_of_not_mem {ring : List Nat} {p : Nat} (h : p ∉ ring)
    : ringPrev ring p = p :=
  ringNext_of_not_mem (by simpa using h)

@[simp] theorem mem_linkBefore {e s q : Nat} {l : List Nat}
    : q ∈ linkBefore e s l ↔ q = s ∨ q ∈ l := by
  induction l with
  | nil => simp [linkBefore]
  | cons a l ih => by_cases ha : a = e <;> simp [linkBefore, ha, ih]; tauto

theorem linkBefore_perm (e s : Nat) (l : List Nat) : (linkBefore e s l).Perm (s :: l) := by
  induction l with
  | nil => exact .refl _
  | cons a l ih =>
      by_cases ha : a = e
      · simp [linkBefore, ha]
      · simpa [linkBefore, ha] using (ih.cons a).trans (.swap s a l)

theorem linkBefore_nodup {e s : Nat} {l : List Nat} (hs : s ∉ l) (hl : l.Nodup)
    : (linkBefore e s l).Nodup :=
  (linkBefore_perm e s l).nodup_iff.mpr (List.nodup_cons.mpr ⟨hs, hl⟩)

end Vecble.ClockPro

namespace Vecble.ClockPro

theorem ringNext_go_append {ring a b : List Nat} {p : Nat} (ha : p ∉ a)
    : ringNext.go ring p (a ++ p :: b) = b.headD (ring.headD p) := by
  induction a with
  | nil => cases b <;> simp [ringNext.go]
  | cons x a ih =>
      simp only [List.mem_cons, not_or] at ha
      cases a with
      | nil => cases b <;> simp [ringNext.go, Ne.symm ha.1]
      | cons y a => simpa [ringNext.go, Ne.symm ha.1] using ih (by simpa using ha.2)

/-- The successor of `p` read off a split of the ring at `p`. -/
theorem ringNext_append {a b : List Nat} {p : Nat} (ha : p ∉ a)
    : ringNext (a ++ p :: b) p = b.headD ((a ++ p :: b).headD p) :=
  ringNext_go_append ha

/-- On a duplicate-free ring, only the single member is its own successor. -/
theorem ringNext_eq_self_iff {ring : List Nat} {p : Nat} (hn : ring.Nodup) (h : p ∈ ring)
    : ringNext ring p = p ↔ ring = [p] := by
  obtain ⟨a, b, rfl⟩ := List.append_of_mem h
  have hn' := List.nodup_middle.mp hn
  have ha : p ∉ a := fun hm => (List.nodup_cons.mp hn').1 (List.mem_append_left _ hm)
  have hb : p ∉ b := fun hm => (List.nodup_cons.mp hn').1 (List.mem_append_right _ hm)
  rw [ringNext_append ha]
  cases b with
  | cons q b =>
      simp only [List.headD_cons]
      constructor
      · intro hq; exact absurd (hq ▸ List.mem_cons_self q b) hb
      · intro he; have := congrArg List.length he; simp at this; omega
  | nil => cases a with
    | nil => simp
    | cons x a =>
        simp only [List.headD_cons, List.cons_append, List.headD]
        constructor
        · intro hx; exact absurd (hx ▸ List.mem_cons_self x a) ha
        · intro he; have := congrArg List.length he; simp at this

theorem ringPrev_eq_self_iff {ring : List Nat} {p : Nat} (hn : ring.Nodup) (h : p ∈ ring)
    : ringPrev ring p = p ↔ ring = [p] := by
  rw [ringPrev, ringNext_eq_self_iff (List.nodup_reverse.mpr hn) (List.mem_reverse.mpr h),
    List.reverse_eq_cons_iff, List.reverse_nil, List.nil_append]

/-- A member other than the single one has a successor on the rest of the ring. -/
theorem ringNext_mem_erase {ring : List Nat} {p : Nat} (hn : ring.Nodup) (h : p ∈ ring)
    (hp : ringNext ring p ≠ p)
    : ringNext ring p ∈ ring.erase p :=
  (List.Nodup.mem_erase_iff hn).mpr ⟨hp, ringNext_mem h⟩

theorem ringPrev_mem_erase {ring : List Nat} {p : Nat} (hn : ring.Nodup) (h : p ∈ ring)
    (hp : ringPrev ring p ≠ p)
    : ringPrev ring p ∈ ring.erase p :=
  (List.Nodup.mem_erase_iff hn).mpr ⟨hp, ringPrev_mem h⟩

end Vecble.ClockPro
