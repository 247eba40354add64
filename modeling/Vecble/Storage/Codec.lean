import Mathlib

/-! The vector codec of the storage layer: each `float64`, kept as its `math.Float64bits`
pattern, is written as eight little-endian bytes and read back bit for bit.
-/

namespace Vecble.Storage

/-- A Go byte slice. -/
abbrev Bytes := List UInt8

/-- A `float64`, as its IEEE 754 bit pattern. -/
structure Float64 where
  bits : UInt64
deriving DecidableEq, Repr

/-- `math.Float64bits`. -/
def float64bits (f : Float64) : UInt64 := f.bits

/-- `math.Float64frombits`. -/
def float64frombits (b : UInt64) : Float64 := ⟨b⟩

-----------------------------------------------------------------------------------------
-- Little-endian words
-----------------------------------------------------------------------------------------

/-- The `w` low bytes of `n`, least significant first. -/
def toLE : Nat → Nat → Bytes
  | 0, _ => []
  | w + 1, n => (n % 256).toUInt8 :: toLE w (n / 256)

/-- The number whose bytes, least significant first, are `b`. -/
def ofLE : Bytes → Nat
  | [] => 0
  | x :: b => x.toNat + 256 * ofLE b

/-- `binary.LittleEndian.PutUint64`: byte `i` is `byte(v >> (8 * i))`. -/
def putUint64 (v : UInt64) : Bytes := toLE 8 v.toNat

/-- `binary.LittleEndian.Uint64` of an eight-byte slice: the OR of byte `i` shifted left by
`8 * i`, that is, the sum, since the bytes occupy disjoint bits. -/
def uint64 (b : Bytes) : UInt64 := (ofLE b).toUInt64

@[simp] theorem length_toLE (w n : Nat) : (toLE w n).length = w := by
  induction w generalizing n with
  | zero => rfl
  | succ w ih => simp only [toLE, List.length_cons, ih]

theorem ofLE_toLE (w n : Nat) : ofLE (toLE w n) = n % 256 ^ w := by
  induction w generalizing n with
  | zero => simp [toLE, ofLE, Nat.mod_one]
  | succ w ih =>
    have h : (n % 256).toUInt8.toNat = n % 256 :=
      UInt8.toNat_ofNat_of_lt (Nat.mod_lt _ (by decide))
    rw [toLE, ofLE, ih, h, Nat.pow_succ', Nat.mod_mul]

theorem ofLE_lt (b : Bytes) : ofLE b < 256 ^ b.length := by
  induction b with
  | nil => simp [ofLE]
  | cons x b ih =>
    rw [ofLE, List.length_cons, Nat.pow_succ]
    have hx : x.toNat < 256 := x.toNat_lt_size
    omega

theorem toLE_ofLE (b : Bytes) : toLE b.length (ofLE b) = b := by
  induction b with
  | nil => rfl
  | cons x b ih =>
    have hx : x.toNat < 256 := x.toNat_lt_size
    rw [List.length_cons, toLE, ofLE]
    congr 1
    · rw [Nat.add_mul_mod_self_left, Nat.mod_eq_of_lt hx]
      exact UInt8.toNat.inj (UInt8.toNat_ofNat_of_lt hx)
    · rw [Nat.add_mul_div_left _ _ (by decide), Nat.div_eq_of_lt hx, Nat.zero_add, ih]

@[simp] theorem length_putUint64 (v : UInt64) : (putUint64 v).length = 8 := length_toLE _ _

/-- Reading back the bytes `PutUint64` wrote gives the word. -/
theorem uint64_putUint64 (v : UInt64) : uint64 (putUint64 v) = v := by
  have hv : v.toNat < 256 ^ 8 := v.toNat_lt_size
  apply UInt64.toNat.inj
  rw [uint64, putUint64, ofLE_toLE, Nat.mod_eq_of_lt hv]
  exact UInt64.toNat_ofNat_of_lt v.toNat_lt_size

/-- Eight bytes are the bytes of the word they encode. -/
theorem putUint64_uint64 {b : Bytes} (hb : b.length = 8) : putUint64 (uint64 b) = b := by
  have hlt := ofLE_lt b
  rw [hb] at hlt
  have h : (uint64 b).toNat = ofLE b := UInt64.toNat_ofNat_of_lt (by unfold UInt64.size; omega)
  rw [putUint64, h, ← hb, toLE_ofLE]

/-- The `i`-th eight-byte window of a concatenation of eight-byte words is the `i`-th word. -/
theorem take_drop_flatten {xs : List Bytes} (h : ∀ x ∈ xs, x.length = 8) {i : Nat}
    (hi : i < xs.length)
    : (xs.flatten.drop (i * 8)).take 8 = xs[i] := by
  induction xs generalizing i with
  | nil => exact absurd hi (Nat.not_lt_zero _)
  | cons x xs ih =>
    have hx := h x (List.mem_cons_self _ _)
    rw [List.flatten_cons]
    cases i with
    | zero => simp [← hx]
    | succ j =>
      rw [show (j + 1) * 8 = x.length + j * 8 by rw [hx]; omega, List.drop_append]
      exact ih (fun y hy => h y (List.mem_cons_of_mem _ hy)) (by simpa using hi)

theorem length_flatten_words {xs : List Bytes} (h : ∀ x ∈ xs, x.length = 8)
    : xs.flatten.length = 8 * xs.length := by
  induction xs with
  | nil => rfl
  | cons x xs ih =>
    rw [List.flatten_cons, List.length_append, h x (List.mem_cons_self _ _),
      ih fun y hy => h y (List.mem_cons_of_mem _ hy), List.length_cons]
    omega

/-- Cutting `8 * n` bytes into their `n` eight-byte windows and joining them back gives the
bytes, by induction on `n`. -/
theorem flatten_windows
    : ∀ (n : Nat) (b : Bytes), b.length = 8 * n →
      ((List.range n).map fun i => (b.drop (i * 8)).take 8).flatten = b
  | 0, b, h => (List.length_eq_zero.mp (by omega)).symm
  | n + 1, b, h => by
    rw [List.range_succ_eq_map, List.map_cons, List.map_map, List.flatten_cons]
    have hrest := flatten_windows n (b.drop 8) (by rw [List.length_drop]; omega)
    have e : ((fun i => (b.drop (i * 8)).take 8) ∘ Nat.succ) = fun i => ((b.drop 8).drop (i * 8)).take 8 := by
      funext i
      simp only [Function.comp, List.drop_drop]
      congr 2
      omega
    rw [e, hrest, Nat.zero_mul, List.drop_zero, List.take_append_drop]

-----------------------------------------------------------------------------------------
-- The array codec
-----------------------------------------------------------------------------------------

/-- `serializeFloat64Array`: a buffer of `len(arr) * 8` bytes in which element `i` fills
`bytes[i*8:(i+1)*8]`, that is, the elements' bytes one after the other. Its error is always
nil. -/
def serializeFloat64Array (arr : List Float64) : Except String Bytes :=
  .ok (arr.map fun val => putUint64 (float64bits val)).flatten

/-- `deserializeFloat64Array`: a length that is not a multiple of eight is an error;
otherwise element `i` is read from `bytes[i*8:(i+1)*8]`. -/
def deserializeFloat64Array (bytes : Bytes) : Except String (List Float64) :=
  if bytes.length % 8 ≠ 0 then .error "invalid byte slice length for float64 array"
  else
    let count := bytes.length / 8
    .ok ((List.range count).map fun i => float64frombits (uint64 ((bytes.drop (i * 8)).take 8)))

/-- The codec is a bijection between arrays and byte slices whose length is a multiple of
eight: an array comes back bit for bit, only a length that is no multiple of eight is
refused, and any slice read successfully is what its elements serialize to. -/
theorem float64Array_codec
    : (∀ arr, ∃ bytes, serializeFloat64Array arr = .ok bytes ∧ deserializeFloat64Array bytes = .ok arr) ∧
      ∀ bytes, ((∃ e, deserializeFloat64Array bytes = .error e) ↔ bytes.length % 8 ≠ 0) ∧
        ∀ arr, deserializeFloat64Array bytes = .ok arr → serializeFloat64Array arr = .ok bytes := by
  refine ⟨fun arr => ⟨_, rfl, ?_⟩, fun bytes => ⟨?_, fun arr h => ?_⟩⟩
  · have hw : ∀ x ∈ arr.map (fun val => putUint64 (float64bits val)), x.length = 8 := by simp
    have hlen := length_flatten_words hw
    rw [List.length_map] at hlen
    rw [deserializeFloat64Array, if_neg (by omega), hlen, Nat.mul_div_cancel_left _ (by decide)]
    dsimp only
    congr 1
    apply List.ext_getElem (by simp)
    intro i h1 h2
    rw [List.getElem_map, List.getElem_range, take_drop_flatten hw (by simpa using h2),
      List.getElem_map, uint64_putUint64]
    rfl
  · unfold deserializeFloat64Array
    split <;> simp_all
  · unfold deserializeFloat64Array at h
    split at h
    · cases h
    · next hmod =>
      cases h
      rw [serializeFloat64Array, List.map_map]
      congr 1
      refine (congrArg List.flatten (List.map_congr_left fun i hi => ?_)).trans
        (flatten_windows _ bytes (by omega))
      have hi := List.mem_range.mp hi
      exact putUint64_uint64 (by rw [List.length_take, List.length_drop]; omega)

end Vecble.Storage
