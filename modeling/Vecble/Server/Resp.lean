import Mathlib

/-! The RESP front end: `parseRESP` reads lines with `ReadString('\n')`, trims them and never
reads the declared lengths, so an argument survives only without LF or white space at its
ends. The reader is the bytes not yet read; `strings.ToLower` is a parameter.
-/

namespace Vecble.Server

/-- A Go string, as its bytes. -/
abbrev Bytes := List UInt8

/-- Why `parseRESP` gives up: an error it returns (its text), or a run-time panic. -/
inductive ParseError where
  | err (msg : String)
  | panic (msg : String)
deriving DecidableEq, Repr

-----------------------------------------------------------------------------------------
-- The library calls parseRESP makes
-----------------------------------------------------------------------------------------

/-- `bufio.Reader.ReadString(delim)`: the bytes up to and including the first `delim`,
and the bytes after it; `io.EOF` when no `delim` is left. -/
def readString (delim : UInt8) : Bytes → Except ParseError (Bytes × Bytes)
  | [] => .error (.err "EOF")
  | b :: r =>
    if b = delim then .ok ([b], r)
    else (readString delim r).map fun (line, rest) => (b :: line, rest)

/-- The UTF-8 encodings of the runes `unicode.IsSpace` accepts: the six ASCII spaces, U+0085,
U+00A0, U+1680, U+2000 to U+200A, U+2028, U+2029, U+202F, U+205F and U+3000. -/
def spaceRunes : List Bytes :=
  [[9], [10], [11], [12], [13], [32], [0xC2, 0x85], [0xC2, 0xA0], [0xE1, 0x9A, 0x80]] ++
  (List.range 11).map (fun i => [0xE2, 0x80, (0x80 + i).toUInt8]) ++
  [[0xE2, 0x80, 0xA8], [0xE2, 0x80, 0xA9], [0xE2, 0x80, 0xAF], [0xE2, 0x81, 0x9F],
    [0xE3, 0x80, 0x80]]

/-- The white-space rune a string starts with, if any. Decoding the first rune and asking
`unicode.IsSpace` comes to this: an encoding in `spaceRunes` decodes to its rune, and no
other byte sequence decodes to a space. -/
def leadingSpace (s : Bytes) : Option Bytes := spaceRunes.find? (·.isPrefixOf s)

/-- The white-space rune a string ends with, if any, as `utf8.DecodeLastRune` finds it. -/
def trailingSpace (s : Bytes) : Option Bytes := spaceRunes.find? (·.isSuffixOf s)

/-- `strings.TrimLeftFunc(s, unicode.IsSpace)`, one rune per unit of `fuel`. -/
def trimLeft : Nat → Bytes → Bytes
  | 0, s => s
  | n + 1, s =>
    match leadingSpace s with
    | some r => trimLeft n (s.drop r.length)
    | none => s

/-- `strings.TrimRightFunc(s, unicode.IsSpace)`, one rune per unit of `fuel`. -/
def trimRight : Nat → Bytes → Bytes
  | 0, s => s
  | n + 1, s =>
    match trailingSpace s with
    | some r => trimRight n (s.take (s.length - r.length))
    | none => s

/-- `strings.TrimSpace`: its ASCII fast path and its fallback both trim the white-space runes
at either end, the left end first. -/
def trimSpace (s : Bytes) : Bytes := trimRight s.length (trimLeft s.length s)

/-- The loop of `strings.Fields`, with the field being read kept reversed. -/
def fieldsLoop : Nat → Bytes → Bytes → List Bytes
  | 0, cur, _ => if cur = [] then [] else [cur.reverse]
  | _ + 1, cur, [] => if cur = [] then [] else [cur.reverse]
  | n + 1, cur, b :: r =>
    match leadingSpace (b :: r) with
    | some sp =>
      (if cur = [] then [] else [cur.reverse]) ++ fieldsLoop n [] ((b :: r).drop sp.length)
    | none => fieldsLoop n (b :: cur) r

/-- `strings.Fields`: the maximal runs of bytes between white-space runes. -/
def fields (s : Bytes) : List Bytes := fieldsLoop s.length [] s

/-- An ASCII decimal digit. -/
def isDigit (b : UInt8) : Bool := 48 ≤ b && b ≤ 57

/-- The value of a run of ASCII digits, most significant first. -/
def digitsValue (ds : Bytes) : Nat := ds.foldl (fun acc b => 10 * acc + (b.toNat - 48)) 0

/-- `fmt.Sscanf(line, "*%d", &numArgs)` with `numArgs` at 0 before: after the `*`, white
space, an optional sign, then the decimal digits `%d` scans, stopping at the first other
byte (an underscore included: only `%v` takes digit separators); `strconv.ParseInt` takes
the token if it has digits and fits in 64 bits. Any failure leaves `numArgs` at 0. -/
def scanCount (line : Bytes) : Int :=
  match line with
  | b :: rest =>
    if b ≠ 42 then 0
    else
      let rest := trimLeft rest.length rest
      let neg := rest.head? = some 45
      let rest := if rest.head? = some 45 ∨ rest.head? = some 43 then rest.tail else rest
      let tok := rest.takeWhile isDigit
      if tok = [] then 0
      else
        let v : Int := if neg then -(digitsValue tok : Int) else digitsValue tok
        if -2 ^ 63 ≤ v ∧ v < 2 ^ 63 then v else 0
  | [] => 0

/-- `make([]string, 0, numArgs)` on a 64-bit target: a negative capacity, or one whose
16-byte headers exceed the 2^48-byte allocation limit, panics. -/
def makeArgsFails (numArgs : Int) : Bool := numArgs < 0 || 2 ^ 48 < 16 * numArgs

-----------------------------------------------------------------------------------------
-- parseRESP and handleConnection
-----------------------------------------------------------------------------------------

/-- The loop of `parseRESP` over the arguments: skip the length line, read the argument's
line and trim it. -/
def readArgs : Nat → Bytes → Except ParseError (List Bytes × Bytes)
  | 0, r => .ok ([], r)
  | n + 1, r => do
    let (_, r) ← readString 10 r
    let (arg, r) ← readString 10 r
    let (args, r) ← readArgs n r
    pure (trimSpace arg :: args, r)

/-- `parseRESP`: a command name and its arguments, and the bytes left in the reader. A line
not starting with `*` is an inline command split at white space; otherwise the count after
`*` says how many arguments to read, and the first, lowered, names the command. -/
def parseRESP (toLower : Bytes → Bytes) (r : Bytes) :
    Except ParseError ((Bytes × List Bytes) × Bytes) := do
  let (line, r) ← readString 10 r
  let line := trimSpace line
  if line.head? ≠ some 42 then
    match fields line with
    | [] => .error (.err "empty command")
    | cmd :: args => pure ((cmd, args), r)
  else
    let numArgs := scanCount line
    if makeArgsFails numArgs then .error (.panic "runtime error: makeslice: cap out of range")
    else
      let (args, r) ← readArgs numArgs.toNat r
      match args with
      | [] => .error (.err "invalid command format")
      | cmd :: args => pure ((toLower cmd, args), r)

/-- The commands `handleConnection` hands to `handleCommand`, in order, and the error that
ends the connection; one command per unit of `fuel`. -/
def serve (toLower : Bytes → Bytes) : Nat → Bytes → List (Bytes × List Bytes) × Option ParseError
  | 0, _ => ([], none)
  | n + 1, r =>
    match parseRESP toLower r with
    | .error e => ([], some e)
    | .ok (cmd, r) =>
      let (cmds, e) := serve toLower n r
      (cmd :: cmds, e)

-----------------------------------------------------------------------------------------
-- The RESP encoding of a command
-----------------------------------------------------------------------------------------

/-- The digit loop of `strconv.Itoa`: the last digit of `n` goes in front of `acc`, then the
rest of `n`, until it is 0; one digit per unit of `fuel`. -/
def itoaLoop : Nat → Nat → Bytes → Bytes
  | 0, _, acc => acc
  | fuel + 1, n, acc =>
    let acc := (48 + n % 10).toUInt8 :: acc
    if n / 10 = 0 then acc else itoaLoop fuel (n / 10) acc

/-- `strconv.Itoa` of a natural number: its decimal digits. -/
def itoa (n : Nat) : Bytes := itoaLoop (n + 1) n []

/-- A bulk string: `$`, the length, CR LF, the bytes, CR LF. -/
def encodeBulk (a : Bytes) : Bytes := 36 :: itoa a.length ++ [13, 10] ++ a ++ [13, 10]

/-- A command as a RESP array of its name and arguments. -/
def encodeCommand (cmd : Bytes × List Bytes) : Bytes :=
  42 :: itoa (cmd.2.length + 1) ++ [13, 10] ++ ((cmd.1 :: cmd.2).map encodeBulk).flatten

-----------------------------------------------------------------------------------------
-- Reading lines
-----------------------------------------------------------------------------------------

/-- `ReadString('\n')` returns a line without LF together with its LF, and leaves the rest. -/
theorem readString_append {line : Bytes} (rest : Bytes) (h : 10 ∉ line)
    : readString 10 (line ++ 10 :: rest) = .ok (line ++ [10], rest) := by
  induction line with
  | nil => simp [readString]
  | cons b line ih =>
    have hb : b ≠ 10 := fun hb => h (hb ▸ List.mem_cons_self _ _)
    simp [readString, hb, ih (fun hm => h (List.mem_cons_of_mem _ hm)), Except.map]

-----------------------------------------------------------------------------------------
-- White space at the ends of a line
-----------------------------------------------------------------------------------------

/-- The shape of the white-space encodings: each is a lead byte, ASCII or a UTF-8 lead, and
continuation bytes. -/
theorem spaceRunes_shape : ∀ r ∈ spaceRunes, ∃ b t, r = b :: t ∧ ∀ x ∈ t, 0x80 ≤ x := by
  have h : ∀ r ∈ spaceRunes, r ≠ [] ∧ ∀ x ∈ r.tail, 0x80 ≤ x := by decide
  intro r hr
  obtain ⟨b, t, rfl⟩ := List.exists_cons_of_ne_nil (h r hr).1
  exact ⟨b, t, rfl, (h _ hr).2⟩

theorem leadingSpace_eq_none {s : Bytes}
    : leadingSpace s = none ↔ ∀ r ∈ spaceRunes, ¬ r <+: s := by
  simp [leadingSpace, List.find?_eq_none, List.isPrefixOf_iff_prefix]

theorem trailingSpace_eq_none {s : Bytes}
    : trailingSpace s = none ↔ ∀ r ∈ spaceRunes, ¬ r <:+ s := by
  simp [trailingSpace, List.find?_eq_none, List.isSuffixOf_iff_suffix]

/-- A string whose first byte starts no white-space encoding has no leading space. -/
theorem leadingSpace_cons {b : UInt8} (t : Bytes) (hb : ∀ r ∈ spaceRunes, r.head? ≠ some b)
    : leadingSpace (b :: t) = none :=
  leadingSpace_eq_none.mpr fun r hr hp => by
    obtain ⟨c, u, rfl, -⟩ := spaceRunes_shape r hr
    exact hb _ hr (by rw [(List.cons_prefix_cons.mp hp).1]; rfl)

/-- A string whose last byte ends no white-space encoding has no trailing space. -/
theorem trailingSpace_append {b : UInt8} (t : Bytes) (hb : ∀ r ∈ spaceRunes, r.getLast? ≠ some b)
    : trailingSpace (t ++ [b]) = none :=
  trailingSpace_eq_none.mpr fun r hr hs => by
    obtain ⟨c, u, rfl, -⟩ := spaceRunes_shape r hr
    obtain ⟨pre, hpre⟩ := hs
    apply hb _ hr
    rw [← List.getLast?_append_of_ne_nil pre (List.cons_ne_nil c u), hpre]
    simp

/-- Continuation bytes never reach into an ASCII byte: a white-space encoding that is a
prefix of `a ++ b :: l`, with `a` not empty and `b` ASCII, is a prefix of `a`. -/
theorem prefix_of_prefix_ascii {r a l : Bytes} {b : UInt8} (hr : ∀ x ∈ r, 0x80 ≤ x) (hb : b < 0x80)
    (h : r <+: a ++ b :: l)
    : r <+: a := by
  induction r generalizing a with
  | nil => exact List.nil_prefix
  | cons x r ih =>
    have hx := hr x (List.mem_cons_self _ _)
    cases a with
    | nil =>
      have := (List.cons_prefix_cons.mp h).1
      subst this; exact absurd hx (UInt8.not_le.mpr hb)
    | cons y a =>
      rw [List.cons_append, List.cons_prefix_cons] at h
      exact List.cons_prefix_cons.mpr ⟨h.1, ih (fun z hz => hr z (List.mem_cons_of_mem _ hz)) h.2⟩

theorem leadingSpace_crlf {a : Bytes} (ha : a ≠ []) (h : leadingSpace a = none)
    : leadingSpace (a ++ [13, 10]) = none := by
  refine leadingSpace_eq_none.mpr fun r hr hp => leadingSpace_eq_none.mp h r hr ?_
  obtain ⟨c, u, rfl, hu⟩ := spaceRunes_shape r hr
  obtain ⟨d, a, rfl⟩ := List.exists_cons_of_ne_nil ha
  rw [List.cons_append, List.cons_prefix_cons] at hp
  exact List.cons_prefix_cons.mpr ⟨hp.1, prefix_of_prefix_ascii hu (by decide) hp.2⟩

theorem trailingSpace_lf (a : Bytes) : trailingSpace (a ++ [10]) = some [10] := by
  simp [trailingSpace, spaceRunes, List.find?, List.isSuffixOf, List.isPrefixOf]

theorem trailingSpace_cr (a : Bytes) : trailingSpace (a ++ [13]) = some [13] := by
  simp [trailingSpace, spaceRunes, List.find?, List.isSuffixOf, List.isPrefixOf]

theorem trimLeft_of_none {s : Bytes} (h : leadingSpace s = none) : ∀ n, trimLeft n s = s
  | 0 => rfl
  | _ + 1 => by simp [trimLeft, h]

theorem trimRight_of_none {s : Bytes} (h : trailingSpace s = none) : ∀ n, trimRight n s = s
  | 0 => rfl
  | _ + 1 => by simp [trimRight, h]

theorem length_trimLeft_le : ∀ (n : Nat) (s : Bytes), (trimLeft n s).length ≤ s.length
  | 0, _ => le_rfl
  | n + 1, s => by
    unfold trimLeft
    split
    · exact (length_trimLeft_le n _).trans (by simp)
    · exact le_rfl

theorem length_trimRight_le : ∀ (n : Nat) (s : Bytes), (trimRight n s).length ≤ s.length
  | 0, _ => le_rfl
  | n + 1, s => by
    unfold trimRight
    split
    · exact (length_trimRight_le n _).trans (by simp)
    · exact le_rfl

/-- A line `TrimSpace` leaves as it is is empty or has white space at neither end. -/
theorem trimSpace_eq_self {a : Bytes} (h : trimSpace a = a)
    : a = [] ∨ leadingSpace a = none ∧ trailingSpace a = none := by
  rcases a with _ | ⟨b, t⟩
  · exact .inl rfl
  have hl : leadingSpace (b :: t) = none := by
    cases hl : leadingSpace (b :: t) with
    | none => rfl
    | some r =>
      obtain ⟨c, u, hr, -⟩ := spaceRunes_shape r (List.mem_of_find?_eq_some hl)
      have hlen := congrArg List.length h
      have := length_trimRight_le (b :: t).length (trimLeft (b :: t).length (b :: t))
      have := length_trimLeft_le t.length ((b :: t).drop r.length)
      simp only [trimSpace, List.length_cons, trimLeft, hl, List.length_drop, hr] at *
      omega
  refine .inr ⟨hl, ?_⟩
  cases hr' : trailingSpace (b :: t) with
  | none => rfl
  | some r =>
    obtain ⟨c, u, hr, -⟩ := spaceRunes_shape r (List.mem_of_find?_eq_some hr')
    have hlen := congrArg List.length h
    have := length_trimRight_le t.length ((b :: t).take ((b :: t).length - r.length))
    simp only [trimSpace, trimLeft_of_none hl, List.length_cons, trimRight, hr', List.length_take,
      hr] at *
    omega

/-- Trimming the right end of a line without trailing space and its CR LF removes the CR
LF. -/
theorem trimRight_crlf {a : Bytes} (h : trailingSpace a = none) (n : Nat)
    : trimRight (n + 2) (a ++ [13, 10]) = a := by
  have e : a ++ [13, 10] = (a ++ [13]) ++ [10] := by simp
  rw [e, trimRight, trailingSpace_lf]
  dsimp only
  rw [List.take_left' (by simp), trimRight, trailingSpace_cr]
  dsimp only
  rw [List.take_left' (by simp), trimRight_of_none h]

/-- `TrimSpace` of a line read with its CR LF gives back the line, when it is empty or has
white space at neither end. -/
theorem trimSpace_crlf {a : Bytes} (ha : a = [] ∨ leadingSpace a = none ∧ trailingSpace a = none)
    : trimSpace (a ++ [13, 10]) = a := by
  rcases eq_or_ne a [] with rfl | hne
  · decide
  obtain ⟨hl, hr⟩ := ha.resolve_left hne
  rw [trimSpace, trimLeft_of_none (leadingSpace_crlf hne hl), List.length_append]
  exact trimRight_crlf hr _

-----------------------------------------------------------------------------------------
-- Decimal numbers
-----------------------------------------------------------------------------------------

/-- What the parser asks of a digit byte: it is a digit, none of LF, `_`, `-`, `+`, it
starts and ends no white-space encoding, and it has its value. -/
theorem digit_facts
    : ∀ d < 10,
      isDigit (48 + d).toUInt8 ∧ (48 + d).toUInt8 ≠ 10 ∧ (48 + d).toUInt8 ≠ 95 ∧
        (48 + d).toUInt8 ≠ 45 ∧ (48 + d).toUInt8 ≠ 43 ∧ (48 + d).toUInt8.toNat - 48 = d ∧
        (∀ r ∈ spaceRunes, r.head? ≠ some (48 + d).toUInt8) ∧
        ∀ r ∈ spaceRunes, r.getLast? ≠ some (48 + d).toUInt8 := by
  decide

theorem mem_itoaLoop
    : ∀ (fuel n : Nat) (acc : Bytes), (∀ b ∈ acc, ∃ d < 10, b = (48 + d).toUInt8) →
      ∀ b ∈ itoaLoop fuel n acc, ∃ d < 10, b = (48 + d).toUInt8
  | 0, _, _, hacc => hacc
  | fuel + 1, n, acc, hacc => by
    have h : ∀ b ∈ (48 + n % 10).toUInt8 :: acc, ∃ d < 10, b = (48 + d).toUInt8 := by
      simpa using ⟨⟨n % 10, Nat.mod_lt _ (by decide), rfl⟩, hacc⟩
    unfold itoaLoop
    split
    · exact h
    · exact mem_itoaLoop fuel _ _ h

theorem mem_itoa {n : Nat} {b : UInt8} (h : b ∈ itoa n) : ∃ d < 10, b = (48 + d).toUInt8 :=
  mem_itoaLoop _ _ [] nofun b h

theorem itoaLoop_ne_nil : ∀ (fuel n : Nat) (acc : Bytes), acc ≠ [] → itoaLoop fuel n acc ≠ []
  | 0, _, _, h => h
  | fuel + 1, n, acc, _ => by
    unfold itoaLoop
    split
    · exact List.cons_ne_nil _ _
    · exact itoaLoop_ne_nil fuel _ _ (List.cons_ne_nil _ _)

theorem itoa_ne_nil (n : Nat) : itoa n ≠ [] := by
  unfold itoa itoaLoop
  split
  · exact List.cons_ne_nil _ _
  · exact itoaLoop_ne_nil _ _ _ (List.cons_ne_nil _ _)

/-- Reading the digits back, most significant first, continues from the number they stand
for: one turn of the loop per digit, given a digit of fuel more than the number needs. -/
theorem foldl_itoaLoop
    : ∀ (fuel n : Nat) (acc : Bytes), n < fuel →
      (itoaLoop fuel n acc).foldl (fun acc b => 10 * acc + (b.toNat - 48)) 0 =
        acc.foldl (fun acc b => 10 * acc + (b.toNat - 48)) n
  | 0, _, _, h => absurd h (Nat.not_lt_zero _)
  | fuel + 1, n, acc, h => by
    have hd := (digit_facts (n % 10) (Nat.mod_lt _ (by decide))).2.2.2.2.2.1
    unfold itoaLoop
    split
    · next h0 =>
      simp only [List.foldl_cons, hd]
      congr 1
      omega
    · next h0 =>
      rw [foldl_itoaLoop fuel _ _ (by omega), List.foldl_cons, hd, Nat.div_add_mod]

theorem digitsValue_itoa (n : Nat) : digitsValue (itoa n) = n :=
  foldl_itoaLoop _ _ [] (Nat.lt_succ_self n)

/-- `Sscanf(line, "*%d")` reads back the count `Itoa` wrote. -/
theorem scanCount_itoa {n : Nat} (hn : n < 2 ^ 63) : scanCount (42 :: itoa n) = n := by
  obtain ⟨b, ds, hbs⟩ := List.exists_cons_of_ne_nil (itoa_ne_nil n)
  obtain ⟨d, hd, rfl⟩ := mem_itoa (hbs ▸ List.mem_cons_self b ds)
  have hf := digit_facts d hd
  have hl : leadingSpace (itoa n) = none := hbs ▸ leadingSpace_cons ds hf.2.2.2.2.2.2.1
  have htok : (itoa n).takeWhile isDigit = itoa n :=
    List.takeWhile_eq_self_iff.mpr fun b hb => by
      obtain ⟨d, hd, rfl⟩ := mem_itoa hb
      exact (digit_facts d hd).1
  have hh : (itoa n).head? = some (48 + d).toUInt8 := by rw [hbs]; rfl
  unfold scanCount
  simp only [if_neg (show ¬ (42 : UInt8) ≠ 42 from not_not.mpr rfl), trimLeft_of_none hl, hh,
    Option.some.injEq, hf.2.2.2.1, hf.2.2.2.2.1, or_self, if_false, htok, itoa_ne_nil,
    digitsValue_itoa]
  rw [if_pos (by omega)]

theorem lf_not_mem_itoa (n : Nat) : 10 ∉ itoa n := fun h => by
  obtain ⟨d, hd, hb⟩ := mem_itoa h
  exact (digit_facts d hd).2.1 hb.symm

-----------------------------------------------------------------------------------------
-- Reading encoded commands back
-----------------------------------------------------------------------------------------

/-- A bulk string as two lines, each ending in its LF. -/
theorem encodeBulk_append (a rest : Bytes)
    : encodeBulk a ++ rest = (36 :: itoa a.length ++ [13]) ++ 10 :: ((a ++ [13]) ++ 10 :: rest) := by
  simp [encodeBulk]

/-- The argument loop reads back arguments without LF that `TrimSpace` leaves as they are,
and stops right after the last one. -/
theorem readArgs_encode (args : List Bytes) (rest : Bytes)
    (h : ∀ a ∈ args, 10 ∉ a ∧ trimSpace a = a)
    : readArgs args.length ((args.map encodeBulk).flatten ++ rest) = .ok (args, rest) := by
  induction args with
  | nil => rfl
  | cons a args ih =>
    obtain ⟨ha, htrim⟩ := h a (List.mem_cons_self _ _)
    have hlen : 10 ∉ 36 :: itoa a.length ++ [13] := by simp [lf_not_mem_itoa]
    have hline : 10 ∉ a ++ [13] := by simp [ha]
    have hcrlf : trimSpace (a ++ [13] ++ [10]) = a := by
      rw [List.append_assoc]; exact trimSpace_crlf (trimSpace_eq_self htrim)
    rw [List.map_cons, List.flatten_cons, List.append_assoc, encodeBulk_append, List.length_cons]
    simp only [readArgs, readString_append _ hlen, readString_append _ hline,
      ih fun b hb => h b (List.mem_cons_of_mem _ hb), hcrlf, bind, Except.bind, pure, Except.pure]

/-- The count line, trimmed, is `*` and the count: `*` starts no white-space encoding and a
digit ends none. -/
theorem trimSpace_countLine (n : Nat) : trimSpace ((42 :: itoa n) ++ [13, 10]) = 42 :: itoa n := by
  refine trimSpace_crlf (.inr ⟨leadingSpace_cons _ (by decide), ?_⟩)
  have hlast := List.getLast_mem (itoa_ne_nil n)
  obtain ⟨d, hd, he⟩ := mem_itoa hlast
  rw [← List.dropLast_append_getLast (itoa_ne_nil n), ← List.cons_append, he]
  exact trailingSpace_append _ (digit_facts d hd).2.2.2.2.2.2.2

/-- `parseRESP` reads one encoded command back, name lowered, and leaves the bytes after it,
when no argument has an LF or white space at an end, and the count fits `make`. -/
theorem parseRESP_encode (toLower : Bytes → Bytes) (name : Bytes) (args : List Bytes) (rest : Bytes)
    (h : ∀ a ∈ name :: args, 10 ∉ a ∧ trimSpace a = a) (hlen : args.length + 1 ≤ 2 ^ 44)
    : parseRESP toLower (encodeCommand (name, args) ++ rest) = .ok ((toLower name, args), rest) := by
  have hline : 10 ∉ 42 :: itoa (args.length + 1) ++ [13] := by simp [lf_not_mem_itoa]
  have e : encodeCommand (name, args) ++ rest =
      (42 :: itoa (args.length + 1) ++ [13]) ++ 10 :: (((name :: args).map encodeBulk).flatten ++ rest) := by
    simp [encodeCommand]
  have htrim : trimSpace (42 :: itoa (args.length + 1) ++ [13] ++ [10]) = 42 :: itoa (args.length + 1) := by
    simpa using trimSpace_countLine (args.length + 1)
  have hfail : makeArgsFails ((args.length + 1 : Nat) : Int) = false := by
    simp only [makeArgsFails, Bool.or_eq_false_iff, decide_eq_false_iff_not]; omega
  have hargs := readArgs_encode (name :: args) rest h
  rw [List.length_cons] at hargs
  rw [e]
  simp only [parseRESP, readString_append _ hline, htrim, List.head?_cons, ne_eq, not_true_eq_false,
    if_false, scanCount_itoa (show args.length + 1 < 2 ^ 63 by omega), hfail, Int.toNat_ofNat,
    hargs, bind, Except.bind, pure, Except.pure, Bool.false_eq_true]

/-- `handleConnection` hands on exactly the commands of a pipeline of encoded commands, in
order, each name lowered, and then goes on with what follows them, when no argument has an
LF or white space at an end and no command has more than 2^44 arguments. -/
theorem serve_encode (toLower : Bytes → Bytes) (cmds : List (Bytes × List Bytes)) (rest : Bytes)
    (fuel : Nat) (h : ∀ c ∈ cmds, (∀ a ∈ c.1 :: c.2, 10 ∉ a ∧ trimSpace a = a) ∧ c.2.length + 1 ≤ 2 ^ 44)
    : serve toLower (cmds.length + fuel) ((cmds.map encodeCommand).flatten ++ rest) =
      (cmds.map (fun c => (toLower c.1, c.2)) ++ (serve toLower fuel rest).1, (serve toLower fuel rest).2) := by
  induction cmds with
  | nil => simp
  | cons c cmds ih =>
    obtain ⟨name, args⟩ := c
    obtain ⟨hc, hlen⟩ := h _ (List.mem_cons_self _ _)
    rw [List.length_cons, Nat.add_right_comm, List.map_cons, List.flatten_cons, List.append_assoc]
    simp only [serve, parseRESP_encode toLower name args _ hc hlen,
      ih fun d hd => h d (List.mem_cons_of_mem _ hd), List.map_cons, List.cons_append]

theorem serve_encode_set
    : (∀ c ∈ [([83, 69, 84], [[107], [118]])], (∀ a ∈ c.1 :: c.2, 10 ∉ a ∧ trimSpace a = a) ∧
        c.2.length + 1 ≤ 2 ^ 44) ∧
      serve id (1 + 1) (([([83, 69, 84], [[107], [118]])].map encodeCommand).flatten ++ []) =
        ([([83, 69, 84], [[107], [118]])].map (fun c => (id c.1, c.2)) ++ (serve id 1 []).1,
          (serve id 1 []).2) :=
  ⟨by decide, serve_encode id [([83, 69, 84], [[107], [118]])] [] 1 (by decide)⟩

/-- Without those conditions the round trip fails: `get " k"` comes back as `get k`, and in
`set "a\nb" c` the LF splits the argument, so the length line of `c` is read as the second
argument and `c` as an inline command. The names are lower case already, so `strings.ToLower`
leaves them as they are. -/
theorem serve_mangles_arguments
    : serve id 2 (encodeCommand ([103, 101, 116], [[32, 107]])) =
        ([([103, 101, 116], [[107]])], some (.err "EOF")) ∧
      serve id 3 (encodeCommand ([115, 101, 116], [[97, 10, 98], [99]])) =
        ([([115, 101, 116], [[97], [36, 49]]), ([99], [])], some (.err "EOF")) :=
  ⟨rfl, rfl⟩

-----------------------------------------------------------------------------------------
-- When parseRESP panics
-----------------------------------------------------------------------------------------

/-- A client that sends the header `*-1` crashes the server: `Sscanf` reads the count -1,
`make([]string, 0, -1)` panics, and the connection's goroutine has no `recover`. -/
theorem serve_panics_on_negative_count
    : scanCount [42, 45, 49] = -1 ∧
      serve id 1 [42, 45, 49, 13, 10] = ([], some (.panic "runtime error: makeslice: cap out of range")) :=
  ⟨by decide, rfl⟩

end Vecble.Server
