import Vecble.Server.Resp

/-! What `handleCommand` answers over the pebble database, failures included, and the two
ways a client can send a command: an inline line split by `strings.Fields`, whose name is
not lowered, and a RESP array, whose name is.
-/

namespace Vecble.Server

/-- The bytes of an ASCII string literal. -/
def ascii (s : String) : Bytes := s.toList.map fun c => c.toNat.toUInt8

/-- `strings.ToLower` on a string of ASCII bytes, its fast path: `A` to `Z` become `a` to `z`. -/
def toLowerASCII (s : Bytes) : Bytes := s.map fun b => if 65 ≤ b ∧ b ≤ 90 then b + 32 else b

/-- The pebble database the server opens: the keys and values `db.Set` has stored, and how
each of its next calls ends, `none` for success or the text of the error it returns; the
calls past the list succeed. -/
structure DB where
  store : Bytes → Option Bytes
  faults : List (Option Bytes)

/-- How the next call on the database ends, and the database after it. -/
def DB.next (db : DB) : Option Bytes × DB :=
  match db.faults with
  | [] => (none, db)
  | f :: fs => (f, { db with faults := fs })

/-- `db.Set(key, value)`: the error it returns, if any; only a call that succeeds stores. -/
def DB.set (db : DB) (key value : Bytes) : DB × Option Bytes :=
  match db.next with
  | (some e, db) => (db, some e)
  | (none, db) => ({ db with store := Function.update db.store key (some value) }, none)

/-- `db.Get(key)`: the error it returns, or what is stored, `pebble.ErrNotFound` as `none`. -/
def DB.get (db : DB) (key : Bytes) : DB × Except Bytes (Option Bytes) :=
  match db.next with
  | (some e, db) => (db, .error e)
  | (none, db) => (db, .ok (db.store key))

/-- `handleCommand`: the new database and the response. -/
def handleCommand (db : DB) (cmd : Bytes) (args : List Bytes) : DB × Bytes :=
  if cmd = ascii "ping" then (db, ascii "+PONG\r\n")
  else if cmd = ascii "set" then
    match args with
    | [key, value] =>
      match db.set key value with
      | (db, some e) => (db, ascii "-ERR Failed to set key: " ++ e ++ ascii "\r\n")
      | (db, none) => (db, ascii "+OK\r\n")
    | _ => (db, ascii "-ERR wrong number of arguments for 'set' command\r\n")
  else if cmd = ascii "get" then
    match args with
    | [key] =>
      match db.get key with
      | (db, .error e) => (db, ascii "-ERR Failed to get key: " ++ e ++ ascii "\r\n")
      | (db, .ok none) => (db, ascii "$-1\r\n")
      | (db, .ok (some res)) => (db, 36 :: itoa res.length ++ [13, 10] ++ res ++ [13, 10])
    | _ => (db, ascii "-ERR wrong number of arguments for 'get' command\r\n")
  else (db, ascii "-ERR unknown command\r\n")

/-- `handleConnection`: answer each command `parseRESP` reads, in order, until it fails;
then write `-ERR Parse error` and close. A panic ends the goroutine, and the server, with
nothing more written. Returns the database, the bytes written and the failure that ended the
loop; one command per unit of `fuel`. -/
def handleConnection (toLower : Bytes → Bytes) : Nat → DB → Bytes → DB × Bytes × Option ParseError
  | 0, db, _ => (db, [], none)
  | n + 1, db, r =>
    match parseRESP toLower r with
    | .error (.err m) => (db, ascii "-ERR Parse error\r\n", some (.err m))
    | .error (.panic m) => (db, [], some (.panic m))
    | .ok ((cmd, args), r) =>
      let (db, response) := handleCommand db cmd args
      let (db, out, e) := handleConnection toLower n db r
      (db, response ++ out, e)

/-- The database and the responses of commands run one after the other. -/
def runCommands (db : DB) : List (Bytes × List Bytes) → DB × Bytes
  | [] => (db, [])
  | (cmd, args) :: cmds =>
    let (db, response) := handleCommand db cmd args
    let (db, out) := runCommands db cmds
    (db, response ++ out)

-----------------------------------------------------------------------------------------
-- Inline commands
-----------------------------------------------------------------------------------------

/-- A word carries no white-space rune. -/
def NoSpace (a : Bytes) : Prop := ∀ r ∈ spaceRunes, ¬ r <:+: a

instance (a : Bytes) : Decidable (NoSpace a) :=
  inferInstanceAs (Decidable (∀ r ∈ spaceRunes, ¬ r <:+: a))

/-- Words with one space between them. -/
def joinWords : List Bytes → Bytes
  | [] => []
  | [w] => w
  | w :: ws => w ++ 32 :: joinWords ws

/-- The inline form of a command: its words on one line, ended by CR LF. -/
def inlineLine (words : List Bytes) : Bytes := joinWords words ++ [13, 10]

@[simp] theorem joinWords_cons_cons (w v : Bytes) (vs : List Bytes)
    : joinWords (w :: v :: vs) = w ++ 32 :: joinWords (v :: vs) := rfl

theorem mem_joinWords {x : UInt8}
    : ∀ {words : List Bytes}, x ∈ joinWords words →
      x = 32 ∨ ∃ a ∈ words, x ∈ a
  | [], h => absurd h (List.not_mem_nil x)
  | [w], h => .inr ⟨w, List.mem_singleton_self w, h⟩
  | w :: v :: vs, h => by
    rw [joinWords_cons_cons, List.mem_append, List.mem_cons] at h
    rcases h with h | rfl | h
    · exact .inr ⟨w, List.mem_cons_self _ _, h⟩
    · exact .inl rfl
    · rcases mem_joinWords h with h | ⟨a, ha, hx⟩
      · exact .inl h
      · exact .inr ⟨a, List.mem_cons_of_mem _ ha, hx⟩

theorem head?_joinWords {w : Bytes} (hne : w ≠ []) (ws : List Bytes)
    : (joinWords (w :: ws)).head? = w.head? := by
  obtain ⟨d, w, rfl⟩ := List.exists_cons_of_ne_nil hne
  cases ws <;> rfl

theorem NoSpace.suffix {a b : Bytes} (h : NoSpace b) (hab : a <:+ b) : NoSpace a :=
  fun r hr hi => h r hr (hi.trans hab.isInfix)

theorem NoSpace.lf_not_mem {a : Bytes} (h : NoSpace a) : 10 ∉ a := fun hm =>
  let ⟨s, t, e⟩ := List.append_of_mem hm
  h [10] (by decide) ⟨s, t, by rw [e]; simp⟩

theorem NoSpace.leadingSpace {a : Bytes} (h : NoSpace a) : leadingSpace a = none :=
  leadingSpace_eq_none.mpr fun r hr hp => h r hr hp.isInfix

theorem NoSpace.trailingSpace {a : Bytes} (h : NoSpace a) : trailingSpace a = none :=
  trailingSpace_eq_none.mpr fun r hr hs => h r hr hs.isInfix

theorem NoSpace.trimSpace {a : Bytes} (h : NoSpace a) : trimSpace a = a := by
  rw [Server.trimSpace, trimLeft_of_none h.leadingSpace, trimRight_of_none h.trailingSpace]

/-- A white-space rune that starts inside a word ends inside it: the separator after the
word is ASCII, so no continuation byte of the rune reaches it. -/
theorem leadingSpace_word {w t : Bytes} (hw : NoSpace w) (hne : w ≠ [])
    (ht : t = [] ∨ ∃ b l, t = b :: l ∧ b < 0x80)
    : Server.leadingSpace (w ++ t) = none := by
  refine leadingSpace_eq_none.mpr fun r hr hp => hw r hr (List.IsPrefix.isInfix ?_)
  obtain ⟨c, u, rfl, hu⟩ := spaceRunes_shape r hr
  obtain ⟨d, w, rfl⟩ := List.exists_cons_of_ne_nil hne
  rw [List.cons_append, List.cons_prefix_cons] at hp
  refine List.cons_prefix_cons.mpr ⟨hp.1, ?_⟩
  rcases ht with rfl | ⟨b, l, rfl, hb⟩
  · simpa using hp.2
  · exact prefix_of_prefix_ascii hu hb hp.2

theorem leadingSpace_sep (rest : Bytes) : Server.leadingSpace (32 :: rest) = some [32] := by
  simp [Server.leadingSpace, spaceRunes, List.find?, List.isPrefixOf]

/-- The only white-space rune that starts with a space is the space itself. -/
theorem spaceRunes_space : ∀ r ∈ spaceRunes, r.head? = some 32 → r = [32] := by decide

/-- A line that ends in a space and a last part without trailing white space has none:
a rune reaching back over the space would hold it among its continuation bytes. -/
theorem trailingSpace_sep {pre u : Bytes} (hu : u ≠ []) (h : Server.trailingSpace u = none)
    : Server.trailingSpace (pre ++ 32 :: u) = none := by
  refine trailingSpace_eq_none.mpr fun r hr hs => ?_
  have hsu : u <:+ pre ++ 32 :: u := (List.suffix_cons 32 u).trans (List.suffix_append pre _)
  rcases Nat.lt_or_ge u.length r.length with hl | hl
  · have hsep : 32 :: u <:+ pre ++ 32 :: u := List.suffix_append _ _
    obtain ⟨c, t, rfl, ht⟩ := spaceRunes_shape r hr
    rcases List.suffix_cons_iff.mp (List.suffix_of_suffix_length_le hsep hs
        (by simp only [List.length_cons] at hl ⊢; omega)) with he | hin
    · obtain rfl := (List.cons.inj he).1.symm
      exact hu ((List.cons.inj he).2.trans (List.cons.inj (spaceRunes_space _ hr rfl)).2)
    · exact absurd (ht 32 (hin.subset (List.mem_cons_self _ _))) (by decide)
  · exact trailingSpace_eq_none.mp h r hr (List.suffix_of_suffix_length_le hs hsu hl)

theorem joinWords_ne_nil {words : List Bytes} (hne : words ≠ []) (h : ∀ a ∈ words, a ≠ [])
    : joinWords words ≠ [] := by
  match words, hne with
  | [w], _ => exact h w (List.mem_singleton_self w)
  | w :: _ :: _, _ => simp [joinWords, h w (List.mem_cons_self _ _)]

theorem joinWords_trailingSpace {words : List Bytes} (hne : words ≠ [])
    (h : ∀ a ∈ words, a ≠ [] ∧ NoSpace a)
    : Server.trailingSpace (joinWords words) = none := by
  induction words with
  | nil => exact absurd rfl hne
  | cons w ws ih =>
    cases ws with
    | nil => exact (h w (List.mem_cons_self _ _)).2.trailingSpace
    | cons v vs =>
      have hrest : ∀ a ∈ v :: vs, a ≠ [] ∧ NoSpace a := fun a ha => h a (List.mem_cons_of_mem _ ha)
      exact trailingSpace_sep (joinWords_ne_nil (List.cons_ne_nil _ _) fun a ha => (hrest a ha).1)
        (ih (List.cons_ne_nil _ _) hrest)

/-- `strings.Fields` walks over a word without splitting it, one byte per unit of fuel. -/
theorem fieldsLoop_word {t : Bytes}
    : ∀ (w : Bytes), (∀ s, s <:+ w → s ≠ [] → Server.leadingSpace (s ++ t) = none) →
      ∀ k cur, fieldsLoop (k + w.length) cur (w ++ t) = fieldsLoop k (w.reverse ++ cur) t
  | [], _, k, cur => rfl
  | x :: w, h, k, cur => by
    have hx := h (x :: w) (List.suffix_refl _) (List.cons_ne_nil _ _)
    rw [List.cons_append] at hx
    rw [List.length_cons, ← Nat.add_assoc, List.cons_append, fieldsLoop]
    simp only [hx]
    rw [fieldsLoop_word w (fun s hs hne => h s (hs.trans (List.suffix_cons _ _)) hne),
      List.reverse_cons, List.append_assoc, List.singleton_append]

/-- `strings.Fields` splits words joined by single spaces back into the words. -/
theorem fields_joinWords {words : List Bytes} (h : ∀ a ∈ words, a ≠ [] ∧ NoSpace a)
    : fields (joinWords words) = words := by
  induction words with
  | nil => rfl
  | cons w ws ih =>
    obtain ⟨hne, hw⟩ := h w (List.mem_cons_self _ _)
    have hrest : ∀ a ∈ ws, a ≠ [] ∧ NoSpace a := fun a ha => h a (List.mem_cons_of_mem _ ha)
    have hsuf : ∀ t, (t = [] ∨ ∃ b l, t = b :: l ∧ b < 0x80) →
        ∀ s, s <:+ w → s ≠ [] → Server.leadingSpace (s ++ t) = none :=
      fun t ht s hs hs' => leadingSpace_word (hw.suffix hs) hs' ht
    cases ws with
    | nil =>
      have := fieldsLoop_word w (hsuf [] (.inl rfl)) 0 []
      simp only [List.append_nil, Nat.zero_add, fieldsLoop] at this
      simp [fields, joinWords, this, hne]
    | cons v vs =>
      have hloop := fieldsLoop_word (t := 32 :: joinWords (v :: vs)) w
        (hsuf _ (.inr ⟨32, _, rfl, by decide⟩))
        ((joinWords (v :: vs)).length + 1) []
      unfold fields
      rw [joinWords_cons_cons, List.length_append, List.length_cons, Nat.add_comm w.length, hloop,
        fieldsLoop, leadingSpace_sep]
      simp only [List.append_nil, List.reverse_ne_nil_iff.mpr hne, if_false, List.reverse_reverse,
        List.length_singleton, List.drop_succ_cons, List.drop_zero, List.singleton_append,
        List.cons.injEq, true_and]
      exact ih hrest

theorem joinWords_leadingSpace {w : Bytes} (ws : List Bytes) (hne : w ≠ []) (hw : NoSpace w)
    : Server.leadingSpace (joinWords (w :: ws)) = none := by
  cases ws with
  | nil => exact hw.leadingSpace
  | cons v vs => exact leadingSpace_word hw hne (.inr ⟨32, _, rfl, by decide⟩)

/-- `parseRESP` reads an inline command back word for word, the first word not lowered,
when no word is empty or holds white space and the first does not start with `*`. -/
theorem parseRESP_inline (toLower : Bytes → Bytes) (w : Bytes) (ws : List Bytes) (rest : Bytes)
    (h : ∀ a ∈ w :: ws, a ≠ [] ∧ NoSpace a) (hstar : w.head? ≠ some 42)
    : parseRESP toLower (inlineLine (w :: ws) ++ rest) = .ok ((w, ws), rest) := by
  obtain ⟨hne, hw⟩ := h w (List.mem_cons_self _ _)
  have hline : 10 ∉ joinWords (w :: ws) ++ [13] := fun hm => by
    rcases List.mem_append.mp hm with hm | hm
    · rcases mem_joinWords hm with h10 | ⟨a, ha, hx⟩
      · exact absurd h10 (by decide)
      · exact (h a ha).2.lf_not_mem hx
    · exact absurd hm (by decide)
  have htrim : trimSpace (joinWords (w :: ws) ++ [13] ++ [10]) = joinWords (w :: ws) := by
    rw [List.append_assoc]
    exact trimSpace_crlf (.inr ⟨joinWords_leadingSpace ws hne hw,
      joinWords_trailingSpace (List.cons_ne_nil _ _) h⟩)
  have e : inlineLine (w :: ws) ++ rest = (joinWords (w :: ws) ++ [13]) ++ 10 :: rest := by
    simp [inlineLine]
  rw [e]
  simp only [parseRESP, readString_append _ hline, htrim, head?_joinWords hne, ne_eq, hstar,
    not_false_eq_true, if_true, fields_joinWords h, bind, Except.bind, pure, Except.pure]

-----------------------------------------------------------------------------------------
-- The two forms of a command
-----------------------------------------------------------------------------------------

/-- The inline line and the RESP array of the same words read back to the same arguments
and the same rest of the stream; the command name is the first word itself on the inline
line and its lowering from the array. So the two agree exactly when lowering leaves the first
word as it is. Words must be non-empty and free of white space, the first must not start
with `*`, and there are at most 2^44 of them, as `make` allows. -/
theorem parseRESP_inline_array (toLower : Bytes → Bytes) (w : Bytes) (ws : List Bytes)
    (rest : Bytes) (h : ∀ a ∈ w :: ws, a ≠ [] ∧ NoSpace a) (hstar : w.head? ≠ some 42)
    (hlen : ws.length + 1 ≤ 2 ^ 44)
    : parseRESP toLower (inlineLine (w :: ws) ++ rest) = .ok ((w, ws), rest) ∧
      parseRESP toLower (encodeCommand (w, ws) ++ rest) = .ok ((toLower w, ws), rest) ∧
      (parseRESP toLower (inlineLine (w :: ws) ++ rest) =
        parseRESP toLower (encodeCommand (w, ws) ++ rest) ↔ toLower w = w) := by
  have hi := parseRESP_inline toLower w ws rest h hstar
  have ha := parseRESP_encode toLower w ws rest
    (fun a ha => ⟨(h a ha).2.lf_not_mem, (h a ha).2.trimSpace⟩) hlen
  refine ⟨hi, ha, ?_⟩
  rw [hi, ha, Except.ok.injEq, Prod.mk.injEq, Prod.mk.injEq]
  exact ⟨fun h => h.1.1.symm, fun h => ⟨⟨h.symm, rfl⟩, rfl⟩⟩

theorem parseRESP_inline_array_set
    : (∀ a ∈ [ascii "set", ascii "k", ascii "v"], a ≠ [] ∧ NoSpace a) ∧
      (ascii "set").head? ≠ some 42 ∧ [ascii "k", ascii "v"].length + 1 ≤ 2 ^ 44 ∧
      (parseRESP toLowerASCII (inlineLine [ascii "set", ascii "k", ascii "v"] ++ []) =
          .ok ((ascii "set", [ascii "k", ascii "v"]), []) ∧
        parseRESP toLowerASCII (encodeCommand (ascii "set", [ascii "k", ascii "v"]) ++ []) =
          .ok ((toLowerASCII (ascii "set"), [ascii "k", ascii "v"]), []) ∧
        (parseRESP toLowerASCII (inlineLine [ascii "set", ascii "k", ascii "v"] ++ []) =
            parseRESP toLowerASCII (encodeCommand (ascii "set", [ascii "k", ascii "v"]) ++ []) ↔
          toLowerASCII (ascii "set") = ascii "set")) :=
  have h : ∀ a ∈ [ascii "set", ascii "k", ascii "v"], a ≠ [] ∧ NoSpace a := by decide
  have hstar : (ascii "set").head? ≠ some 42 := by decide
  have hlen : [ascii "k", ascii "v"].length + 1 ≤ 2 ^ 44 := by decide
  ⟨h, hstar, hlen, parseRESP_inline_array toLowerASCII (ascii "set") [ascii "k", ascii "v"] []
    h hstar hlen⟩

/-- The inline branch, which `parseRESP` says handles single-line commands like `PING`,
cannot run `PING`: the name is not lowered, so `handleCommand` answers `PING` sent inline as
an unknown command, while the same word sent as a RESP array gets `+PONG`. -/
theorem inline_ping_unknown_command
    : (handleConnection toLowerASCII 2 ⟨fun _ => none, []⟩ (ascii "PING\r\n")).2.1 =
        ascii "-ERR unknown command\r\n-ERR Parse error\r\n" ∧
      (handleConnection toLowerASCII 2 ⟨fun _ => none, []⟩ (encodeCommand (ascii "PING", []))).2.1 =
        ascii "+PONG\r\n-ERR Parse error\r\n" :=
  ⟨rfl, rfl⟩

/-- A connection that receives a pipeline of RESP arrays answers it as the commands, names
lowered, run one after the other, then reports the parse error at the end of the stream,
when the arguments are free of LF and of white space at their ends. -/
theorem handleConnection_encode (toLower : Bytes → Bytes) (db : DB) (cmds : List (Bytes × List Bytes))
    (h : ∀ c ∈ cmds, (∀ a ∈ c.1 :: c.2, 10 ∉ a ∧ trimSpace a = a) ∧ c.2.length + 1 ≤ 2 ^ 44)
    : handleConnection toLower (cmds.length + 1) db (cmds.map encodeCommand).flatten =
      ((runCommands db (cmds.map fun c => (toLower c.1, c.2))).1,
        (runCommands db (cmds.map fun c => (toLower c.1, c.2))).2 ++ ascii "-ERR Parse error\r\n",
        some (.err "EOF")) := by
  induction cmds generalizing db with
  | nil => rfl
  | cons c cmds ih =>
    obtain ⟨name, args⟩ := c
    obtain ⟨hc, hlen⟩ := h _ (List.mem_cons_self _ _)
    have hp := parseRESP_encode toLower name args (cmds.map encodeCommand).flatten hc hlen
    rw [List.length_cons, List.map_cons, List.flatten_cons, handleConnection, hp]
    simp only [List.map_cons, runCommands, ih _ fun d hd => h d (List.mem_cons_of_mem _ hd),
      List.append_assoc]

example : (handleConnection toLowerASCII 3 ⟨fun _ => none, []⟩
    (encodeCommand (ascii "SET", [ascii "k", ascii "v"]) ++ encodeCommand (ascii "GET", [ascii "k"]))).2.1 =
    ascii "+OK\r\n$1\r\nv\r\n-ERR Parse error\r\n" := by
  rfl

end Vecble.Server
