import Vecble.Server.Commands
import Vecble.Cache.Sweep

/-! A connection alone: `handleConnection` answers the commands `serve` reads, and its read
loop ends on every finite stream. Then what one command does to the stored keys.
-/

namespace Vecble.Server

-----------------------------------------------------------------------------------------
-- A connection is its parsed commands, run in order
-----------------------------------------------------------------------------------------

/-- What `handleConnection` writes once reading has stopped: the parse-error reply after an
error, nothing after a panic or when the commands ran out. -/
def stopReply : Option ParseError → Bytes
  | some (.err _) => ascii "-ERR Parse error\r\n"
  | _ => []

/-- `handleConnection` writes the replies of the commands `serve` reads, run one after the
other, then `stopReply` of the way reading stopped; by induction on the fuel. -/
theorem handleConnection_eq_serve (toLower : Bytes → Bytes)
    : ∀ (n : Nat) (db : DB) (r : Bytes), handleConnection toLower n db r =
      ((runCommands db (serve toLower n r).1).1,
        (runCommands db (serve toLower n r).1).2 ++ stopReply (serve toLower n r).2,
        (serve toLower n r).2)
  | 0, _, _ => rfl
  | n + 1, db, r => by
    unfold handleConnection serve
    split
    · next m h => simp [h, runCommands, stopReply]
    · next m h => simp [h, runCommands, stopReply]
    · next cmd args r' h =>
      simp only [h, runCommands, handleConnection_eq_serve toLower n, List.append_assoc]

-----------------------------------------------------------------------------------------
-- The read loop ends
-----------------------------------------------------------------------------------------

open Vecble.ClockPro (bind_eq_ok)

/-- A line read up to its delimiter takes at least the delimiter from the stream. -/
theorem readString_length {d : UInt8}
    : ∀ {r line rest : Bytes},
      readString d r = .ok (line, rest) → rest.length < r.length
  | [], _, _, h => by cases h
  | b :: r, line, rest, h => by
    unfold readString at h
    split at h
    · cases h; simp
    · cases h' : readString d r with
      | error e => rw [h'] at h; cases h
      | ok x =>
        obtain ⟨l, r'⟩ := x
        rw [h'] at h
        obtain ⟨-, rfl⟩ : (b :: l, r') = (line, rest) := Except.ok.inj h
        have := readString_length h'
        simp only [List.length_cons]; omega

/-- The argument loop reads whole lines, so it never gives bytes back. -/
theorem readArgs_length
    : ∀ {n : Nat} {r rest : Bytes} {args : List Bytes},
      readArgs n r = .ok (args, rest) → rest.length ≤ r.length
  | 0, _, _, _, h => by cases h; exact le_rfl
  | n + 1, r, rest, args, h => by
    obtain ⟨⟨_, r1⟩, h1, h⟩ := bind_eq_ok.mp h
    obtain ⟨⟨_, r2⟩, h2, h⟩ := bind_eq_ok.mp h
    obtain ⟨⟨_, r3⟩, h3, h⟩ := bind_eq_ok.mp h
    cases h
    have := readString_length h1
    have := readString_length h2
    have := readArgs_length h3
    omega

/-- Every command `parseRESP` returns takes at least its first line from the stream. -/
theorem parseRESP_length {toLower : Bytes → Bytes} {r rest : Bytes} {cmd : Bytes × List Bytes}
    (h : parseRESP toLower r = .ok (cmd, rest))
    : rest.length < r.length := by
  obtain ⟨⟨line, r1⟩, h1, h⟩ := bind_eq_ok.mp h
  have l1 := readString_length h1
  dsimp only at h
  split at h
  · split at h
    · cases h
    · cases h; exact l1
  · split at h
    · cases h
    · obtain ⟨⟨args, r2⟩, h2, h⟩ := bind_eq_ok.mp h
      have := readArgs_length h2
      dsimp only at h
      split at h
      · cases h
      · cases h; omega

/-- With fuel beyond the length of the stream, `serve` ends on the error that stops the
loop, whatever the fuel; by induction on the fuel, each command taking a byte at least. -/
theorem serve_fuel (toLower : Bytes → Bytes)
    : ∀ (n m : Nat) (r : Bytes),
      r.length < n → r.length < m →
        serve toLower n r = serve toLower m r ∧ (serve toLower n r).2.isSome
  | 0, _, _, h, _ => absurd h (Nat.not_lt_zero _)
  | _ + 1, 0, _, _, h => absurd h (Nat.not_lt_zero _)
  | n + 1, m + 1, r, hn, hm => by
    unfold serve
    split
    · exact ⟨rfl, rfl⟩
    · next cmd r' hp =>
      have hl := parseRESP_length hp
      obtain ⟨he, hs⟩ := serve_fuel toLower n m r' (by omega) (by omega)
      rw [he] at hs ⊢
      refine ⟨rfl, ?_⟩
      cases hsv : serve toLower m r'
      rw [hsv] at hs
      exact hs

/-- The read loop of `handleConnection` always ends, on a parse error or a panic: every
command takes at least one byte from the stream, so with any fuel beyond the length of the
stream the connection ends with the error that stops the loop, with the same database and
replies as on any other such fuel. A connection on a finite stream never runs on. -/
theorem handleConnection_ends (toLower : Bytes → Bytes) (db : DB) (r : Bytes) {n : Nat}
    (hn : r.length < n)
    : handleConnection toLower n db r = handleConnection toLower (r.length + 1) db r ∧
      (handleConnection toLower n db r).2.2.isSome := by
  obtain ⟨he, hs⟩ := serve_fuel toLower n (r.length + 1) r hn (Nat.lt_succ_self _)
  rw [handleConnection_eq_serve, handleConnection_eq_serve, he]
  exact ⟨rfl, he ▸ hs⟩

theorem handleConnection_ends_ping
    : (ascii "PING\r\n").length < 100 ∧
      handleConnection toLowerASCII 100 ⟨fun _ => none, []⟩ (ascii "PING\r\n") =
        handleConnection toLowerASCII ((ascii "PING\r\n").length + 1) ⟨fun _ => none, []⟩
          (ascii "PING\r\n") ∧
      (handleConnection toLowerASCII 100 ⟨fun _ => none, []⟩ (ascii "PING\r\n")).2.2.isSome :=
  ⟨by decide, handleConnection_ends toLowerASCII ⟨fun _ => none, []⟩ (ascii "PING\r\n") (by decide)⟩

-----------------------------------------------------------------------------------------
-- What one command does to the stored keys
-----------------------------------------------------------------------------------------

/-- The value a command wrote to `key`: the value of a `set` of it that pebble accepted,
which is the one `set` answered with `+OK`. -/
def written (key cmd : Bytes) (args : List Bytes) (reply : Bytes) : Option Bytes :=
  match args with
  | [k, v] => if cmd = ascii "set" ∧ k = key ∧ reply = ascii "+OK\r\n" then some v else none
  | _ => none

end Vecble.Server
