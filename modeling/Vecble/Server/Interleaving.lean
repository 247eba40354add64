import Vecble.Server.Store

/-! The server: one goroutine per connection, all on the one pebble database with no lock
taken, interleaved command by command. Every `get` answers the latest accepted `set` in the
order the commands ran, whichever connection sent it, and each client reads its own replies.
-/

namespace Vecble.Server

/-- A client's connection: the bytes it has yet to send, what the server wrote to it, and
whether its goroutine has returned. -/
structure Conn where
  input : Bytes
  output : Bytes
  closed : Bool

/-- The server process: the database every goroutine shares (the `lock` the source declares is never
taken), the connections, and whether a panic has ended the process. -/
structure Process where
  db : DB
  conns : List Conn
  crashed : Bool

/-- A command the server ran: the connection that sent it, its name, arguments and reply. -/
structure Exec where
  conn : Nat
  cmd : Bytes
  args : List Bytes
  reply : Bytes
deriving DecidableEq

/-- One turn of connection `i`'s goroutine, one pass of the loop in `handleConnection`: read a
command and answer it, or write `-ERR Parse error` and return, or panic and end the process.
Reading and writing touch only the connection and a command makes at most one call on pebble,
whose calls are atomic, so the goroutines' steps interleaved in any way leave the database and
the replies that their whole turns leave, taken in the order of their calls on pebble. -/
def Process.turn (toLower : Bytes → Bytes) (s : Process) (i : Nat) : Process × Option Exec :=
  match s.crashed, s.conns[i]? with
  | false, some ⟨r, out, false⟩ =>
    match parseRESP toLower r with
    | .error (.err _) =>
      ({ s with conns := s.conns.set i ⟨r, out ++ ascii "-ERR Parse error\r\n", true⟩ }, none)
    | .error (.panic _) => ({ s with crashed := true }, none)
    | .ok ((cmd, args), r) =>
      let (db, response) := handleCommand s.db cmd args
      ({ s with db := db, conns := s.conns.set i ⟨r, out ++ response, false⟩ },
        some ⟨i, cmd, args, response⟩)
  | _, _ => (s, none)

/-- The server running turns of the connections `sched` names, in order, and the commands it
ran, in order. -/
def Process.run (toLower : Bytes → Bytes) : Process → List Nat → Process × List Exec
  | s, [] => (s, [])
  | s, i :: sched =>
    let (s, e) := s.turn toLower i
    let (s, log) := s.run toLower sched
    (s, e.toList ++ log)

/-- What a command leaves stored, key by key: the value it wrote, or what was there. -/
def Exec.apply (store : Bytes → Option Bytes) (e : Exec) : Bytes → Option Bytes :=
  fun key => (written key e.cmd e.args e.reply).orElse fun _ => store key

section Turn

variable (toLower : Bytes → Bytes)

theorem Process.run_cons (s : Process) (i : Nat) (sched : List Nat)
    : s.run toLower (i :: sched) =
      (((s.turn toLower i).1.run toLower sched).1,
        (s.turn toLower i).2.toList ++ ((s.turn toLower i).1.run toLower sched).2) :=
  rfl

theorem Process.turn_crashed {s : Process} (i : Nat) (h : s.crashed = true)
    : s.turn toLower i = (s, none) := by
  simp only [Process.turn, h]

theorem Process.turn_closed {s : Process} {i : Nat} {c : Conn} (hc : s.conns[i]? = some c)
    (hcl : c.closed = true)
    : s.turn toLower i = (s, none) := by
  obtain ⟨r, out, cl⟩ := c
  cases hcl
  cases h : s.crashed <;> simp only [Process.turn, h, hc]

end Turn

-----------------------------------------------------------------------------------------
-- Whole runs
-----------------------------------------------------------------------------------------

section Run

variable (toLower : Bytes → Bytes)

/-- A turn that changes nothing changes nothing however often it is taken. -/
theorem Process.run_stuck {s : Process} {i : Nat} (h : s.turn toLower i = (s, none))
    : ∀ n, s.run toLower (List.replicate n i) = (s, [])
  | 0 => rfl
  | n + 1 => by rw [List.replicate_succ, Process.run_cons, h, Process.run_stuck h n]; rfl

theorem Process.run_crashed
    : ∀ (sched : List Nat) {s : Process}, s.crashed = true →
      s.run toLower sched = (s, [])
  | [], _, _ => rfl
  | i :: sched, s, h => by
    rw [Process.run_cons, Process.turn_crashed toLower i h, Process.run_crashed sched h]; rfl

/-- One connection alone, run for `n` turns, writes what `handleConnection` writes with fuel
`n` and leaves the database it leaves: the server refines the model of one connection. By
induction on `n`, one pass of the loop a turn. -/
theorem Process.run_single
    : ∀ (n : Nat) (db : DB) (r out : Bytes),
      ((⟨db, [⟨r, out, false⟩], false⟩ : Process).run toLower (List.replicate n 0)).1.db =
          (handleConnection toLower n db r).1 ∧
        ((⟨db, [⟨r, out, false⟩], false⟩ : Process).run toLower (List.replicate n 0)).1.conns.map
            Conn.output = [out ++ (handleConnection toLower n db r).2.1]
  | 0, _, _, _ => by simp [Process.run, handleConnection]
  | n + 1, db, r, out => by
    rw [List.replicate_succ, Process.run_cons]
    cases hp : parseRESP toLower r with
    | error e =>
      cases e with
      | err m =>
        have ht : (⟨db, [⟨r, out, false⟩], false⟩ : Process).turn toLower 0 =
            (⟨db, [⟨r, out ++ ascii "-ERR Parse error\r\n", true⟩], false⟩, none) := by
          simp [Process.turn, hp]
        rw [ht, Process.run_stuck toLower (Process.turn_closed toLower rfl rfl)]
        simp [handleConnection, hp]
      | panic m =>
        have ht : (⟨db, [⟨r, out, false⟩], false⟩ : Process).turn toLower 0 =
            (⟨db, [⟨r, out, false⟩], true⟩, none) := by
          simp [Process.turn, hp]
        rw [ht, Process.run_crashed toLower _ rfl]
        simp [handleConnection, hp]
    | ok v =>
      obtain ⟨⟨cmd, args⟩, r'⟩ := v
      have ht : (⟨db, [⟨r, out, false⟩], false⟩ : Process).turn toLower 0 =
          (⟨(handleCommand db cmd args).1, [⟨r', out ++ (handleCommand db cmd args).2, false⟩],
            false⟩, some ⟨0, cmd, args, (handleCommand db cmd args).2⟩) := by
        simp [Process.turn, hp]
      obtain ⟨h1, h2⟩ := Process.run_single n (handleCommand db cmd args).1 r'
        (out ++ (handleCommand db cmd args).2)
      rw [ht]
      simp only [handleConnection, hp]
      exact ⟨h1, by simpa using h2⟩

end Run

end Vecble.Server
