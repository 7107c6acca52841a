import ShardStore.Console.Command
/-!
The agent program.

`main` reads the command line and the settings file it names, starts one agent and serves it.
The agent listens on standard input: each line is a request frame in hexadecimal, answered by
one line holding the reply frame in hexadecimal, after which the agent handles whatever it sent
itself. Nothing else can be reached from here, so joining a seed fails.

The program ends with status 0 at the end of its input or after showing help or its version,
with status 2 when the command line cannot be read, and with status 1 when the settings cannot
be had, the agent cannot start, or the agent stops at a fatal fault; the error report goes to
standard error.
-/

open ShardStore ShardStore.Console

/-- The settings file a command line names, read once: its text under its own name, or the
fault of reading it. -/
def settingsReader (flags : Flags) : IO (String → Outcome String) := do
  match flags.config with
  | none => pure fun _ => .error Disk.notFound
  | some path =>
    let text ← try
        pure (Except.ok (← IO.FS.readFile path))
      catch e => pure (Except.error (Fault.io (toString e)))
    pure fun p => if p == path then text else .error Disk.notFound

/-- Write an error report to standard error. -/
def printReport (lines : List String) : IO Unit := do
  let err ← IO.getStderr
  lines.forM err.putStrLn

/-- Answer request lines until the input ends or the agent stops; the fault that stopped it. -/
partial def serve (stdin stdout : IO.FS.Stream) (a : Address) (m : Mesh) : IO (Option Fault) := do
  let line ← stdin.getLine
  if line.isEmpty then return none
  let text := line.trimAsciiEnd.toString
  if text.isEmpty then return ← serve stdin stdout a m
  match Bytes.ofHex? text with
  | none =>
    stdout.putStrLn "bad frame: expected hexadecimal"
    stdout.flush
    serve stdin stdout a m
  | some frame =>
    let (reply, m) := match (Mesh.ask a frame).run m with
      | .ok (reply, _) m => (reply, m)
      | .error f m => ((Reply.ofFault f).encode, m)
    stdout.putStrLn (Bytes.toHex reply)
    stdout.flush
    let m := m.settle
    match (m.find? a).bind (·.halted) with
    | some f => return some f
    | none => serve stdin stdout a m

/-- Run the agent program. -/
def main (args : List String) : IO UInt32 := do
  match Flags.parse args with
  | .error .displayHelp =>
    IO.println Flags.help
    return 0
  | .error .displayVersion =>
    IO.println Flags.versionLine
    return 0
  | .error e =>
    (← IO.getStderr).putStrLn s!"error: {e.describe}"
    return 2
  | .ok flags =>
    match AgentConfig.fromFlags (← settingsReader flags) flags with
    | .error e =>
      printReport (reportLines "loading agent config" (settingsCauses e) "&str")
      return 1
    | .ok cfg =>
      match Mesh.empty.start cfg Budget.floor.toNat Catalog.builtin with
      | .error f =>
        printReport (reportLines s!"starting agent at {cfg.bind.render}" (causes f)
          "alloc::string::String")
        return 1
      | .ok m =>
        match ← serve (← IO.getStdin) (← IO.getStdout) cfg.bind m with
        | some f =>
          printReport (reportLines "agent stopped with an error" (causes f) "&str")
          return 1
        | none => return 0
