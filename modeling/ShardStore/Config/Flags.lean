import ShardStore.Config.Agent
import ShardStore.Decimal.Read
/-!
The command line of an agent.

Options take one value, given after `=` in a long option, attached to a short one (after an
optional `=`), or as the next argument; an argument that looks like an option is never taken as
a value, so `-M -2` is read as an unknown option `-2`. Each option and switch may be given once,
except `--bundle`, which adds a bundle each time. There are no positional arguments, so any
argument that is not an option, and every argument after `--`, is unknown.

Arguments are read in order and the first problem ends the reading: an unknown argument, an
option whose value is missing or cannot be read, a repeated option, a value given to a switch.
Help and version switches end it too. An option waiting for its value when another option or
switch comes has no value; an unknown argument is reported before that.
-/

namespace ShardStore

/-- Why reading a command line stopped. -/
inductive FlagError where
  | unknownArgument
  /-- An option without its value. -/
  | invalidValue
  /-- A value that cannot be read as the option's type. -/
  | valueValidation
  /-- An option given twice. -/
  | argumentConflict
  /-- A value given to a switch. -/
  | tooManyValues
  | displayHelp
  | displayVersion
deriving DecidableEq, Repr

/-- The name of the kind of problem. -/
def FlagError.kindName : FlagError → String
  | .unknownArgument => "UnknownArgument"
  | .invalidValue => "InvalidValue"
  | .valueValidation => "ValueValidation"
  | .argumentConflict => "ArgumentConflict"
  | .tooManyValues => "TooManyValues"
  | .displayHelp => "DisplayHelp"
  | .displayVersion => "DisplayVersion"

/-- What a problem with a command line is. -/
def FlagError.describe : FlagError → String
  | .unknownArgument => "unexpected argument found"
  | .invalidValue => "a value is required but none was supplied"
  | .valueValidation => "invalid value for an option"
  | .argumentConflict => "an argument cannot be used multiple times"
  | .tooManyValues => "unexpected value for a switch"
  | .displayHelp => "help requested"
  | .displayVersion => "version requested"

/-- The options that take a value. -/
inductive Opt where
  | config | bind | seed | memoryGb | bundle | vnodes | heartbeat
deriving DecidableEq, Repr

/-- The switches. -/
inductive Switch where
  | skipGroups | help | version
deriving DecidableEq, Repr

/-- What a command line sets. -/
structure Flags where
  /-- The settings file to start from. -/
  config : Option String
  bind : Option Address
  seed : Option Address
  memoryGb : Option Float
  skipGroups : Bool
  bundles : List String
  vnodes : Option UInt16
  heartbeatMs : Option UInt64

namespace Flags

/-- Nothing set. -/
def empty : Flags := ⟨none, none, none, none, false, [], none, none⟩

/-- An option or switch by its long name. -/
def long? (name : String) : Option (Opt ⊕ Switch) :=
  match name with
  | "config" => some (.inl .config)
  | "bind" => some (.inl .bind)
  | "seed" => some (.inl .seed)
  | "memory-gb" => some (.inl .memoryGb)
  | "bundle" => some (.inl .bundle)
  | "virtual-agents" => some (.inl .vnodes)
  | "heartbeat-interval-ms" => some (.inl .heartbeat)
  | "skip-group-filters" => some (.inr .skipGroups)
  | "help" => some (.inr .help)
  | "version" => some (.inr .version)
  | _ => none

/-- An option or switch by its short name. -/
def short? (c : Char) : Option (Opt ⊕ Switch) :=
  match c with
  | 'c' => some (.inl .config)
  | 'b' => some (.inl .bind)
  | 's' => some (.inl .seed)
  | 'M' => some (.inl .memoryGb)
  | 'h' => some (.inr .help)
  | 'V' => some (.inr .version)
  | _ => none

/-- A signed 64-bit integer as decimal text, with an optional sign. -/
def int64? (cs : List Char) : Option Int :=
  match cs with
  | '-' :: rest => (Text.unsigned? rest (Nat.pow 2 63 + 1)).bind fun n =>
      if rest.head? == some '+' then none else some (-(n : Int))
  | _ => (Text.unsigned? cs (Nat.pow 2 63)).map Int.ofNat

/-- Whether an option already has its value. -/
def has (f : Flags) : Opt → Bool
  | .config => f.config.isSome
  | .bind => f.bind.isSome
  | .seed => f.seed.isSome
  | .memoryGb => f.memoryGb.isSome
  | .bundle => false
  | .vnodes => f.vnodes.isSome
  | .heartbeat => f.heartbeatMs.isSome

/-- Read an option's value into the flags; an option given before is refused. -/
def setOpt (f : Flags) (o : Opt) (v : String) : Except FlagError Flags := do
  if f.has o then throw .argumentConflict
  let bad : Except FlagError Flags := throw .valueValidation
  match o with
  | .config => pure { f with config := some v }
  | .bind => match Address.parse? v with
    | some a => pure { f with bind := some a }
    | none => bad
  | .seed => match Address.parse? v with
    | some a => pure { f with seed := some a }
    | none => bad
  | .memoryGb => match Decimal.readFloat? v with
    | some x => pure { f with memoryGb := some x }
    | none => bad
  | .bundle => pure { f with bundles := f.bundles ++ [v] }
  | .vnodes => match int64? v.toList with
    | some n =>
      if 0 ≤ n ∧ n < Int.pow 2 16 then pure { f with vnodes := some (UInt16.ofNat n.toNat) } else bad
    | none => bad
  | .heartbeat => match Text.unsigned? v.toList (Nat.pow 2 64) with
    | some n => pure { f with heartbeatMs := some (UInt64.ofNat n) }
    | none => bad

/-- Where reading stands: the flags so far, an option waiting for its value, and whether `--`
was passed. -/
structure Reading where
  flags : Flags
  pending : Option Opt
  escaped : Bool

/-- Settle an option still waiting for its value: it has none. -/
def settle (r : Reading) : Except FlagError Reading :=
  match r.pending with
  | some _ => throw .invalidValue
  | none => pure r

/-- Act on a switch. -/
def onSwitch (r : Reading) (s : Switch) : Except FlagError Reading := do
  let r ← settle r
  match s with
  | .help => throw .displayHelp
  | .version => throw .displayVersion
  | .skipGroups =>
    if r.flags.skipGroups then throw .argumentConflict
    else pure { r with flags := { r.flags with skipGroups := true } }

/-- Act on an option, with its value when it came with one. -/
def onOpt (r : Reading) (o : Opt) (v : Option String) : Except FlagError Reading := do
  let r ← settle r
  match v with
  | some v => pure { r with flags := ← r.flags.setOpt o v }
  | none => pure { r with pending := some o }

/-- Read a cluster of short switches, ending at the first option, which takes the rest of the
cluster as its value if there is any. -/
def onShorts (r : Reading) : List Char → Except FlagError Reading
  | [] => pure r
  | c :: rest =>
    match short? c with
    | none => throw .unknownArgument
    | some (.inr s) => do onShorts (← onSwitch r s) rest
    | some (.inl o) =>
      let v := match rest with
        | [] => none
        | '=' :: more => some (String.ofList more)
        | more => some (String.ofList more)
      onOpt r o v

/-- Read one argument. -/
def step (r : Reading) (arg : String) : Except FlagError Reading :=
  let cs := arg.toList
  if r.escaped then throw .unknownArgument
  else match cs with
    | ['-', '-'] => pure { r with escaped := true }
    | '-' :: '-' :: name =>
      let (n, v) := match name.span (· != '=') with
        | (n, '=' :: v) => (n, some (String.ofList v))
        | (n, _) => (n, none)
      match long? (String.ofList n), v with
      | none, _ => throw .unknownArgument
      | some (.inr _), some _ => throw .tooManyValues
      | some (.inr s), none => onSwitch r s
      | some (.inl o), v => onOpt r o v
    | '-' :: c :: more => onShorts r (c :: more)
    | _ =>
      match r.pending with
      | some o => do pure { r with flags := ← r.flags.setOpt o arg, pending := none }
      | none => throw .unknownArgument

/-- The program's name and version. -/
def versionLine : String := "pando-agent 0.3.0"

/-- What the help switch shows. -/
def help : String := "\n".intercalate [
  "Pando storage agent",
  "",
  "Usage: pando-agent [OPTIONS]",
  "",
  "Options:",
  "  -c, --config <CONFIG>             YAML config file; flags override its values",
  "  -b, --bind <BIND>                 Address to bind, as \"<ipv4>,<id>\"",
  "  -s, --seed <SEED>                 Agent to join through, as \"<ipv4>,<id>\"",
  "  -M, --memory-gb <MEMORY_GB>       Store budget in GB",
  "      --skip-group-filters",
  "      --bundle <BUNDLES>            Filter bundle to make available (repeatable)",
  "      --virtual-agents <VIRTUAL_AGENTS>",
  "      --heartbeat-interval-ms <HEARTBEAT_INTERVAL_MS>",
  "  -h, --help                        Print help",
  "  -V, --version                     Print version"]

/-- Read a command line. -/
def parse (args : List String) : Except FlagError Flags := do
  let r ← args.foldlM step ⟨empty, none, false⟩
  pure (← settle r).flags

/-- Lay the flags over settings: each option given replaces its setting, and bundles given
replace the list of bundles. -/
def apply (f : Flags) (c : AgentConfig) : AgentConfig :=
  { c with
    bind := f.bind.getD c.bind
    seed := if f.seed.isSome then f.seed else c.seed
    memoryGb := if f.memoryGb.isSome then f.memoryGb else c.memoryGb
    skipGroups := f.skipGroups || c.skipGroups
    bundles := if f.bundles.isEmpty then c.bundles else f.bundles
    vnodes := f.vnodes.getD c.vnodes
    heartbeatMs := f.heartbeatMs.getD c.heartbeatMs }

end Flags

end ShardStore
