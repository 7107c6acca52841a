import ShardStore.Filter.Basic
/-!
Filters written as scripts.

A script filter runs on entries that carry every required tag and no forbidden one, and runs a
list of actions against its entry. Keys are written as three parts, each a number or a field of
the running entry's key, converted by two's complement. Values are byte templates in which
`\x7bb\x7d`, `\x7bc\x7d` and `\x7bci\x7d` stand for the key's fields in decimal,
`\x7bvalue\x7d` for the entry's value, `\x7bfound\x7d` for the value a lookup found and
`\x7bcount\x7d` for the last query's count; any other brace stays as it is.

Actions write to the run's output, branch on the entry's tags or on a lookup, count entries by
tags, or fail the run with a protocol-state fault.
-/

namespace ShardStore

namespace Script

/-- One part of a key written in a script. -/
inductive Part where
  | num (n : Int)
  | b
  | c
  | info
deriving DecidableEq, Repr, Inhabited

/-- A key written in a script. -/
structure KeyForm where
  info : Part
  b : Part
  c : Part
deriving DecidableEq, Repr, Inhabited

/-- A script action. -/
inductive Action where
  | addTag (tag : String)
  | removeTag (tag : String)
  | setValue (value : Bytes)
  | newEntry (key : KeyForm) (tags : List String) (value : Bytes)
  | subscribe (wait : KeyForm) (wake : Wake)
  | lookup (key : KeyForm) (found missing : List Action)
  | ifTag (tag : String) (yes no : List Action)
  | query (tags : List String)
  | fail (message : String)
deriving Inhabited

/-- A part as a word, by two's complement. -/
def Part.word (k : Key) : Part → UInt64
  | .num n => UInt64.ofNat (n % Int.pow 2 64).toNat
  | .b => k.b.toUInt64
  | .c => k.c.toUInt64
  | .info => k.info

/-- The key a form names for the running entry's key. -/
def KeyForm.eval (f : KeyForm) (k : Key) : Key :=
  ⟨f.info.word k, (f.b.word k).toInt64, (f.c.word k).toInt64⟩

/-- What a running script has: the found value, the count, and its output so far. -/
structure Run where
  found : Bytes
  count : Nat
  out : List Mutation
deriving Inhabited

/-- The bytes a template name stands for. -/
def substitute (k : Key) (value : Bytes) (r : Run) : String → Option Bytes
  | "b" => some (Bytes.ofString (toString k.b.toInt))
  | "c" => some (Bytes.ofString (toString k.c.toInt))
  | "ci" => some (Bytes.ofString (toString k.info.toNat))
  | "value" => some value
  | "found" => some r.found
  | "count" => some (Bytes.ofString (toString r.count))
  | _ => none

/-- Fill a template, left to right: a brace, a name and a closing brace are replaced when the
name is known; otherwise the opening brace is kept and reading goes on after it. -/
def fill (k : Key) (value : Bytes) (r : Run) : Bytes → Bytes
  | [] => []
  | b :: rest =>
    if b = 0x7b then
      match rest.idxOf? 0x7d with
      | some i =>
        match Bytes.utf8? (rest.take i) >>= substitute k value r with
        | some s => s ++ fill k value r (rest.drop (i + 1))
        | none => b :: fill k value r rest
      | none => b :: fill k value r rest
    else b :: fill k value r rest
termination_by bs => bs.length
decreasing_by
  all_goals
    simp only [List.length_drop, List.length_cons]
    omega

mutual

/-- Run one action on an entry. -/
def Action.run (look : Lookup) (e : Entry) : Action → Run → Outcome Run
  | .addTag t, r => pure { r with out := r.out ++ [.addTag e.key t] }
  | .removeTag t, r => pure { r with out := r.out ++ [.removeTag e.key t] }
  | .setValue v, r => pure { r with out := r.out ++ [.updateValue e.key (fill e.key e.value r v)] }
  | .newEntry k tags v, r =>
    pure { r with out := r.out ++ [.addEntry (Entry.make (k.eval e.key) tags (fill e.key e.value r v))] }
  | .subscribe w wake, r => pure { r with out := r.out ++ [.subscribe e.key (w.eval e.key) wake] }
  | .lookup k found missing, r => do
    match ← look.value (k.eval e.key) with
    | some v => do
      let r' ← Action.runAll look e found { r with found := v }
      pure { r' with found := r.found }
    | none => Action.runAll look e missing r
  | .ifTag t yes no, r => if e.hasTag t then Action.runAll look e yes r else Action.runAll look e no r
  | .query tags, r => pure { r with count := (look.entries tags).length }
  | .fail msg, _ => .error (.protocolState msg)

/-- Run actions in order. -/
def Action.runAll (look : Lookup) (e : Entry) : List Action → Run → Outcome Run
  | [], r => pure r
  | a :: as, r => do
    let r ← a.run look e r
    Action.runAll look e as r

end

end Script

/-- A filter written as a script. -/
structure ScriptFilter where
  name : String
  require : List String
  forbid : List String
  actions : List Script.Action
deriving Inhabited

namespace ScriptFilter

/-- Whether the filter runs on an entry. -/
def shouldRun (f : ScriptFilter) (e : Entry) : Bool :=
  f.require.all e.hasTag && !f.forbid.any e.hasTag

/-- Run the filter on an entry: the mutations it makes. -/
def run (f : ScriptFilter) (look : Lookup) (e : Entry) : Outcome (List Mutation) := do
  let r ← Script.Action.runAll look e f.actions ⟨[], 0, []⟩
  pure r.out

end ScriptFilter

end ShardStore
