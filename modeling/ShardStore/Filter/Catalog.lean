import ShardStore.Filter.Split
import ShardStore.Filter.Script
import ShardStore.Graph.Program
/-!
Filters, the catalog of bundles, and the filters an agent has installed.

A filter either runs on single entries or starts vertex programs in the graph stage. The catalog
maps bundle names to lists of filters; the built-in bundle splits blocks and searches the
transaction graphs of two chains. An agent first makes bundles available (a later filter of the
same name replaces an earlier one), then installs available filters by name: installing twice
does nothing, and the install order is the order filters run in.
-/

namespace ShardStore

/-- A filter that runs on single entries. -/
inductive SingleFilter where
  /-- Split blocks of a chain into transactions. -/
  | blockToTx (chain : String) (domain : UInt32)
  | script (f : ScriptFilter)
deriving Inhabited

namespace SingleFilter

/-- The name of a single-entry filter. -/
def name : SingleFilter → String
  | blockToTx chain _ => chain ++ "_block_to_tx"
  | script f => f.name

/-- Whether the filter runs on an entry. -/
def shouldRun (f : SingleFilter) (e : Entry) : Bool :=
  match f with
  | blockToTx chain _ =>
    e.hasTag chain && e.hasTag "block" && !e.hasTag (doneTag f.name) && !e.hasTag (failTag f.name)
  | script s => s.shouldRun e

/-- Run the filter on an entry: the mutations it makes. -/
def run (f : SingleFilter) (look : Lookup) (e : Entry) : Outcome (List Mutation) :=
  match f with
  | blockToTx chain domain =>
    match Split.transactions domain e.value with
    | some txs =>
      pure (txs.map (fun (k, idTag, v) => .addEntry (Entry.make k [chain, "tx", idTag] v)) ++
        [.addTag e.key (doneTag f.name)])
    | none => pure [.addTag e.key (failTag f.name)]
  | script s => s.run look e

end SingleFilter

/-- A filter. -/
inductive Filter where
  | single (f : SingleFilter)
  | group (f : GroupFilter)
deriving Inhabited

namespace Filter

/-- The name of a filter. -/
def name : Filter → String
  | single f => f.name
  | group f => f.name

/-- The name of a filter's kind. -/
def kindName : Filter → String
  | single _ => "SingleEntry"
  | group _ => "GroupEntries"

/-- Whether the filter belongs to the graph stage. -/
def isGroup : Filter → Bool
  | single _ => false
  | group _ => true

end Filter

/-- The name of the built-in bundle. -/
def builtinBundle : String := "builtin"

/-- The built-in filters. -/
def builtinFilters : List Filter :=
  [.single (.blockToTx "BTC" 0), .single (.blockToTx "DOGE" 6),
    .group (.subgraph "BTC" 0), .group (.subgraph "DOGE" 6)]

/-- Bundles of filters by name, in name order. -/
structure Catalog where
  bundles : List (String × List Filter)
deriving Inhabited

namespace Catalog

/-- Register a bundle, replacing one of the same name. -/
def register (c : Catalog) (name : String) (fs : List Filter) : Catalog :=
  let rec ins : List (String × List Filter) → List (String × List Filter)
    | [] => [(name, fs)]
    | (n, gs) :: rest =>
      if name < n then (name, fs) :: (n, gs) :: rest
      else if name = n then (name, fs) :: rest
      else (n, gs) :: ins rest
  ⟨ins c.bundles⟩

/-- The catalog with the built-in bundle only. -/
def builtin : Catalog := ⟨[(builtinBundle, builtinFilters)]⟩

/-- The filters of a bundle. -/
def bundle (c : Catalog) (name : String) : Outcome (List Filter) :=
  match c.bundles.find? (·.1 = name) with
  | some (_, fs) => .ok fs
  | none => .error (.bundleNotFound name)

end Catalog

/-- The filters an agent can install and has installed. -/
structure FilterSet where
  catalog : Catalog
  available : List (String × Filter)
  installed : List Filter
deriving Inhabited

namespace FilterSet

/-- Nothing available yet. -/
def ofCatalog (c : Catalog) : FilterSet := ⟨c, [], []⟩

/-- Make a bundle's filters available; the bundle's size. -/
def addBundle (s : FilterSet) (name : String) : Outcome (Nat × FilterSet) := do
  let fs ← s.catalog.bundle name
  let available := fs.foldl (fun av f => (f.name, f) :: av.filter (·.1 ≠ f.name)) s.available
  pure (fs.length, { s with available })

/-- Install an available filter by name, once. -/
def install (s : FilterSet) (name : String) : Outcome FilterSet :=
  if s.installed.any (·.name = name) then .ok s
  else
    match s.available.find? (·.1 = name) with
    | some (_, f) => .ok { s with installed := s.installed ++ [f] }
    | none => .error (.filterNotFound name)

/-- Uninstall everything; what is available stays. -/
def clear (s : FilterSet) : FilterSet := { s with installed := [] }

/-- The installed names, in install order. -/
def names (s : FilterSet) : List String := s.installed.map (·.name)

/-- The installed single-entry filters, in install order. -/
def singles (s : FilterSet) : List SingleFilter :=
  s.installed.filterMap fun
    | .single f => some f
    | .group _ => none

/-- The installed group filters, in install order. -/
def groups (s : FilterSet) : List GroupFilter :=
  s.installed.filterMap fun
    | .group f => some f
    | .single _ => none

/-- Whether a group filter is installed. -/
def hasGroups (s : FilterSet) : Bool := s.installed.any (·.isGroup)

end FilterSet

end ShardStore
