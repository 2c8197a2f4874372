import TouchHLE.Lib.Kahn

/-! The order in which the dylibs of an app are loaded: `generate_binary_load_order` of `touchHLE/src/environment.rs`.

    Hash maps are functions; the order in which the map of the in-degrees is iterated is an argument. In-degrees are integers:
    a dependency is a load command of 24 bytes or more, in a table whose size is a `u32`. -/

namespace TouchHLE.LoadOrder
open Lib.Kahn (Sorting)

abbrev Name := List Char

structure BinaryDependencyNode where
  name : Name
  dependencies : List Name

inductive LoadError where
  | noMapping (name : Name)
  | cycle (name : Name)
  | noNode
  /-- The loop is not done after as many rounds as there are nodes. -/
  | late
deriving DecidableEq

variable (graph : List BinaryDependencyNode) (order : List Nat)

def nodeToIndex : Name → Option Nat :=
  graph.zipIdx.foldl (fun map e => Function.update map e.1.name (some e.2)) fun _ => none

def usrLib : Name := "/usr/lib/".toList

/-- Names of binaries have no directory, while paths of dynamic libraries do. -/
def stripPath (path : Name) : Name := if usrLib.isPrefixOf path then path.drop usrLib.length else path

structure Maps where
  dependents : Nat → List Nat
  inDegrees : Nat → Option Int

/-- One dependency of the binary at `binIndex`. Names of no packaged dylib are ignored. -/
def Maps.addDependency (nodes : Name → Option Nat) (binIndex : Nat) (maps : Maps) (path : Name) : Maps :=
  match nodes (stripPath path) with
  | none => maps
  | some dylibIndex =>
    { dependents := Function.update maps.dependents dylibIndex (maps.dependents dylibIndex ++ [binIndex])
      inDegrees := Function.update maps.inDegrees binIndex ((maps.inDegrees binIndex).map (· + 1)) }

def Maps.addNode (nodes : Name → Option Nat) (maps : Maps) (node : BinaryDependencyNode) : Except LoadError Maps :=
  match nodes node.name with
  | none => .error (.noMapping node.name)
  | some binIndex => .ok (node.dependencies.foldl (addDependency nodes binIndex) maps)

def Maps.new : Maps where
  dependents _ := []
  inDegrees index := if graph.any (fun node => nodeToIndex graph node.name = some index) then some 0 else none

def start (maps : Maps) : Sorting Nat where
  queue := order.filter fun index => maps.inDegrees index = some 0
  sorted := []
  inDegrees := maps.inDegrees

def rounds (maps : Maps) (n : Nat) : Sorting Nat := (.round maps.dependents)^[n] (start order maps)

def buildMaps : Except LoadError Maps := graph.foldlM (Maps.addNode (nodeToIndex graph)) (.new graph)

def generateBinaryLoadOrder : Except LoadError (List Nat) := do
  let maps ← buildMaps graph
  let sorting := rounds order maps graph.length
  if sorting.queue ≠ [] then
    .error .late
  else
    match order.find? fun index => (sorting.inDegrees index).any (0 < ·) with
    | some index =>
      match graph[index]? with
      | none => .error .noNode
      | some node => .error (.cycle node.name)
    | none => .ok sorting.sorted

end TouchHLE.LoadOrder
