import LiveMarkup.Script.State
import Std.Data.HashSet

/-!
What is left of a script's world between statements. A thing lasts as long as it is a root or something that lasts refers
to it; in particular things that refer to each other in a circle last. A child does not make its parent last, and a
parent that is gone is no parent any more.
-/

namespace LiveMarkup.Script
open Document Live Reactive

inductive Thing where
  | environment (id : EnvironmentId)
  | node (id : NodeId)
  | deferred (id : LazyId)
  | region (id : RegionId)
  | claim (id : ClaimId)
  | event (id : EventId)
  | reference (id : ReferenceId)
  deriving Repr, DecidableEq, Hashable

namespace Thing

variable {κ : Type}

def ofClosure (closure : Closure κ) : List Thing := [.environment closure.environment]

def ofNode? (n : Option NodeId) : List Thing := (n.map Thing.node).toList

def ofSource : Source (Closure κ) → List Thing
  | .code closure => ofClosure closure
  | .cell _ => []

mutual

def ofView : View (Closure κ) → List Thing
  | .node n => [.node n]
  | .list items => ofViews items
  | .dynamic source => ofSource source
  | .deferred id => [.deferred id]
  | .empty => []
  | .text _ => []
  | .html _ => []

def ofViews : List (View (Closure κ)) → List Thing
  | [] => []
  | view :: rest => ofView view ++ ofViews rest

end

def ofEntry : Entry (Closure κ) → List Thing
  | .value _ => []
  | .getter code => ofClosure code
  | .children code => ofClosure code
  | .handler code => ofClosure code

def ofNamed : Named κ → List Thing
  | .node n => [.node n]
  | .view shown => ofView shown
  | .props entries => entries.flatMap fun (_, entry) => ofEntry entry
  | .reference id => [.reference id]
  | .listener n _ => [.node n]
  | .event id => [.event id]
  | .template root => [.node root]
  | _ => []

def ofProcedure {ι : Type} : Procedure (Closure κ) ι → List Thing
  | .view source => ofSource source
  | .attributeText source => ofSource source
  | .datum source => ofSource source
  | .act code => ofClosure code
  | .handle code id => .event id :: ofClosure code
  | .items shown => ofView shown
  | .markup shown => ofView shown
  | .refresh id shown => .region id :: ofView shown
  | .bind n _ source => .node n :: ofSource source
  | .bindProperty n _ source => .node n :: ofSource source
  | .bindEntry n _ code => .node n :: ofClosure code
  | .unlisten n _ => [.node n]

def ofOwner (owner : Owner (Procedure (Closure κ)) Datum) : List Thing :=
  let body := match owner.body with
    | none => []
    | some (.effect task) => ofProcedure task
    | some (.computed _ task) => ofProcedure task
  body ++ owner.cleanups.flatMap ofProcedure

def ofClaim (claim : Claim) : List Thing :=
  .node claim.parent :: ofNode? claim.first ++ ofNode? claim.ending ++ ofNode? claim.next

def ofRegion (mounted : Mounted) : List Thing :=
  let region := mounted.region
  .node region.parent :: ofNode? region.start ++ ofNode? region.ending ++ ofNode? region.before ++
    region.current.map .node ++ (mounted.pending.map Thing.claim).toList

end Thing

namespace Lifetime

abbrev ScriptWorld (κ : Type) := World (Closure κ) (Memory κ)

variable {κ : Type}

def referred (world : ScriptWorld κ) : Thing → List Thing
  | .environment id =>
    match world.host.environments[id]? with
    | none => []
    | some environment =>
      (environment.outer.map Thing.environment).toList ++ environment.names.flatMap fun (_, named) => Thing.ofNamed named
  | .node id =>
    match world.document.node? id with
    | none => []
    | some node => node.children.map .node ++ node.listeners.flatMap fun listener => Thing.ofClosure listener.handler
  | .deferred id =>
    match world.lazies[id]? with
    | none => []
    | some found =>
      (found.code.map Thing.ofClosure).getD [] ++ (found.value.map Thing.ofView).getD []
  | .region id => ((world.regions[id]?).map Thing.ofRegion).getD []
  | .claim id => ((world.claims[id]?).map Thing.ofClaim).getD []
  | .event id => ((world.events[id]?).map fun event => Thing.ofNode? event.target ++ Thing.ofNode? event.current).getD []
  | .reference id => Thing.ofNode? (world.references[id]?).join

def things (world : ScriptWorld κ) : List Thing :=
  (List.range world.host.environments.size).map .environment ++ (List.range world.document.nodes.size).map .node ++
    (List.range world.lazies.size).map .deferred ++ (List.range world.regions.size).map .region ++
    (List.range world.claims.size).map .claim ++ (List.range world.events.size).map .event ++
    (List.range world.references.size).map .reference

def roots (graph : Reactive.Graph (Procedure (Closure κ)) Datum) : List Thing :=
  .environment topLevel :: graph.owners.entries.flatMap fun (_, owner) => Thing.ofOwner owner

/-- Drops what nothing that is left refers to, until that changes nothing; at most `fuel` times. -/
def shrink (world : ScriptWorld κ) (roots : List Thing) : (fuel : Nat) → List Thing → List Thing
  | 0, left => left
  | fuel + 1, left =>
    let named := Std.HashSet.ofList (roots ++ left.flatMap (referred world))
    let next := left.filter named.contains
    if next.length = left.length then left else shrink world roots fuel next

def goneNodes (graph : Reactive.Graph (Procedure (Closure κ)) Datum) (world : ScriptWorld κ) : List NodeId :=
  let all := things world
  let left := Std.HashSet.ofList (shrink world (roots graph) all.length all)
  (List.range world.document.nodes.size).filter fun n => !left.contains (.node n)

def orphanChildren (doc : Document (Closure κ) Property) (gone : List NodeId) : Document (Closure κ) Property :=
  gone.foldl (fun doc n => doc.orphan ((doc.children n).filter fun child => doc.parent? child == some n)) doc

def settle (state : State (Procedure (Closure κ)) (ScriptWorld κ) Datum) : State (Procedure (Closure κ)) (ScriptWorld κ) Datum :=
  let world := state.outside
  { state with outside := { world with document := orphanChildren world.document (goneNodes state.graph world) } }

end Lifetime
end LiveMarkup.Script
