/-
  Manticore.CpsOpt.Reflow — reachability between program points (`cps-opt/reflow.sml`).

  `addNeighbors` builds the map from each point to the points control goes to next; a call
  through a closure goes through a fabricated point where the closure's variables are bound
  again. `compressSCC` replaces the strongly connected components of the map by
  representatives, `computeReachability` closes the compressed map, and `pathExists` looks
  the answer up. The component finder is the library's (`SCC.topOrder'`), a parameter here;
  so are the analysis results the pass reads (`CFACPS`, `FreeVars.envOfFun`).
-/

import Manticore.Cps.Cfa
import Std.Data.TreeMap

namespace Manticore.Cps.Reflow

/-- `ProgPt.Map`. -/
abbrev PMap (α : Type) := Std.TreeMap Ppt α

/-- `ProgPt.Set`; `listItems` is the sorted list. -/
abbrev PSet := Finset Ppt

def listItems (s : PSet) : List Ppt := s.sort

inductive Reaches where
  | reaches (s : PSet)
  | top

/-! ## Locations -/

/-- What the pass updates: the neighbour map with the targets of unknown calls, the supply of
    points, and the properties of variables. -/
structure St where
  map : PMap Reaches
  ptlist : List Ppt
  next : Ppt
  bindingLocation : Var → Option Ppt
  rebindingLocations : Var → Option PSet
  body : Var → Option Ppt

def St.start (next : Ppt) : St := ⟨∅, [], next, fun _ => none, fun _ => none, fun _ => none⟩

def setRebindingLocation (s : St) (v : Var) (loc : Ppt) : St :=
  { s with rebindingLocations := fun y =>
      if y = v then some (insert loc ((s.rebindingLocations v).getD ∅)) else s.rebindingLocations y }

def setBindingLocation (s : St) (v : Var) (loc : Ppt) : St :=
  { setRebindingLocation s v loc with bindingLocation := fun y => if y = v then some loc else s.bindingLocation y }

def setBodyLocation (s : St) (f : Var) (loc : Ppt) : St :=
  { s with body := fun y => if y = f then some loc else s.body y }

/-- A function without a body location gets a new point. -/
def bodyLocation (s : St) (f : Var) : Ppt × St :=
  match s.body f with
  | some p => (p, s)
  | none => (s.next, setBodyLocation { s with next := s.next + 1 } f s.next)

namespace SetLocations

mutual

def doExp (s : St) : Exp → St
  | .let_ pt xs _ e => doExp (xs.foldl (fun s x => setBindingLocation s x pt) s) e
  | .fun_ pt fbs e => doExp (doLambdas s pt fbs) e
  | .cont pt fb e => doExp (doLambda s pt fb) e
  | .if_ _ _ e₁ e₂ => doExp (doExp s e₁) e₂
  | .switch _ _ cases dflt => doDflt (doCases s cases) dflt
  | .apply _ _ _ _ | .throw _ _ _ => s

def doLambda (s : St) (pt : Ppt) : Lambda → St
  | .fb f params rets body =>
    let s := setBodyLocation (setBindingLocation s f pt) f body.ppt
    let s := params.foldl (fun s x => setBindingLocation s x body.ppt) s
    let s := rets.foldl (fun s x => setBindingLocation s x body.ppt) s
    doExp s body

def doLambdas (s : St) (pt : Ppt) : List Lambda → St
  | [] => s
  | fb :: fbs => doLambdas (doLambda s pt fb) pt fbs

def doCases (s : St) : List (Nat × Exp) → St
  | [] => s
  | (_, e) :: cases => doCases (doExp s e) cases

def doDflt (s : St) : Option Exp → St
  | none => s
  | some e => doExp s e

end

end SetLocations

def setLocations (s : St) (m : Module) : St :=
  SetLocations.doLambda { s with next := s.next + 1 } s.next m.body

/-! ## Neighbours -/

def addInfo (s : St) (p₁ p₂ : Ppt) : St :=
  match s.map[p₁]? with
  | none => { s with map := s.map.insert p₁ (.reaches {p₂}) }
  | some (.reaches ps) => { s with map := s.map.insert p₁ (.reaches (insert p₂ ps)) }
  | some .top => s

def setTop (s : St) (pt : Ppt) : St := { s with map := s.map.insert pt .top }

section

variable (cfa : Cfa) (env : Var → List Var)

/-- The targets of a call at `src` through `orig`. A target that is a closure gets a fabricated
    point, and the targets after it are not visited. -/
def foldChainVars (src : Ppt) (orig : Var) : List Var → St → St
  | [], s => s
  | f :: fs, s =>
    if f = orig ∨ env f = [] then
      let (p, s) := bodyLocation s f
      foldChainVars src orig fs (addInfo s src p)
    else
      let fvPPT := s.next
      let s := { s with next := s.next + 1 }
      let s := (env f).foldr (fun fv s => addInfo (setRebindingLocation s fv fvPPT) src fvPPT) s
      let (p, s) := bodyLocation s f
      addInfo s fvPPT p

/-- `Apply` and `Throw`. -/
def doCall (pt : Ppt) (f : Var) (s : St) : Option St :=
  match cfa.valueOf f with
  | .top => some (setTop s pt)
  | .lambdas fs => some (foldChainVars env pt f fs s)
  | .bot => some s
  | .tuple _ | .bool _ => none

def isUnknown (fb : Lambda) : Bool := match cfa.callersOf fb.f with | .unknown => true | .known _ => false

mutual

def doExp : Exp → St → Option St
  | .let_ pt _ _ e, s => doExp e (addInfo s pt e.ppt)
  | .fun_ pt fbs e, s => do
    let s ← doLambdas fbs s
    let s := addInfo s pt e.ppt
    doExp e (if fbs.any (isUnknown cfa) then { s with ptlist := e.ppt :: s.ptlist } else s)
  | .cont pt fb e, s => do
    let s ← doLambda fb s
    let s := addInfo s pt e.ppt
    doExp e (if isUnknown cfa fb then { s with ptlist := e.ppt :: s.ptlist } else s)
  | .if_ pt _ e₁ e₂, s => do
    let s ← doExp e₁ (addInfo (addInfo s pt e₁.ppt) pt e₂.ppt)
    doExp e₂ s
  | .switch pt _ cases dflt, s => do
    let s ← doCases cases ((cases.map fun c => c.2.ppt).foldr (fun p s => addInfo s pt p) s)
    doDflt pt dflt s
  | .apply pt f _ _, s => doCall cfa env pt f s
  | .throw pt k _, s => doCall cfa env pt k s

def doLambda : Lambda → St → Option St
  | .fb _ _ _ body, s => doExp body s

def doLambdas : List Lambda → St → Option St
  | [], s => some s
  | fb :: fbs, s => do
    let s ← doLambdas fbs s
    doLambda fb s

def doCases : List (Nat × Exp) → St → Option St
  | [], s => some s
  | (_, e) :: cases, s => do
    let s ← doCases cases s
    doExp e s

def doDflt (pt : Ppt) : Option Exp → St → Option St
  | none, s => some s
  | some e, s => doExp e (addInfo s pt e.ppt)

end

def addNeighbors (m : Module) (s : St) : Option St := doLambda cfa env m.body s

end

/-! ## Compression -/

/-- `SCC.component`; a recursive component lists its nodes, at least one. -/
inductive Component where
  | simple (nd : Ppt)
  | recursive (nd : Ppt) (nds : List Ppt)

def Component.nodes : Component → List Ppt
  | .simple nd => [nd]
  | .recursive nd nds => nd :: nds

/-- The first node. -/
def Component.rep : Component → Ppt
  | .simple nd | .recursive nd _ => nd

/-- `SCC.topOrder'`, from its roots and its successor function. -/
abbrev TopOrder := List Ppt → (Ppt → List Ppt) → List Component

def follow (p : PMap Reaches) (ptlist : List Ppt) (pt : Ppt) : List Ppt :=
  match p[pt]? with
  | some .top => ptlist
  | some (.reaches s) => listItems s
  | none => []

def addReps (map : PMap Ppt) (c : Component) : PMap Ppt := c.nodes.foldl (fun map pt => map.insert pt c.rep) map

def reachesFromPoint (p : PMap Reaches) (ptset : PSet) (pt : Ppt) : PSet :=
  match p[pt]? with
  | some .top => ptset
  | some (.reaches s) => s
  | none => ∅

/-- Keeps the points that have no representative. -/
def filterNonReps (newreps : PMap Ppt) (s : PSet) : PSet := s.filter fun pt => ¬ newreps[pt]?.isSome

def findAdj (p : PMap Reaches) (ptset : PSet) (newreps : PMap Ppt) (map : PMap PSet) : Component → PMap PSet
  | .simple pt => map.insert pt (filterNonReps newreps (reachesFromPoint p ptset pt))
  | .recursive pt pts =>
    let adjacents := (pt :: pts).foldl (fun reaches pt => reaches ∪ reachesFromPoint p ptset pt) ∅
    map.insert pt (filterNonReps newreps adjacents)

/-- The representatives and the compressed map. -/
def compressSCC (topOrder : TopOrder) (p : PMap Reaches) (ptlist : List Ppt) : PMap Ppt × PMap PSet :=
  let components := topOrder p.keys (follow p ptlist)
  let newreps := components.foldl addReps ∅
  (newreps, components.foldl (findAdj p ptlist.toFinset newreps) ∅)

/-! ## Closure -/

/-- `invert`: the parents of each point, and the points without successors. -/
def invert (map : PMap PSet) : PMap PSet × List Ppt :=
  map.foldl (fun (m, leaves) ppt s =>
    if s = ∅ then (m, ppt :: leaves)
    else ((listItems s).foldl (fun m ppt' => m.insert ppt' (insert ppt (m[ppt']?.getD ∅))) m, leaves)) (∅, [])

def merge (m : PMap PSet) (p₁ p₂ : Ppt) : PMap PSet :=
  m.insert p₁ ((m[p₁]?.getD ∅) ∪ insert p₂ (m[p₂]?.getD ∅))

def turnGrey (map : PMap PSet) (black : PSet) (parent : Ppt) : Bool :=
  match map[parent]? with
  | none => true
  | some s => decide (∀ x ∈ s, x ∈ black)

/-- `compute`. In an acyclic map each point turns grey once, so the number of points bounds the
    rounds. -/
def compute (map parents : PMap PSet) : Nat → PMap PSet → PSet → PSet → PMap PSet
  | 0, rmap, _, _ => rmap
  | n + 1, rmap, black, grey =>
    match listItems grey with
    | [] => rmap
    | next :: _ =>
      let grey := grey.erase next
      let black := insert next black
      match parents[next]? with
      | none => compute map parents n rmap black grey
      | some ps =>
        let (rmap, grey) := (listItems ps).foldl (fun (rmap, grey) parent =>
          (merge rmap parent next, if turnGrey map black parent then insert parent grey else grey)) (rmap, grey)
        compute map parents n rmap black grey

def computeReachability (map : PMap PSet) : PMap PSet :=
  let (parents, leaves) := invert map
  compute map parents (map.size + 1) ∅ ∅ leaves.toFinset

/-! ## The pass -/

/-- The tables of the pass. -/
structure Tables where
  representative : PMap Ppt
  graph : PMap PSet

/-- `analyze`, with points from `next` on still unused. -/
def analyze (topOrder : TopOrder) (cfa : Cfa) (env : Var → List Var) (m : Module) (next : Ppt) : Option Tables := do
  let s ← addNeighbors cfa env m (setLocations (.start next) m)
  let (newreps, compressed) := compressSCC topOrder s.map s.ptlist
  return ⟨newreps, computeReachability compressed⟩

/-- `none` is the exception of a point that was not analyzed. -/
def pathExists (t : Tables) (p₁ p₂ : Ppt) : Option Bool := do
  let rep₁ ← t.representative[p₁]?
  let rep₂ ← t.representative[p₂]?
  if rep₁ = rep₂ then return true
  else match t.graph[rep₁]? with
    | none => return false
    | some ps => return decide (rep₂ ∈ ps)

def pointAnalyzed (t : Tables) (p : Ppt) : Bool := t.representative[p]?.isSome

end Manticore.Cps.Reflow
