/-
  Manticore.Codegen.PrintTable — the scan functions the compiler prints for the header table
  (`driver/header-tbl-print.sml`).

  A printed function is its statements and what it returns. A statement of a mixed object's function looks at
  one word and replaces it when the tests of one of its clauses hold; the printer walks the mask from its end,
  so the first field is at the first word. What the tests say of a word is left to the collector (`Heap`): a
  scan is described by the words it replaces and by how far it advances.
-/

import Manticore.Codegen.HeaderTable
import Manticore.ParallelRt.Header

namespace Manticore.Codegen

open ParallelRt (Word getLength isPtr)

/-! ## Printed code -/

/-- The tests on a word `v`: `isPtr (v)`, `inAddrRange (nurseryBase, allocSzB, v)`,
    `inAddrRange (heapBase, oldSzB, v)`, `inVPHeap (heapBase, v)` and `isFromSpacePtr (v)`. -/
inductive Test where
  | isPtr | inNursery | inOld | inVPHeap | isFromSpacePtr
  deriving DecidableEq, Repr

/-- What the word is replaced with: the copy a forwarding function returns, or `v - oldSzB`. -/
inductive Act where
  | forwardMinor | forwardMajor | forwardGlobal | adjust
  deriving DecidableEq, Repr

/-- `if (tests) *p = act`. -/
structure Clause where
  tests : List Test
  act : Act
  deriving DecidableEq, Repr

/-- The statement on the word at `scanP+pos`: its clauses, each after an `else`. -/
structure Stm where
  pos : Nat
  clauses : List Clause
  deriving DecidableEq, Repr

/-- A scan function: those of raw, vector and proxy objects read the length of the header. -/
inductive ScanFn where
  | raw
  | vector (clauses : List Clause)
  | proxy
  | mixed (stms : List Stm) (ret : Nat)
  deriving DecidableEq, Repr

/-- The four columns of the table. -/
inductive Column where
  | minorGC | majorGC | globalGC | scanGlobalToSpace
  deriving DecidableEq, Repr

namespace PrintTable

/-- `lp` of the four printers: a statement for each 1 of the mask, from its end. -/
def lp (clauses : List Clause) : Nat → Mask → Nat → List Stm
  | 0, _, _ => []
  | strlen + 1, bites, pos =>
    if bites[strlen]? = some true then ⟨pos, clauses⟩ :: lp clauses strlen bites (pos + 1)
    else lp clauses strlen bites (pos + 1)

/-- `printmystring` of the four printers: the function of one entry. -/
def printmystring (clauses : List Clause) (a : Mask) : ScanFn := .mixed (lp clauses a.length a 0) a.length

def minor (a : Mask) : ScanFn := printmystring [⟨[.inNursery], .forwardMinor⟩] a

def major (a : Mask) : ScanFn := printmystring [⟨[.inOld], .forwardMajor⟩, ⟨[.inVPHeap], .adjust⟩] a

def globaltospace (a : Mask) : ScanFn := printmystring [⟨[.inVPHeap], .forwardGlobal⟩] a

def global (a : Mask) : ScanFn := printmystring [⟨[.isFromSpacePtr], .forwardGlobal⟩] a

/-- The function of an entry's mask in a column. -/
def column : Column → Mask → ScanFn
  | .minorGC => minor
  | .majorGC => major
  | .globalGC => global
  | .scanGlobalToSpace => globaltospace

/-- The function the printed prelude has for vectors. -/
def vectorFn : Column → ScanFn
  | .minorGC => .vector [⟨[.isPtr, .inNursery], .forwardMinor⟩]
  | .majorGC => .vector [⟨[.isPtr, .inOld], .forwardMajor⟩, ⟨[.isPtr, .inVPHeap], .adjust⟩]
  | .globalGC => .vector [⟨[.isFromSpacePtr], .forwardGlobal⟩]
  | .scanGlobalToSpace => .vector [⟨[.isPtr, .inVPHeap], .forwardGlobal⟩]

def predefined : Nat := 3

/-- `createtable`: the entry with a number, in a column. The entry `i` from 3 on names the functions printed
    for the mask with number `i`. -/
def createtable (t : HeaderTable) (c : Column) (i : Nat) : Option ScanFn :=
  if i = 0 then some .raw
  else if i = 1 then some (vectorFn c)
  else if i = 2 then some .proxy
  else if i < t.items.length + predefined then (t.items.find? fun e => e.2 == i).map fun e => column c e.1
  else none

end PrintTable

/-! ## Scans -/

/-- Where the collector's regions are. -/
structure Heap where
  inNursery : Word → Bool
  inOld : Word → Bool
  inVPHeap : Word → Bool
  inFromSpace : Word → Bool

namespace Heap

variable (h : Heap)

def test (v : Word) : Test → Bool
  | .isPtr => isPtr v
  | .inNursery => h.inNursery v
  | .inOld => h.inOld v
  | .inVPHeap => h.inVPHeap v
  | .isFromSpacePtr => isPtr v && h.inFromSpace v

/-- What happens to a word, if anything. -/
def act (v : Word) (clauses : List Clause) : Option Act :=
  (clauses.find? fun c => c.tests.all (h.test v)).map Clause.act

/-- The word is an address of the region the column looks at. -/
def inRegion (c : Column) (v : Word) : Bool :=
  match c with
  | .minorGC => h.inNursery v
  | .majorGC => h.inOld v || h.inVPHeap v
  | .globalGC => h.inFromSpace v
  | .scanGlobalToSpace => h.inVPHeap v

end Heap

namespace ScanFn

/-- The words a scan replaces, in an object with header `hdr` and words `ws`. -/
def replaces (h : Heap) (hdr : Word) (ws : Nat → Word) : ScanFn → List Nat
  | .raw | .proxy => []
  | .vector clauses => (List.range (getLength hdr).toNat).filter fun i => (h.act (ws i) clauses).isSome
  | .mixed stms _ => (stms.filter fun s => (h.act (ws s.pos) s.clauses).isSome).map Stm.pos

/-- What the scan returns, counted from the first word of the object. -/
def advance (hdr : Word) : ScanFn → Int
  | .raw | .proxy => getLength hdr
  | .vector _ => getLength hdr
  | .mixed _ ret => ret

end ScanFn

end Manticore.Codegen
