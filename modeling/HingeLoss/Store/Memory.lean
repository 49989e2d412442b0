import HingeLoss.Store.TermStore

/-!
# HingeLoss.Store.Memory

The store that holds its terms in memory, in the order of their insertion.  It may have a capacity,
past which terms are refused, and a shuffler, which reorders the terms at the start of each run.
-/

namespace HingeLoss

structure MemoryStore where
  terms : Array (Term Single) := #[]
  /-- The generator, until the store is closed. -/
  generator : Option Generator := some {}
  closed : Bool := false
  /-- A store is closed when its generator is taken away. -/
  closed_eq : closed = generator.isNone := by rfl
  atoms : AtomTable
  capacity : Option Nat := none
  shuffler : Option Shuffler := none

namespace MemoryStore

/-- Refuses a closed store. -/
def checkOpen (s : MemoryStore) : Except Fault Unit :=
  if s.closed then .error .storeClosed else .ok ()

/-- Refuses a term past the capacity. -/
def checkRoom (s : MemoryStore) : Except Fault Unit :=
  match s.capacity with
  | none => .ok ()
  | some limit =>
    if limit ≤ s.terms.size then .error (.capacity .term s.terms.size limit) else .ok ()

/-- The greatest number of terms that room can be made for: a term takes 64 bytes, and less than
`2 ^ 63` bytes can be addressed. -/
def maxRoom : Nat := 0x7fffffffffffffff / 64

/-- Makes room for terms, as far as the capacity allows them.  Room changes no answer. -/
def reserve (n : Nat) : EStateM Fault MemoryStore Unit := fun s =>
  let n := match s.capacity with
    | none => n
    | some limit => min n limit
  if maxRoom < n then .error (.noRoom n maxRoom) s else .ok () s

/-- What stands against the insertion of a term. -/
def checkInsert (s : MemoryStore) (t : Term Single) : Except Fault Unit := do
  s.checkOpen
  TermStore.checkVariables s.atoms t
  s.checkRoom

/-- Stores a term behind the others. -/
def insert (t : Term Single) : EStateM Fault MemoryStore Unit := fun s =>
  match s.checkInsert t with
  | .error e => .error e s
  | .ok () => .ok () { s with terms := s.terms.push t }

def termAt (i : Nat) : EStateM Fault MemoryStore (Term Single) := fun s =>
  match s.checkOpen, s.terms[i]? with
  | .error e, _ => .error e s
  | .ok (), none => .error (.capacity .termIndex i s.terms.size) s
  | .ok (), some t => .ok t s

def listTerms : EStateM Fault MemoryStore (List (Except Fault (Term Single))) := fun s =>
  match s.checkOpen with
  | .error e => .error e s
  | .ok () => .ok (s.terms.toList.map .ok) s

/-- Reorders the terms, if the store has a shuffler.  Each run makes the same draw. -/
def beginRun : EStateM Fault MemoryStore Unit := fun s =>
  match s.checkOpen, s.shuffler with
  | .error e, _ => .error e s
  | .ok (), none => .ok () s
  | .ok (), some shuffler => .ok () { s with terms := shuffler.apply 0 s.terms }

/-- Takes the generator away, for good. -/
def shut (s : MemoryStore) : MemoryStore := { s with
  generator := none
  closed := true
  closed_eq := rfl }

instance : TermStore MemoryStore where
  atoms := atoms
  withAtoms t s := { s with atoms := t }
  size s := s.terms.size
  generator := generator
  isClosed := closed
  reserve := reserve
  insert := insert
  termAt := termAt
  terms := listTerms
  clear := modify fun s => { s with terms := #[] }
  close := modify fun s => { s.shut with terms := #[] }
  beginRun := beginRun
  endPass s := s
  pageNotices _ := []

end MemoryStore

end HingeLoss
