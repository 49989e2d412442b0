import HingeLoss.Options.Paging
import HingeLoss.Record.Term
import HingeLoss.Store.PageDirectory
import HingeLoss.Store.TermStore

/-!
# HingeLoss.Store.Paged

The store that writes its terms to pages on a disk and reads them back page by page.

1. a term that comes in is written as a record behind the records of the open page;
2. an open page that is full is flushed to the next file, and one that is not is flushed before
   anything is read, so that all terms are read from pages;
3. a page that could not be flushed stays open, and the next flush takes it along;
4. a page is read as a whole: all its records have to be sound, name variables of the table, and
   fill the page;
5. passes follow an order of the pages, which is made anew when the number of pages has changed.

Records name rules by their ids, so a term is taken in only if its rule is the one that the
registry of the store has under that id.
-/

namespace HingeLoss

/-- A page that has been flushed. -/
structure Page where
  number : Nat
  terms : Nat
  bytes : Nat
deriving DecidableEq, Repr

structure PagedStore where
  options : PagingOptions
  rules : Registry
  /-- The generator, until the store is closed. -/
  generator : Option Generator := some {}
  closed : Bool := false
  /-- A store is closed when its generator is taken away. -/
  closed_eq : closed = generator.isNone := by rfl
  atoms : AtomTable
  /-- The records of the open page. -/
  buffer : Array UInt8 := #[]
  /-- The number of terms on the open page. -/
  buffered : Nat := 0
  pages : Array Page := #[]
  total : Nat := 0
  order : Array Nat := #[]
  /-- Where the random orders come from. -/
  shuffler : Shuffler
  /-- The number of orders that have been drawn. -/
  drawn : Nat := 0
  directory : PageDirectory

namespace PagedStore

/-- An empty store, if the options allow one. -/
def create (options : PagingOptions) (rules : Registry) (generator : Generator) (atoms : AtomTable)
    (directory : PageDirectory) : Except Fault PagedStore := do
  options.check
  return { options, rules, generator := some generator, atoms, directory
           shuffler := .ofSeed options.seed }

/-! ## Flushing -/

/-- Writes the open page to the next file, if it holds a term. -/
def flush : EStateM Fault PagedStore Unit := fun s =>
  if s.buffered = 0 then .ok () s
  else
    let number := s.pages.size
    match PageDirectory.write number s.buffer s.directory with
    | .error e d => .error (.file e) { s with directory := d }
    | .ok () d =>
      let page : Page := ⟨number, s.buffered, s.buffer.size⟩
      .ok () { s with directory := d, pages := s.pages.push page, buffer := #[], buffered := 0 }

/-- Refuses a closed store. -/
def checkOpen : EStateM Fault PagedStore Unit := do
  if (← get).closed then throw .storeClosed

/-- Draws an order for things, if they are to be shuffled. -/
def shuffled {α : Type} (shuffle : Bool) (xs : Array α) (s : PagedStore) : Array α × PagedStore :=
  if shuffle then (s.shuffler.apply s.drawn xs, { s with drawn := s.drawn + 1 }) else (xs, s)

/-- Makes the order of the pages anew, if their number has changed. -/
def refreshOrder (s : PagedStore) : PagedStore :=
  if s.order.size = s.pages.size then s
  else
    let (order, s) := s.shuffled s.options.randomizePageAccess (Array.range s.pages.size)
    { s with order }

/-- Prepares for reading: all terms are on pages, and the pages have an order. -/
def prepare : EStateM Fault PagedStore Unit := do
  checkOpen
  flush
  modify refreshOrder

/-! ## Inserting -/

/-- What stands against the insertion of a term. -/
def checkInsert (s : PagedStore) (t : Term Single) : Except Fault Unit := do
  if s.closed then throw .storeClosed
  if s.rules.owns t.rule = false then throw (.unknownRule t.rule.id)
  TermStore.checkVariables s.atoms t

/-- Puts the record of a term on the open page: it is written into room that is made behind the
other records, and the room is taken back if that fails. -/
def putRecord (t : Term Single) : EStateM Fault PagedStore Unit := fun s =>
  match t.write (.start (Array.replicate t.recordSize 0)) with
  | .error e _ => .error e s
  | .ok () w => .ok () { s with
      buffer := s.buffer ++ w.buffer
      buffered := s.buffered + 1
      total := s.total + 1 }

/-- Stores a term behind the others, and flushes the open page when that fills it. -/
def insert (t : Term Single) : EStateM Fault PagedStore Unit := fun s =>
  match s.checkInsert t with
  | .error e => .error e s
  | .ok () => match putRecord t s with
    | .error e s => .error e s
    | .ok () s => if s.options.pageSize ≤ s.buffered then flush s else .ok () s

/-! ## Reading -/

/-- Reads the next record of a page, whose variables have to be below a bound. -/
def readTerm (rules : Registry) (bound : Nat) : Record.ReadM (Term Single) := do
  let start ← Record.position
  let t ← Term.decode rules
  if let some v := t.pastBound? bound then
    throw (.corruptRecord start (.unknownVariable v bound))
  return t

/-- Reads `n` records behind those that have been read. -/
def readTerms (rules : Registry) (bound : Nat) :
    Nat → Array (Term Single) → Record.ReadM (Array (Term Single))
  | 0, ts => return ts
  | n + 1, ts => do readTerms rules bound n (ts.push (← readTerm rules bound))

/-- Reads `n` records, which have to fill the page. -/
def readAll (rules : Registry) (bound n : Nat) : Record.ReadM (Array (Term Single)) := do
  let ts ← readTerms rules bound n #[]
  let r ← get
  if ¬ r.atEnd then throw (.corruptRecord r.position (.trailing r.remaining))
  return ts

def readPage (s : PagedStore) (p : Page) : Except Fault (Array (Term Single)) :=
  match s.directory.read p.number with
  | .error e => .error (.file e)
  | .ok bytes => match readAll s.rules s.atoms.size p.terms (.start bytes) with
    | .ok ts _ => .ok ts
    | .error e _ => .error e

/-- The terms of pages, up to the first page that cannot be read, with the terms of each page
shuffled if the options say so. -/
def readPages : List Page → PagedStore → List (Except Fault (Term Single)) × PagedStore
  | [], s => ([], s)
  | p :: rest, s => match s.readPage p with
    | .error e => ([.error e], s)
    | .ok ts =>
      let (ts, s) := s.shuffled s.options.shufflePage ts
      let (more, s) := readPages rest s
      (ts.toList.map .ok ++ more, s)

/-- The terms in the order of the next pass. -/
def listTerms : EStateM Fault PagedStore (List (Except Fault (Term Single))) := do
  prepare
  modifyGet fun s => readPages (s.order.toList.filterMap fun i => s.pages[i]?) s

/-- The terms of so many pages in the order of the next pass, which is given up behind them. -/
def listSome (count : Nat) : EStateM Fault PagedStore (List (Except Fault (Term Single))) := do
  prepare
  modifyGet fun s => readPages ((s.order.toList.filterMap fun i => s.pages[i]?).take count) s

/-- The page that holds the term at a position, and the position of the term on it. -/
def locate : List Page → Nat → Option (Page × Nat)
  | [], _ => none
  | p :: rest, i => if i < p.terms then some (p, i) else locate rest (i - p.terms)

/-- The term at a position, in the order of insertion. -/
def termAt (i : Nat) : EStateM Fault PagedStore (Term Single) := do
  prepare
  let s ← get
  let missing := Fault.capacity .termIndex i s.total
  match locate s.pages.toList i with
  | none => throw missing
  | some (p, j) => match s.readPage p with
    | .error e => throw e
    | .ok ts => match ts[j]? with
      | some t => return t
      | none => throw missing

/-! ## Removing -/

/-- Removes pages, and tells the first failure. -/
def removePages (d : PageDirectory) : List Page → PageDirectory × Option FileFault
  | [] => (d, none)
  | p :: rest => match PageDirectory.remove p.number d with
    | .ok () d => removePages d rest
    | .error e d => ((removePages d rest).1, some e)

/-- Removes all terms.  The store is empty even if a page could not be removed. -/
def clear : EStateM Fault PagedStore Unit := fun s =>
  let (directory, failure) := removePages s.directory s.pages.toList
  let s := { s with directory, order := #[], pages := #[], buffer := #[], buffered := 0, total := 0 }
  match failure with
  | none => .ok () s
  | some e => .error (.file e) s

/-- Takes the generator away, for good. -/
def shut (s : PagedStore) : PagedStore := { s with
  generator := none
  closed := true
  closed_eq := rfl }

/-- Removes all terms and the generator, for good. -/
def close : EStateM Fault PagedStore Unit := fun s => clear s.shut

/-- The directory as a store leaves it when it is given up. -/
def abandon (s : PagedStore) : PageDirectory := (removePages s.directory s.pages.toList).1

/-! ## Runs -/

/-- Makes the order of the pages anew. -/
def beginRun : EStateM Fault PagedStore Unit := do
  modify fun s => { s with order := #[] }
  prepare

/-- Draws another order of the pages, if the options say so. -/
def endPass (s : PagedStore) : PagedStore :=
  let (order, s) := s.shuffled s.options.randomizePageAccess s.order
  { s with order }

/-- What has been told of the pages. -/
def pageNotices (s : PagedStore) : List Notice :=
  s.pages.toList.map fun p => .pageFlushed (s.directory.pagePath p.number) p.terms p.bytes

instance : TermStore PagedStore where
  atoms := atoms
  withAtoms t s := { s with atoms := t }
  size s := s.total
  generator := generator
  isClosed := closed
  reserve _ := pure ()  -- only one page is ever held
  insert := insert
  termAt := termAt
  terms := listTerms
  clear := clear
  close := close
  beginRun := beginRun
  endPass := endPass
  pageNotices := pageNotices

end PagedStore

end HingeLoss
