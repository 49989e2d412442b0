import HingeLoss.Disk
import HingeLoss.Fault

/-!
# HingeLoss.Atoms.Place

The place on a disk where a table of atoms is kept.  Saving goes in steps:

1. the directory of the file is made;
2. a temporary file beside it is made, written and flushed; its name is that of the file with the
   extension `tmp`;
3. the temporary file takes the name of the file.

So the file is replaced as a whole or not at all, unless its own extension is `tmp`: it is then its
own temporary file and is written over in place.  A step that is refused ends the saving, and a
temporary file that has been made stays behind.
-/

namespace HingeLoss

inductive SaveStep where
  | createDirectory
  | createTemporary
  /-- Writing, of which only the first bytes reach the file. -/
  | write (kept : Nat)
  | flush
  /-- Giving the temporary file the name of the file. -/
  | rename
deriving DecidableEq, Repr

structure Place where
  path : String
  disk : Disk := {}
  /-- The step that the disk refuses for reasons of its own. -/
  refused : Option SaveStep := none
deriving DecidableEq, Repr

namespace Place

/-! ## The two paths -/

def temporaryPath (p : Place) : String := Path.withExtension p.path "tmp"

/-- What stands at the path of the file. -/
def entry (p : Place) : DiskEntry := p.disk.entry p.path

/-- What stands at the path of the temporary file. -/
def temporaryEntry (p : Place) : DiskEntry := p.disk.entry p.temporaryPath

def put (p : Place) (path : String) (e : DiskEntry) : Place :=
  { p with disk := p.disk.put (.ofPath path) e }

/-! ## Saving -/

def save (bytes : Array UInt8) : EStateM FileFault Place Unit := do
  let p ← get
  if p.refused = some .createDirectory then throw .createVariableDirectory
  let (made, disk) := p.disk.makeWayTo p.path
  let p := { p with disk }
  set p
  if ¬ made then throw .createVariableDirectory
  if ¬ p.disk.takesFile p.temporaryPath ∨ p.refused = some .createTemporary then
    throw .createTemporary
  if let some (.write kept) := p.refused then
    set (p.put p.temporaryPath (.file (bytes.take kept)))
    throw .writeVariables
  let p := p.put p.temporaryPath (.file bytes)
  set p
  if p.refused = some .flush then throw .flushVariables
  if ¬ p.disk.takesFile p.path ∨ p.refused = some .rename then throw .renameVariables
  set ((p.put p.temporaryPath .absent).put p.path (.file bytes))

end Place

end HingeLoss
