import HingeLoss.Disk.Path

/-!
# HingeLoss.Disk

What the library needs to know of a disk: what stands at the paths it uses.  A disk is a value that
operations return changed.

1. a location is the way to it from the outermost directory, without detours;
2. a path leads to a location if each name before its last leads to a directory, also a name that
   `..` takes back;
3. a path that does not end in its last name can only name a directory;
4. the directories on the way to a file can be made where nothing stands yet.
-/

namespace HingeLoss

/-! ## Entries -/

/-- What stands at a location. -/
inductive DiskEntry where
  | absent
  | file (bytes : Array UInt8)
  | directory
deriving DecidableEq, Inhabited, Repr

namespace DiskEntry

/-- Whether something stands there. -/
def isPresent : DiskEntry → Bool
  | absent => false
  | file _ | directory => true

/-- Whether a directory stands there. -/
def isDirectory : DiskEntry → Bool
  | directory => true
  | absent | file _ => false

/-- The content of the file that stands there. -/
def bytes? : DiskEntry → Option (Array UInt8)
  | file bytes => some bytes
  | absent | directory => none

end DiskEntry

/-! ## Locations -/

/-- A location, by the names that lead to it, the last one first. -/
abbrev Location := List Path.Name

namespace Location

/-- The location that a name leads to; the outermost directory is its own parent. -/
def step (l : Location) (n : Path.Name) : Location := if n = Path.parentName then l.tail else n :: l

def ofNames (ns : List Path.Name) : Location := ns.foldl step []

def ofPath (path : String) : Location := ofNames (Path.names path)

end Location

/-! ## Disks -/

structure Disk where
  /-- What has been put at locations, the latest first. -/
  entries : List (Location × DiskEntry) := []
deriving DecidableEq, Inhabited, Repr

namespace Disk

/-- What stands at a location.  The outermost directory is always there. -/
def entryAt (d : Disk) (l : Location) : DiskEntry :=
  if l = [] then .directory else (d.entries.lookup l).getD .absent

/-- Puts an entry at a location, in place of the one that is there. -/
def put (l : Location) (e : DiskEntry) (d : Disk) : Disk := ⟨(l, e) :: d.entries⟩

theorem entryAt_put {l : Location} (h : l ≠ []) (e : DiskEntry) (d : Disk) (k : Location) :
    (d.put l e).entryAt k = if k = l then e else d.entryAt k := by
  by_cases hk : k = l
  · simp [entryAt, put, hk, h]
  · simp [entryAt, put, List.lookup_cons, hk, beq_eq_false_iff_ne.2 hk]

/-- Whether each of the names leads on to a directory. -/
def hasWay (d : Disk) : List Path.Name → Location → Bool
  | [], _ => true
  | n :: ns, l =>
    let l := l.step n
    (d.entryAt l).isDirectory && hasWay d ns l

/-- Makes the directories that the names lead to, up to the first that cannot be made, and tells
whether all of them are there. -/
def makeWay : List Path.Name → Location → Disk → Bool × Disk
  | [], _, d => (true, d)
  | n :: ns, l, d =>
    let l := l.step n
    match d.entryAt l with
    | .directory => makeWay ns l d
    | .file _ => (false, d)
    | .absent => if Path.isAllowedName n then makeWay ns l (d.put l .directory) else (false, d)

/-- Makes the directories on the way to a path. -/
def makeWayTo (path : String) (d : Disk) : Bool × Disk :=
  if Path.isAllowed (String.ofList (Path.base path)) then makeWay (Path.names path).dropLast [] d
  else (false, d)

/-- Whether a path leads to a location. -/
def reaches (d : Disk) (path : String) : Bool :=
  Path.isAllowed path && d.hasWay (Path.names path).dropLast []

def entry (d : Disk) (path : String) : DiskEntry :=
  let e := d.entryAt (.ofPath path)
  if d.reaches path && (e.isDirectory || Path.endsInName path) then e else .absent

/-- Whether a file can be put at a path. -/
def takesFile (d : Disk) (path : String) : Bool :=
  d.reaches path && Path.endsInName path && Path.isAllowedName (Path.name path) &&
    !(d.entryAt (.ofPath path)).isDirectory

end Disk

end HingeLoss
