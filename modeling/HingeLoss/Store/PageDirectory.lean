import HingeLoss.Disk
import HingeLoss.Fault

/-!
# HingeLoss.Store.PageDirectory

The directory of the pages of a term store.  Pages are numbered, and their names carry the numbers,
so the directory is what stands at each number.

1. the directory is made when the first page is written, unless a plain file is in its place;
2. a page is written over a file of its name, but not over a directory;
3. a page is read as a whole, and a directory in its place can be opened but not read;
4. a page that is not there counts as removed; a directory in its place is not removed.
-/

namespace HingeLoss

inductive PageStep where
  | createDirectory
  | createPage
  /-- Writing, of which only the first bytes reach the file. -/
  | write (kept : Nat)
deriving DecidableEq, Repr

structure PageDirectory where
  path : String
  /-- What stands at the numbers, ascending and each number once. -/
  slots : List (Nat × DiskEntry) := []
  /-- Whether a plain file stands in the place of the directory. -/
  blocked : Bool := false
  /-- The step that the disk refuses for reasons of its own. -/
  refused : Option PageStep := none
deriving DecidableEq, Repr

namespace PageDirectory

/-! ## Names -/

/-- The digits of a number, six at least. -/
def digits (n : Nat) : String :=
  let s := toString n
  String.ofList (List.replicate (6 - s.length) '0') ++ s

def pagePath (d : PageDirectory) (number : Nat) : String :=
  s!"{d.path}/terms-{digits number}.page"

/-! ## Slots -/

def entry (d : PageDirectory) (number : Nat) : DiskEntry :=
  if d.blocked then .absent else (d.slots.lookup number).getD .absent

/-- Puts an entry in its place among ascending ones. -/
def insertSlot (number : Nat) (e : DiskEntry) : List (Nat × DiskEntry) → List (Nat × DiskEntry)
  | [] => [(number, e)]
  | s :: rest =>
    if number < s.1 then (number, e) :: s :: rest
    else if number = s.1 then (number, e) :: rest
    else s :: insertSlot number e rest

/-- Puts an entry at a number; nothing is put there by taking away what is. -/
def put (d : PageDirectory) (number : Nat) (e : DiskEntry) : PageDirectory :=
  match e with
  | .absent => { d with slots := d.slots.filter (·.1 ≠ number) }
  | .file _ | .directory => { d with slots := insertSlot number e d.slots }

theorem lookup_slot_cons (k m : Nat) (e : DiskEntry) (rest : List (Nat × DiskEntry)) :
    ((m, e) :: rest).lookup k = if k = m then some e else rest.lookup k := by
  by_cases h : k = m
  · simp [h]
  · simp [List.lookup_cons, h, beq_eq_false_iff_ne.2 h]

theorem lookup_insertSlot (n k : Nat) (e : DiskEntry) (slots : List (Nat × DiskEntry)) :
    (insertSlot n e slots).lookup k = if k = n then some e else slots.lookup k := by
  induction slots with
  | nil => exact lookup_slot_cons k n e []
  | cons s rest ih =>
    obtain ⟨m, f⟩ := s
    simp only [insertSlot]
    split
    · exact lookup_slot_cons k n e _
    · split
      · next hm => subst hm; simp only [lookup_slot_cons]; split <;> rfl
      · next hm =>
        simp only [lookup_slot_cons, ih]
        split
        · next hk => rw [if_neg (by omega)]
        · rfl

theorem lookup_filter_ne (n k : Nat) (slots : List (Nat × DiskEntry)) :
    (slots.filter (·.1 ≠ n)).lookup k = if k = n then none else slots.lookup k := by
  induction slots with
  | nil => simp only [List.filter_nil, List.lookup_nil, ite_self]
  | cons s rest ih =>
    obtain ⟨m, f⟩ := s
    by_cases hm : m = n
    · rw [List.filter_cons_of_neg (by simpa using hm), ih, lookup_slot_cons]
      split
      · rfl
      · rw [if_neg (by omega)]
    · rw [List.filter_cons_of_pos (by simpa using hm), lookup_slot_cons, lookup_slot_cons, ih]
      split
      · rw [if_neg (by omega)]
      · rfl

/-- An entry is found where it has been put, and the others stay where they are. -/
theorem entry_put (d : PageDirectory) (n k : Nat) (e : DiskEntry) :
    (d.put n e).entry k = if d.blocked then .absent else if k = n then e else d.entry k := by
  unfold put entry
  by_cases hk : k = n
  · cases e <;> simp only [lookup_insertSlot, lookup_filter_ne, if_pos hk, Option.getD]
  · cases e <;> simp only [lookup_insertSlot, lookup_filter_ne, if_neg hk] <;> split <;> rfl

def count (d : PageDirectory) : Nat := if d.blocked then 0 else d.slots.length

/-! ## Pages -/

def write (number : Nat) (bytes : Array UInt8) : EStateM FileFault PageDirectory Unit := do
  let d ← get
  if d.blocked ∨ d.refused = some .createDirectory then throw (.createPageDirectory d.path)
  if (d.entry number).isDirectory ∨ d.refused = some .createPage then
    throw (.createPage (d.pagePath number))
  if let some (.write kept) := d.refused then
    set (d.put number (.file (bytes.take kept)))
    throw (.writePage (d.pagePath number))
  set (d.put number (.file bytes))

def read (d : PageDirectory) (number : Nat) : Except FileFault (Array UInt8) :=
  match d.entry number with
  | .absent => .error (.openPage (d.pagePath number))
  | .directory => .error (.mapPage (d.pagePath number))
  | .file bytes => .ok bytes

def remove (number : Nat) : EStateM FileFault PageDirectory Unit := do
  let d ← get
  if d.blocked ∨ (d.entry number).isDirectory then throw (.removePage (d.pagePath number))
  set (d.put number .absent)

end PageDirectory

end HingeLoss
