import HingeLoss.Options.Descent

/-!
# HingeLoss.Options.Paging

The options of the paged term store: where its pages are, how many terms a page has, and which of
the two orders, of the pages and of the terms inside a page, are shuffled.
-/

namespace HingeLoss

/-- The options of the paged term store. -/
structure PagingOptions where
  /-- The directory of the pages, or nothing for the directory that the system chooses. -/
  directory : Option String := none
  /-- The number of terms after which a page is full. -/
  pageSize : Nat := 10000
  /-- Whether each pass takes the pages in another order. -/
  randomizePageAccess : Bool := true
  /-- Whether each pass takes the terms of a page in another order. -/
  shufflePage : Bool := true
  seed : Nat := 4
deriving DecidableEq, Repr

instance : Inhabited PagingOptions := ⟨{}⟩

namespace PagingOptions

/-- Gives an option the value that a text stands for. -/
def set (o : PagingOptions) (key : PagingKey) (text : String) :
    Except OptionFault PagingOptions := do
  match key with
  | .pageLocation => return { o with directory := some text }
  | .pageSize => return { o with pageSize := ← Options.count text }
  | .randomizePageAccess => return { o with randomizePageAccess := ← Options.boolean text }
  | .shufflePage => return { o with shufflePage := ← Options.boolean text }
  | .seed => return { o with seed := ← Options.seed text }

/-- Gives the option of a name its value.  A name that is unknown changes nothing. -/
def setNamed (o : PagingOptions) (name text : String) : Except Fault PagingOptions :=
  match PagingKey.ofText? name with
  | none => .ok o
  | some key => (o.set key text).mapError (.pagingOption key)

def conditions (o : PagingOptions) : List (OptionCondition PagingKey) :=
  [⟨.pageSize, 0 < o.pageSize, .zeroCount⟩]

/-- Refuses the first value that is out of range. -/
def check (o : PagingOptions) : Except Fault Unit :=
  match o.conditions.find? (!·.holds) with
  | none => .ok ()
  | some c => .error (.pagingOption c.key c.fault)

/-- The check asks for room on a page. -/
theorem check_eq_ok_iff {o : PagingOptions} : o.check = .ok () ↔ 0 < o.pageSize := by
  by_cases h : 0 < o.pageSize
  · simp [check, conditions, h]
  · simp [check, conditions, h]

/-- The options that pairs of a name and a value stand for. -/
def ofPairs (pairs : List (String × String)) : Except Fault PagingOptions := do
  let o ← pairs.foldlM (fun o p => setNamed o p.1 p.2) {}
  o.check
  return o

end PagingOptions

end HingeLoss
