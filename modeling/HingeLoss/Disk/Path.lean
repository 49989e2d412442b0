/-!
# HingeLoss.Disk.Path

Paths.  From its front, a path is the way along its *names*:

1. slashes part the names, and a single point stands for the directory it is in, which adds nothing;
2. the name `..` leads back to the parent.

From its end, a path has a last name:

1. slashes at the end, and points that stand for the directory they are in, add nothing to it;
2. the last name before them is the *name* of the path, and what stands before the name is its
   *base*;
3. the last point of a name starts its extension, unless the point starts the name.

A disk takes paths and names up to a length, and without the character that ends a path.
-/

namespace HingeLoss.Path

abbrev Name := List Char

def parentName : Name := ['.', '.']

/-! ## From the front -/

/-- What stands between the slashes. -/
def pieces : List Char → List Name
  | [] => [[]]
  | c :: cs =>
    if c = '/' then [] :: pieces cs
    else match pieces cs with
      | [] => [[c]]
      | p :: ps => (c :: p) :: ps

def names (path : String) : List Name :=
  (pieces path.toList).filter fun n => n ≠ [] ∧ n ≠ ['.']

/-! ## From the end -/

/-- A reversed path without the end that adds nothing to it. -/
def skipEnd : List Char → List Char
  | '/' :: cs => skipEnd cs
  | '.' :: '/' :: cs => skipEnd cs
  | cs => cs

def name (path : String) : Name :=
  ((skipEnd path.toList.reverse).takeWhile (· ≠ '/')).reverse

/-- What stands before the last name of a path. -/
def base (path : String) : List Char :=
  ((skipEnd path.toList.reverse).dropWhile (· ≠ '/')).reverse

/-- Whether a path ends in its name, as the path of a file has to. -/
def endsInName (path : String) : Bool := base path ++ name path = path.toList

/-- Whether a path names the parent of its base. -/
def isParent (path : String) : Bool := name path = parentName

/-- A name without its extension. -/
def stem (name : Name) : Name :=
  match name.reverse.dropWhile (· ≠ '.') with
  | _ :: c :: rest => (c :: rest).reverse
  | _ => name

/-- A path with another extension.  The old extension is cut off behind its point first; what is
left may name a parent, and a parent has no extension. -/
def withExtension (path extension : String) : String :=
  let s := stem (name path)
  if isParent path then path
  else if s ++ ['.'] = parentName ∧ endsInName path then String.ofList (base path ++ parentName)
  else String.ofList (base path ++ s ++ '.' :: extension.toList)

/-! ## Limits -/

/-- The greatest number of bytes of a name. -/
def maxName : Nat := 255

/-- The greatest number of bytes of a path. -/
def maxPath : Nat := 4095

/-- Whether a disk takes a name. -/
def isAllowedName (n : Name) : Bool := decide ((String.ofList n).utf8ByteSize ≤ maxName)

/-- Whether a disk takes a path, whatever its names. -/
def isAllowed (path : String) : Bool :=
  decide (path.utf8ByteSize ≤ maxPath) && path.toList.all (· ≠ '\x00')

end HingeLoss.Path
