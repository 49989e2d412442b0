import HingeLoss.Term

/-!
# HingeLoss.Grounding

Ground rules made into terms.

1. a clause with positive variables `p` and negative ones `n` has the linear form
   `Σ x_n - Σ x_p - (|n| - 1)`, its distance to being satisfied;
2. a comparison `≤` keeps its linear form, `≥` negates it, and `=` becomes two hinged terms, one
   of the form and one of its negation;
3. forms are pruned, and a form without entries makes no term;
4. variables at or past the bound of the generator are refused before anything is made.

Terms and forms are appended to buffers that can be reused from one ground rule to the next.
-/

namespace HingeLoss

/-- Makes terms of ground rules. -/
structure Generator where
  /-- When given, every variable has to be below it. -/
  variableCount : Option Nat := none
deriving DecidableEq, Repr

/-- The terms made of ground rules, and the linear form of each. -/
structure Grounded (α : Type) where
  terms : Array (Term α) := #[]
  forms : Array (LinearForm α) := #[]

variable {α : Type} [Scalar α]

def LinearForm.ofClause (positive negative : List Variable) : LinearForm α :=
  let f := (LinearForm.empty.addAll (positive.map fun v => ⟨-1, v⟩)).addAll
    (negative.map fun v => ⟨1, v⟩)
  f.withConstant (((negative.length : Nat) : α) - 1)

def LinearForm.ofEntries (entries : List (Entry α)) (constant : α) : LinearForm α :=
  (LinearForm.empty.addAll entries).withConstant constant

/-- The potentials and linear forms that a ground rule stands for, before pruning. -/
def GroundRule.shapes (g : GroundRule α) : List (Potential × LinearForm α) :=
  let p := g.rule.potential
  match g.body with
  | .clause positive negative => [(p, .ofClause positive negative)]
  | .arithmetic entries .lessEqual c => [(p, .ofEntries entries c)]
  | .arithmetic entries .greaterEqual c => [(p, (LinearForm.ofEntries entries c).negate)]
  | .arithmetic entries .equal c =>
    let f := LinearForm.ofEntries entries c
    [(p.withHinge, f), (p.withHinge, f.negate)]

/-- Adds the term of a linear form to the buffers, if the form has an entry left after pruning. -/
def Grounded.push (rule : Rule α) (potential : Potential) (f : LinearForm α) :
    EStateM Fault (Grounded α) Unit := do
  let f := f.prune
  if f.isEmpty then return
  match Term.ofForm rule potential f with
  | .error e => throw e
  | .ok t => modify fun b => { terms := b.terms.push t, forms := b.forms.push f }

namespace Generator

/-- Refuses the first variable that is not below the bound. -/
def check (g : Generator) (vs : List Variable) : Except Fault Unit :=
  match g.variableCount with
  | none => .ok ()
  | some count => match vs.find? fun v => count ≤ v.toNat with
    | none => .ok ()
    | some v => .error (.capacity .variableIndex v.toNat count)

/-- Appends the terms of a ground rule and their linear forms to the buffers. -/
def generate (g : Generator) (ground : GroundRule α) : EStateM Fault (Grounded α) Unit :=
  match g.check ground.vars with
  | .error e => throw e
  | .ok () => ground.shapes.forM fun s => Grounded.push ground.rule s.1 s.2

/-- The terms of a ground rule and their linear forms. -/
def ground (g : Generator) (rule : GroundRule α) : Except Fault (Grounded α) :=
  match g.generate rule {} with
  | .ok _ made => .ok made
  | .error e _ => .error e

end Generator

end HingeLoss
