import HingeLoss.Proofs.Grounding.Shapes

/-!
# HingeLoss.Proofs.Grounding.Folding

A linear form behaves as a plain list of entries that is searched from the front.

1. adding an entry adds to the coefficient of the first entry of its variable, or puts a new entry
   at the end (`addTo`); a form does the same, whether it is searched from the front or through its
   table (`LinearForm.entries_add`);
2. pruning is a filter, and negating changes signs only;
3. each operation keeps a form sound, so whatever has been done to forms and to copies of them,
   every form has the entries of its plain list, distinct variables, and a table that is empty or
   right (`LinearForm.runForms_plain`).
-/

namespace HingeLoss

/-! ## Plain entries -/

/-- Adds to the coefficient of the first entry of a variable, or puts a new entry at the end. -/
def addTo {α : Type} [Scalar α] (v : Variable) (c : α) : List (Entry α) → List (Entry α)
  | [] => [⟨c, v⟩]
  | e :: es =>
    if e.var = v then { e with coefficient := e.coefficient + c } :: es else e :: addTo v c es

/-- Adds entries in order. -/
def addAllTo {α : Type} [Scalar α] (es into : List (Entry α)) : List (Entry α) :=
  es.foldl (fun into e => addTo e.var e.coefficient into) into

/-- Entries with their signs flipped. -/
def negated {α : Type} [Scalar α] (es : List (Entry α)) : List (Entry α) :=
  es.map fun e => { e with coefficient := -e.coefficient }

section Plain

variable {α : Type} [Scalar α] {u v : Variable} {c : α} {es into : List (Entry α)}

theorem addTo_of_notMem (h : v ∉ es.map (·.var)) : addTo v c es = es ++ [⟨c, v⟩] := by
  induction es with
  | nil => rfl
  | cons e es ih =>
    rw [List.map_cons, List.mem_cons, not_or] at h
    simp [addTo, Ne.symm h.1, ih h.2]

/-- Where every variable has one entry, the entry at the position of a variable is its first one. -/
theorem addTo_of_getElem? {i : Nat} (hvars : (es.map (·.var)).Nodup)
    (hi : (es.map (·.var))[i]? = some v) :
    addTo v c es = es.modify i fun e => { e with coefficient := e.coefficient + c } := by
  induction es generalizing i with
  | nil => simp at hi
  | cons e es ih =>
    rw [List.map_cons, List.nodup_cons] at hvars
    cases i with
    | zero =>
      have hvar : e.var = v := by simpa using hi
      simp [addTo, hvar]
    | succ i =>
      have hrest : (es.map (·.var))[i]? = some v := by simpa using hi
      have hother : e.var ≠ v := fun h => hvars.1 (h ▸ List.mem_of_getElem? hrest)
      simp [addTo, hother, ih hvars.2 hrest]

theorem mem_vars_addTo : u ∈ (addTo v c es).map (·.var) ↔ u = v ∨ u ∈ es.map (·.var) := by
  induction es with
  | nil => simp [addTo]
  | cons e es ih =>
    by_cases hvar : e.var = v
    · simp [addTo, hvar]
    · simp only [addTo, hvar, if_false, List.map_cons, List.mem_cons, ih]
      exact or_left_comm

@[simp] theorem addAllTo_nil (into : List (Entry α)) : addAllTo [] into = into := rfl

@[simp] theorem addAllTo_cons (e : Entry α) (es into : List (Entry α)) :
    addAllTo (e :: es) into = addAllTo es (addTo e.var e.coefficient into) := rfl

/-- The variables of entries that are put together are those of the entries. -/
theorem mem_vars_addAllTo :
    u ∈ (addAllTo es into).map (·.var) ↔ u ∈ es.map (·.var) ∨ u ∈ into.map (·.var) := by
  induction es generalizing into with
  | nil => simp
  | cons e es ih =>
    rw [addAllTo_cons, ih, mem_vars_addTo, List.map_cons, List.mem_cons, or_assoc]
    exact or_left_comm

end Plain

namespace LinearForm

section Operations

variable {α : Type} [Scalar α] {f : LinearForm α}

/-- **Adding an entry.**  However the variable is looked up, its first entry takes the coefficient,
or a new one does at the end. -/
theorem entries_add (h : f.IsSound) (v : Variable) (c : α) :
    (f.add v c).entries.toList = addTo v c f.entries.toList := by
  unfold LinearForm.add
  rw [← f.entries_index]
  split
  next entries constant positions hindex =>
  have hvars : (entries.toList.map (·.var)).Nodup := by
    have hvars := h.index.nodup
    rwa [hindex] at hvars
  rw [hindex]
  split
  · next i hsome =>
    have hfound := h.getElem?_vars (hindex ▸ hsome)
    rw [← f.vars_index, hindex] at hfound
    simp [addTo_of_getElem? hvars hfound]
  · next hnone =>
    have hnew := h.not_mem_vars (hindex ▸ hnone)
    rw [← f.vars_index, hindex] at hnew
    simp [addTo_of_notMem hnew]

theorem constant_add (f : LinearForm α) (v : Variable) (c : α) :
    (f.add v c).constant = f.constant := by
  have hindex : f.index.constant = f.constant := by
    unfold index
    split <;> rfl
  unfold LinearForm.add
  rw [← hindex]
  split
  next hsame =>
  rw [hsame]
  split <;> rfl

theorem addAll_isSound (h : f.IsSound) {es : List (Entry α)} : (f.addAll es).IsSound := by
  induction es generalizing f with
  | nil => exact h
  | cons e es ih => exact ih (h.add e.var e.coefficient)

theorem entries_addAll (h : f.IsSound) (es : List (Entry α)) :
    (f.addAll es).entries.toList = addAllTo es f.entries.toList := by
  induction es generalizing f with
  | nil => rfl
  | cons e es ih =>
    rw [addAll, List.foldl_cons, ← addAll, ih (h.add e.var e.coefficient), entries_add h,
      addAllTo_cons]

/-- The form of entries has them put together, in the order in which the variables come. -/
theorem entries_ofEntries (es : List (Entry α)) (constant : α) :
    (ofEntries es constant).entries.toList = addAllTo es [] :=
  entries_addAll IsBuilt.empty.isSound es

theorem isSound_ofEntries (es : List (Entry α)) (constant : α) :
    (ofEntries es constant).IsSound :=
  (addAll_isSound IsBuilt.empty.isSound).of_eq rfl rfl

@[simp] theorem constant_ofEntries (es : List (Entry α)) (constant : α) :
    (ofEntries es constant).constant = constant := rfl

/-- A clause is folded as its literals are, the positive ones first. -/
theorem ofClause_eq_ofEntries (positive negative : List Variable) :
    (ofClause positive negative : LinearForm α) =
      ofEntries (positive.map (fun v => ⟨-1, v⟩) ++ negative.map fun v => ⟨1, v⟩)
        (((negative.length : Nat) : α) - 1) := by
  rw [ofClause, ofEntries, addAll, addAll, addAll, List.foldl_append]

theorem entries_negate (f : LinearForm α) :
    f.negate.entries.toList = negated f.entries.toList := Array.toList_map ..

end Operations

end LinearForm

/-- What a ground rule gives for each literal or coefficient that it has. -/
def GroundRule.entries {α : Type} [Scalar α] (g : GroundRule α) : List (Entry α) :=
  match g.body with
  | .clause positive negative =>
    positive.map (fun v => ⟨-1, v⟩) ++ negative.map fun v => ⟨1, v⟩
  | .arithmetic entries _ _ => entries

theorem GroundRule.map_var_entries {α : Type} [Scalar α] (g : GroundRule α) :
    g.entries.map (·.var) = g.vars := by
  obtain ⟨rule, body⟩ := g
  cases body with
  | clause positive negative => simp [entries, vars, Function.comp_def]
  | arithmetic entries comparator constant => rfl

/-! ## Operations on forms and on lists -/

/-- What can be done to a linear form. -/
inductive FormOp where
  | add (v : Variable) (c : Single)
  | prune
  | negate
  | setConstant (c : Single)
  | clear
deriving Repr

def FormOp.apply (f : LinearForm Single) : FormOp → LinearForm Single
  | add v c => f.add v c
  | prune => f.prune
  | negate => f.negate
  | setConstant c => f.withConstant c
  | clear => f.clear

/-- A linear form as a list of entries and a constant. -/
structure PlainForm where
  entries : List (Entry Single) := []
  constant : Single := 0
deriving DecidableEq, Repr

/-- The entries with more than a sign bit in their coefficient. -/
def pruned (es : List (Entry Single)) : List (Entry Single) :=
  es.filter fun e => e.coefficient.magnitude ≠ 0

theorem pruned_negated (es : List (Entry Single)) : pruned (negated es) = negated (pruned es) := by
  simp [pruned, negated, List.filter_map, Function.comp_def]

/-- The operations on lists. -/
def FormOp.applyPlain (f : PlainForm) : FormOp → PlainForm
  | add v c => { f with entries := addTo v c f.entries }
  | prune => { f with entries := pruned f.entries }
  | negate => { entries := negated f.entries, constant := -f.constant }
  | setConstant c => { f with constant := c }
  | clear => {}

/-- A step of work with several forms, which are numbered as they come. -/
inductive FormStep where
  | new
  /-- Adds a copy of a form. -/
  | copy (i : Nat)
  | change (i : Nat) (op : FormOp)
deriving Repr

/-- Carries out a step, with forms of any kind. -/
def FormStep.run {φ : Type} (empty : φ) (apply : φ → FormOp → φ) (forms : List φ) :
    FormStep → List φ
  | new => forms ++ [empty]
  | copy i => forms ++ forms[i]?.toList
  | change i op => forms.modify i (apply · op)

/-- Carries out steps from the first form on. -/
def runForms {φ : Type} (empty : φ) (apply : φ → FormOp → φ) (steps : List FormStep) : List φ :=
  steps.foldl (FormStep.run empty apply) []

namespace LinearForm

variable {f : LinearForm Single}

theorem entries_prune_eq (f : LinearForm Single) :
    f.prune.entries.toList = pruned f.entries.toList := by
  simp [entries_prune, pruned, Single.isZero_iff]

/-- The zero below zero goes, and what is no number stays. -/
example : pruned [⟨Single.nan, ⟨0⟩⟩, ⟨-0, ⟨1⟩⟩, ⟨1, ⟨2⟩⟩] = [⟨Single.nan, ⟨0⟩⟩, ⟨1, ⟨2⟩⟩] := by
  decide

/-- The list that a form stands for. -/
def plain (f : LinearForm Single) : PlainForm := ⟨f.entries.toList, f.constant⟩

def coefficients (f : LinearForm Single) : List Single := f.entries.toList.map (·.coefficient)

theorem IsSound.apply (h : f.IsSound) (op : FormOp) : (op.apply f).IsSound := by
  cases op with
  | add v c => exact h.add v c
  | prune => exact h.prune
  | negate => exact h.of_eq (vars_negate f) rfl
  | setConstant c => exact h.of_eq rfl rfl
  | clear => exact IsBuilt.empty.isSound

/-- **One step.**  An operation does to the list of a sound form what it does to the form. -/
theorem IsSound.plain_apply (h : f.IsSound) (op : FormOp) :
    (op.apply f).plain = op.applyPlain f.plain := by
  cases op with
  | add v c => simp [FormOp.apply, FormOp.applyPlain, plain, entries_add h, constant_add]
  | prune => simp [FormOp.apply, FormOp.applyPlain, plain, entries_prune_eq, constant_prune]
  | negate =>
    simp only [FormOp.apply, FormOp.applyPlain, plain, entries_negate]
    rfl
  | setConstant c => rfl
  | clear => rfl

/-- Changing one form changes one list. -/
theorem map_plain_modify {forms : List (LinearForm Single)} (h : ∀ f ∈ forms, f.IsSound) (i : Nat)
    (op : FormOp) :
    (forms.modify i (FormOp.apply · op)).map plain =
      (forms.map plain).modify i (FormOp.applyPlain · op) := by
  induction forms generalizing i with
  | nil => simp
  | cons f forms ih =>
    have hforms := List.forall_mem_cons.mp h
    cases i with
    | zero => simp [hforms.1.plain_apply op]
    | succ i => simp [ih hforms.2]

/-- **Steps.**  What a step does to lists it does to the forms that stand for them, and they stay
sound. -/
theorem plain_run {forms : List (LinearForm Single)} (h : ∀ f ∈ forms, f.IsSound)
    (step : FormStep) :
    (∀ f ∈ step.run empty FormOp.apply forms, f.IsSound) ∧
      (step.run empty FormOp.apply forms).map plain =
        step.run {} FormOp.applyPlain (forms.map plain) := by
  cases step with
  | new =>
    refine ⟨?_, by simp [FormStep.run]; rfl⟩
    simpa [FormStep.run, or_imp, forall_and] using ⟨h, IsBuilt.empty.isSound⟩
  | copy i =>
    constructor
    · intro f hf
      simp only [FormStep.run, List.mem_append, Option.mem_toList] at hf
      exact hf.elim (h f) fun hcopied => h f (List.mem_of_getElem? hcopied)
    · cases hi : forms[i]? <;> simp [FormStep.run, hi]
  | change i op =>
    refine ⟨fun f hf => ?_, map_plain_modify h i op⟩
    obtain ⟨j, hj⟩ := List.getElem?_of_mem hf
    rw [FormStep.run, List.getElem?_modify] at hj
    obtain ⟨g, hg, rfl⟩ := Option.map_eq_some_iff.mp hj
    have hsound := h g (List.mem_of_getElem? hg)
    split
    · exact hsound.apply op
    · exact hsound

/-- **Forms are lists.**  Whatever is done to forms and to copies of them, each form has the entries
and the constant of the list to which the same is done.  Its variables are distinct, each has a
coefficient, and its table is empty or has the position of each of them and of no other. -/
theorem runForms_plain (steps : List FormStep) :
    (runForms empty FormOp.apply steps).map plain = runForms {} FormOp.applyPlain steps ∧
      ∀ f ∈ runForms empty FormOp.apply steps,
        f.vars.Nodup ∧ f.coefficients.length = f.vars.length ∧
          (f.positions.isEmpty = true ∨ IsTable f.positions f.vars) := by
  suffices hsteps : ∀ forms : List (LinearForm Single), (∀ f ∈ forms, f.IsSound) →
      (∀ f ∈ steps.foldl (FormStep.run empty FormOp.apply) forms, f.IsSound) ∧
        (steps.foldl (FormStep.run empty FormOp.apply) forms).map plain =
          steps.foldl (FormStep.run {} FormOp.applyPlain) (forms.map plain) by
    obtain ⟨hsound, hplain⟩ := hsteps [] (by simp)
    refine ⟨hplain, fun f hf => ⟨(hsound f hf).nodup, by simp [coefficients, vars], ?_⟩⟩
    cases hempty : f.positions.isEmpty with
    | true => exact .inl rfl
    | false => exact .inr ((hsound f hf).table hempty)
  induction steps with
  | nil => exact fun forms h => ⟨h, rfl⟩
  | cons step steps ih =>
    intro forms h
    obtain ⟨hsound, hplain⟩ := plain_run h step
    simpa [hplain] using ih _ hsound

end LinearForm

end HingeLoss
