import HingeLoss.Grounding
import HingeLoss.Proofs.Grounding.Forms
import HingeLoss.Proofs.Program

/-!
# HingeLoss.Proofs.Grounding.Shapes

The terms of a ground rule, read off its shapes.

1. a generator that refuses nothing makes one term of each shape that has an entry left after
   pruning, in the order of the shapes (`Generator.ground_eq_ok`);
2. a negated form loses the same entries as the form itself, since a number is zero exactly if its
   negation is;
3. so a ground rule has at most one term, or it is an equality and has two, about the same
   variables (`GroundRule.terms_cases`).
-/

namespace HingeLoss

/-! ## Signs -/

namespace Single

variable {a : Single}

@[simp] theorem magnitude_neg (a : Single) : (-a).magnitude = a.magnitude := by
  refine UInt32.toNat_inj.mp ?_
  change ((a.bits ^^^ 0x80000000) &&& 0x7fffffff).toNat = (a.bits &&& 0x7fffffff).toNat
  rw [UInt32.toNat_and, UInt32.toNat_xor, Nat.and_xor_distrib_right, UInt32.toNat_and]
  exact Nat.xor_zero _

/-- The zeros are the two patterns that have nothing but a sign. -/
theorem isZero_iff : Scalar.IsZero a ↔ a.magnitude = 0 := by
  have hrank : a.rank = 0 ↔ a.magnitude = 0 := by
    rw [← UInt32.toNat_inj, rank, UInt32.toNat_zero]
    split <;> omega
  change ((a.isNaN = false ∧ (0 : Single).isNaN = false ∧ a.rank ≤ 0) ∧
    (0 : Single).isNaN = false ∧ a.isNaN = false ∧ 0 ≤ a.rank) ↔ _
  constructor
  · rintro ⟨⟨_, _, hle⟩, _, _, hge⟩
    exact hrank.mp (Int.le_antisymm hle hge)
  · intro hzero
    have hnumber : a.isNaN = false := by rw [isNaN, hzero]; rfl
    have hrank := hrank.mpr hzero
    exact ⟨⟨hnumber, rfl, Int.le_of_eq hrank⟩, rfl, hnumber, Int.le_of_eq hrank.symm⟩

@[simp] theorem isZero_neg : Scalar.IsZero (-a) ↔ Scalar.IsZero a := by
  rw [isZero_iff, isZero_iff, magnitude_neg]

end Single

/-! ## Pruning -/

namespace LinearForm

section

variable {α : Type} [Scalar α]

theorem entries_prune (f : LinearForm α) :
    f.prune.entries = f.entries.filter fun e => ¬ Scalar.IsZero e.coefficient := by
  rw [prune_eq]
  simp only
  split
  · rfl
  · next hsame =>
    have hsize := Nat.le_antisymm (Array.size_filter_le ..) (Nat.le_of_not_lt hsame)
    exact (Array.filter_eq_self.mpr (Array.filter_size_eq_size.mp hsize)).symm

theorem constant_prune (f : LinearForm α) : f.prune.constant = f.constant := by
  rw [prune_eq]
  simp only
  split <;> rfl

/-- The variables that have an entry after pruning. -/
theorem vars_prune (f : LinearForm α) :
    f.prune.vars =
      (f.entries.toList.filter fun e => ¬ Scalar.IsZero e.coefficient).map (·.var) := by
  rw [vars, entries_prune, Array.toList_filter]

end

/-- A form and its negation are about the same variables after pruning. -/
theorem vars_prune_negate (f : LinearForm Single) : f.negate.prune.vars = f.prune.vars := by
  have hentries : f.negate.entries.toList =
      f.entries.toList.map fun e => { e with coefficient := -e.coefficient } := Array.toList_map ..
  rw [vars_prune, vars_prune, hentries, List.filter_map, List.map_map]
  simp only [Function.comp_def, Single.isZero_neg]

end LinearForm

/-! ## Terms -/

/-- Buffers with terms and their forms behind what they hold. -/
def Grounded.append {α : Type} (b : Grounded α) (made : List (Term α × LinearForm α)) :
    Grounded α where
  terms := b.terms ++ (made.map (·.1)).toArray
  forms := b.forms ++ (made.map (·.2)).toArray

section Terms

variable {α : Type} [Scalar α] {rule : Rule α} {g : GroundRule α}

/-- The term of a shape of a ground rule, if its form has an entry left after pruning. -/
def Rule.termOf? (rule : Rule α) (shape : Potential × LinearForm α) : Option (Term α) :=
  let f := shape.2.prune
  if f.isEmpty then none else some ⟨rule, shape.1, f.constant, f.entries⟩

/-- The terms of a ground rule, in the order of its shapes. -/
def GroundRule.terms (g : GroundRule α) : List (Term α) := g.shapes.filterMap g.rule.termOf?

/-- The term of a shape of a ground rule and the form that it is made of. -/
def Rule.madeOf (rule : Rule α) (shape : Potential × LinearForm α) : Term α × LinearForm α :=
  let f := shape.2.prune
  (⟨rule, shape.1, f.constant, f.entries⟩, f)

/-- The terms of a ground rule and the forms that they are made of. -/
def GroundRule.made (g : GroundRule α) : List (Term α × LinearForm α) :=
  (g.shapes.filter fun s => !s.2.prune.isEmpty).map g.rule.madeOf

/-! ### Buffers -/

namespace Grounded

variable {p : Potential} {f : LinearForm α} {b b' : Grounded α}
  {shapes : List (Potential × LinearForm α)}

omit [Scalar α] in
@[simp] theorem append_nil (b : Grounded α) : b.append [] = b := by simp [append]

omit [Scalar α] in
theorem append_append (b : Grounded α) (made made' : List (Term α × LinearForm α)) :
    (b.append made).append made' = b.append (made ++ made') := by
  simp [append]

theorem push_of_isEmpty (h : f.prune.isEmpty = true) : push rule p f b = .ok () b := by
  simp only [push, if_pos h]
  rfl

theorem push_of_maxSize_lt (hsome : ¬ f.prune.isEmpty = true)
    (h : Term.maxSize < f.prune.entries.size) :
    push rule p f b = .error (.capacity .termSize f.prune.entries.size Term.maxSize) b := by
  simp only [push, if_neg hsome, Term.ofForm, if_pos h]
  rfl

theorem push_of_fits (hsome : ¬ f.prune.isEmpty = true)
    (h : f.prune.entries.size ≤ Term.maxSize) :
    push rule p f b = .ok () (b.append [rule.madeOf (p, f)]) := by
  simp only [push, if_neg hsome, Term.ofForm, if_neg (Nat.not_lt.mpr h), append]
  rfl

theorem push_eq_ok (h : push rule p f b = .ok () b') :
    b'.terms.toList = b.terms.toList ++ (rule.termOf? (p, f)).toList := by
  by_cases hempty : f.prune.isEmpty = true
  · rw [push_of_isEmpty hempty] at h
    injection h with _ h
    rw [← h, Rule.termOf?, if_pos hempty, Option.toList_none, List.append_nil]
  · obtain hlarge | hfits := Nat.lt_or_ge Term.maxSize f.prune.entries.size
    · rw [push_of_maxSize_lt hempty hlarge] at h
      contradiction
    · rw [push_of_fits hempty hfits] at h
      injection h with _ h
      rw [← h, Rule.termOf?, if_neg hempty, Option.toList_some]
      simp [append, Rule.madeOf]

/-- Forms that are not too large all go to the buffers, but for those that are empty. -/
theorem forM_push_of_fits (h : ∀ s ∈ shapes, s.2.prune.entries.size ≤ Term.maxSize) :
    shapes.forM (fun s => push rule s.1 s.2) b =
      .ok () (b.append ((shapes.filter fun s => !s.2.prune.isEmpty).map rule.madeOf)) := by
  induction shapes generalizing b with
  | nil =>
    rw [List.filter_nil, List.map_nil, append_nil]
    rfl
  | cons s shapes ih =>
    obtain ⟨hfirst, hrest⟩ := List.forall_mem_cons.mp h
    show (push rule s.1 s.2 >>= fun _ => shapes.forM fun s => push rule s.1 s.2) b = _
    by_cases hempty : s.2.prune.isEmpty = true
    · rw [bind_ok (push_of_isEmpty hempty), ih hrest, List.filter_cons_of_neg (by simp [hempty])]
    · rw [bind_ok (push_of_fits hempty hfirst), ih hrest, append_append,
        List.filter_cons_of_pos (by simp [hempty])]
      rfl

end Grounded

theorem Grounded.forM_push_eq_ok {shapes : List (Potential × LinearForm α)} {b b' : Grounded α}
    (h : shapes.forM (fun s => Grounded.push rule s.1 s.2) b = .ok () b') :
    b'.terms.toList = b.terms.toList ++ shapes.filterMap rule.termOf? := by
  induction shapes generalizing b with
  | nil =>
    injection h with _ h
    rw [← h, List.filterMap_nil, List.append_nil]
  | cons s shapes ih =>
    obtain ⟨_, b₁, hpush, hrest⟩ := bind_eq_ok h
    rw [ih hrest, push_eq_ok hpush, List.append_assoc, List.filterMap_cons]
    cases rule.termOf? s <;> rfl

/-- What a generator makes of a ground rule that it does not refuse. -/
theorem Generator.ground_eq_ok {gen : Generator} {made : Grounded α} (h : gen.ground g = .ok made) :
    made.terms.toList = g.terms := by
  unfold ground generate at h
  cases hcheck : gen.check g.vars with
  | error e =>
    rw [hcheck] at h
    contradiction
  | ok _ =>
    simp only [hcheck] at h
    cases hmade : g.shapes.forM (fun s => Grounded.push g.rule s.1 s.2) {} with
    | ok _ b =>
      rw [hmade] at h
      injection h with h
      rw [← h]
      exact Grounded.forM_push_eq_ok hmade
    | error e b =>
      rw [hmade] at h
      contradiction

/-- A generator that accepts the variables of a ground rule makes its terms, unless one of them has
too many entries. -/
theorem Generator.exists_ground_eq_ok {gen : Generator} (hcheck : gen.check g.vars = .ok ())
    (hfits : ∀ s ∈ g.shapes, s.2.prune.entries.size ≤ Term.maxSize) :
    ∃ made, gen.ground g = .ok made ∧ made.terms.toList = g.terms := by
  have hground : gen.ground g = .ok (Grounded.append {} g.made) := by
    simp only [ground, generate, hcheck, Grounded.forM_push_of_fits hfits, GroundRule.made]
  exact ⟨_, hground, ground_eq_ok hground⟩

/-- What a ground rule itself can be refused for: something is past its limit, but not the number
of the terms of a store. -/
def IsRefusal (e : Fault) : Prop :=
  ∃ what index limit, e = .capacity what index limit ∧ what ≠ .term

theorem Grounded.isRefusal_of_push (rule : Rule α) (p : Potential) (f : LinearForm α) :
    Keeps (fun _ => True) (fun _ => True) IsRefusal (Grounded.push rule p f) := by
  intro b _
  by_cases hempty : f.prune.isEmpty = true
  · rw [push_of_isEmpty hempty]
    exact ⟨trivial, trivial⟩
  · obtain hlarge | hfits := Nat.lt_or_ge Term.maxSize f.prune.entries.size
    · rw [push_of_maxSize_lt hempty hlarge]
      exact ⟨⟨.termSize, _, _, rfl, nofun⟩, trivial⟩
    · rw [push_of_fits hempty hfits]
      exact ⟨trivial, trivial⟩

/-- A generator refuses a ground rule for a variable, or for too many entries. -/
theorem Generator.isRefusal_of_ground {gen : Generator} {e : Fault} (h : gen.ground g = .error e) :
    IsRefusal e := by
  have hcheck {e : Fault} (h : gen.check g.vars = .error e) : IsRefusal e := by
    unfold check at h
    split at h
    · contradiction
    · split at h
      · contradiction
      · injection h with h
        exact ⟨.variableIndex, _, _, h.symm, nofun⟩
  have hgenerate : Keeps (fun _ => True) (fun _ => True) IsRefusal (gen.generate g) := by
    unfold generate
    split
    · next h => exact Keeps.throw (hcheck h)
    · exact Keeps.forM fun s _ => Grounded.isRefusal_of_push g.rule s.1 s.2
  unfold ground at h
  cases hmade : gen.generate g {} with
  | ok _ b =>
    rw [hmade] at h
    contradiction
  | error e' b =>
    rw [hmade] at h
    injection h with h
    exact h ▸ (hgenerate.error trivial hmade).1

theorem Rule.vars_of_termOf? {shape : Potential × LinearForm α} {t : Term α}
    (h : rule.termOf? shape = some t) : t.vars = shape.2.prune.vars := by
  unfold Rule.termOf? at h
  simp only at h
  split at h
  · contradiction
  · injection h with h
    rw [← h]
    rfl

end Terms

/-- Two terms of a ground rule are those of an equality, and they are about the same variables. -/
theorem GroundRule.terms_cases (g : GroundRule Single) :
    g.terms.length ≤ 1 ∨
      (∃ entries constant, g.body = .arithmetic entries .equal constant) ∧
        ∃ t u, g.terms = [t, u] ∧ t.vars = u.vars := by
  have hone {s : Potential × LinearForm Single} (hshapes : g.shapes = [s]) :
      g.terms.length ≤ 1 := by
    rw [GroundRule.terms, hshapes]
    exact List.length_filterMap_le ..
  cases hbody : g.body with
  | clause positive negative => exact .inl (hone (by rw [shapes, hbody]))
  | arithmetic entries comparator constant =>
    cases comparator with
    | lessEqual => exact .inl (hone (by rw [shapes, hbody]))
    | greaterEqual => exact .inl (hone (by rw [shapes, hbody]))
    | equal =>
      let f := LinearForm.ofEntries entries constant
      let p := g.rule.potential.withHinge
      have hterms : g.terms = [(p, f), (p, f.negate)].filterMap g.rule.termOf? := by
        rw [terms, shapes, hbody]
      cases hfirst : g.rule.termOf? (p, f) with
      | none =>
        rw [List.filterMap_cons, hfirst] at hterms
        exact .inl (hterms ▸ List.length_filterMap_le ..)
      | some t =>
        cases hsecond : g.rule.termOf? (p, f.negate) with
        | none =>
          rw [List.filterMap_cons, hfirst, List.filterMap_cons, hsecond] at hterms
          exact .inl (hterms ▸ Nat.le_refl 1)
        | some u =>
          rw [List.filterMap_cons, hfirst, List.filterMap_cons, hsecond] at hterms
          refine .inr ⟨⟨entries, constant, rfl⟩, t, u, hterms, ?_⟩
          rw [Rule.vars_of_termOf? hfirst, Rule.vars_of_termOf? hsecond, f.vars_prune_negate]

theorem GroundRule.length_terms_le (g : GroundRule Single) : g.terms.length ≤ 2 := by
  obtain hone | ⟨_, t, u, hpair, _⟩ := g.terms_cases
  · omega
  · rw [hpair]
    exact Nat.le_refl 2

end HingeLoss
