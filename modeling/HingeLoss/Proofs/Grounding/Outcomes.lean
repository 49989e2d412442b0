import HingeLoss.Proofs.Grounding.Folding

/-!
# HingeLoss.Proofs.Grounding.Outcomes

What a generator does to its buffers.

1. a ground rule is refused for its first variable past the bound, or for its size when its entries
   are put together and pruned, and then the buffers stay as they are;
2. otherwise each form that is left goes to the buffers with its term, an equality with both of its
   forms or with none.

The two forms of an equality have the same variables after pruning, since a number is zero exactly
if its negation is.  So the second one is too large, or empty, only if the first one is, and nothing
has been appended by then.
-/

namespace HingeLoss

/-! ## What a ground rule comes to -/

namespace GroundRule

variable {g : GroundRule Single} {s : Potential × LinearForm Single}

/-- The entries of a ground rule, put together and pruned. -/
def folded (g : GroundRule Single) : List (Entry Single) := pruned (addAllTo g.entries [])

/-- Every form of a ground rule has its entries, or their negations. -/
theorem entries_of_mem_shapes (h : s ∈ g.shapes) :
    s.2.entries.toList = addAllTo g.entries [] ∨
      s.2.entries.toList = negated (addAllTo g.entries []) := by
  unfold shapes at h
  unfold entries
  split at h
  · next positive negative hbody =>
    rw [List.mem_singleton.mp h, hbody, LinearForm.ofClause_eq_ofEntries]
    exact .inl (LinearForm.entries_ofEntries ..)
  · next entries constant hbody =>
    rw [List.mem_singleton.mp h, hbody]
    exact .inl (LinearForm.entries_ofEntries ..)
  · next entries constant hbody =>
    rw [List.mem_singleton.mp h, hbody, LinearForm.entries_negate, LinearForm.entries_ofEntries]
    exact .inr rfl
  · next entries constant hbody =>
    rw [hbody]
    simp only [List.mem_cons, List.not_mem_nil, or_false] at h
    obtain rfl | rfl := h
    · exact .inl (LinearForm.entries_ofEntries ..)
    · rw [LinearForm.entries_negate, LinearForm.entries_ofEntries]
      exact .inr rfl

theorem prune_of_mem_shapes (h : s ∈ g.shapes) :
    s.2.prune.entries.toList = g.folded ∨ s.2.prune.entries.toList = negated g.folded := by
  rw [LinearForm.entries_prune_eq, folded, ← pruned_negated]
  exact (entries_of_mem_shapes h).imp (congrArg pruned) (congrArg pruned)

/-- The forms of a ground rule have the same number of entries after pruning. -/
theorem size_of_mem_shapes (h : s ∈ g.shapes) : s.2.prune.entries.size = g.folded.length := by
  rw [← Array.length_toList]
  obtain h | h := prune_of_mem_shapes h
  · rw [h]
  · rw [h, negated, List.length_map]

/-- The variables of entries that are put together are distinct. -/
theorem nodup_folded (g : GroundRule Single) : (g.folded.map (·.var)).Nodup := by
  have hall := (LinearForm.isSound_ofEntries g.entries 0).nodup
  rw [LinearForm.vars, LinearForm.entries_ofEntries] at hall
  exact hall.sublist (List.filter_sublist.map _)

theorem mem_vars_of_folded (g : GroundRule Single) {e : Entry Single} (h : e ∈ g.folded) :
    e.var ∈ g.vars := by
  have hall : e.var ∈ (addAllTo g.entries []).map (·.var) :=
    List.mem_map_of_mem (List.mem_filter.mp h).1
  rwa [mem_vars_addAllTo, map_var_entries, List.map_nil, or_iff_left List.not_mem_nil] at hall

theorem shapes_ne_nil (g : GroundRule Single) : g.shapes ≠ [] := by
  unfold shapes
  split <;> simp

theorem length_shapes_le (g : GroundRule Single) : g.shapes.length ≤ 2 := by
  unfold shapes
  split <;> simp

theorem isEmpty_of_mem_shapes (h : s ∈ g.shapes) :
    s.2.prune.isEmpty = true ↔ g.folded = [] := by
  rw [LinearForm.isEmpty, Array.isEmpty_iff_size_eq_zero, size_of_mem_shapes h,
    List.length_eq_zero_iff]

theorem made_of_folded_eq_nil (h : g.folded = []) : g.made = [] := by
  rw [made, List.map_eq_nil_iff, List.filter_eq_nil_iff]
  intro s hs
  simp [(isEmpty_of_mem_shapes hs).mpr h]

theorem made_of_folded_ne_nil (h : g.folded ≠ []) : g.made = g.shapes.map g.rule.madeOf := by
  rw [made, List.filter_eq_self.mpr]
  intro s hs
  simp [mt (isEmpty_of_mem_shapes hs).mp h]

/-! ### What is made of it -/

section Made

variable {p : Term Single × LinearForm Single}

theorem exists_shape_of_mem_made (h : p ∈ g.made) : ∃ s ∈ g.shapes, g.rule.madeOf s = p := by
  obtain ⟨s, hs, hp⟩ := List.mem_map.mp h
  exact ⟨s, (List.mem_filter.mp hs).1, hp⟩

/-- A term has the constant and the entries of its form. -/
theorem copied_of_mem_made (h : p ∈ g.made) :
    p.1.constant = p.2.constant ∧ p.1.entries = p.2.entries := by
  obtain ⟨s, _, rfl⟩ := exists_shape_of_mem_made h
  exact ⟨rfl, rfl⟩

theorem entries_of_mem_made (h : p ∈ g.made) :
    p.1.entries.toList = g.folded ∨ p.1.entries.toList = negated g.folded := by
  obtain ⟨s, hs, rfl⟩ := exists_shape_of_mem_made h
  exact prune_of_mem_shapes hs

theorem size_of_mem_made (h : p ∈ g.made) : p.1.size = g.folded.length := by
  rw [Term.size, ← Array.length_toList]
  obtain h | h := entries_of_mem_made h <;> simp [h, negated]

theorem vars_of_mem_made (h : p ∈ g.made) : p.1.vars = g.folded.map (·.var) := by
  obtain h | h := entries_of_mem_made h <;> simp [Term.vars, h, negated]

/-- A term has no variable that its ground rule does not mention. -/
theorem mem_vars_of_mem_made (h : p ∈ g.made) {v : Variable} (hv : v ∈ p.1.vars) : v ∈ g.vars := by
  rw [vars_of_mem_made h] at hv
  obtain ⟨e, he, rfl⟩ := List.mem_map.mp hv
  exact g.mem_vars_of_folded he

theorem not_isZero_of_mem_folded {e : Entry Single} (h : e ∈ g.folded) :
    ¬ Scalar.IsZero e.coefficient :=
  mt Single.isZero_iff.mp (by simpa using (List.mem_filter.mp h).2)

theorem not_isZero_of_mem_made (h : p ∈ g.made) {e : Entry Single} (he : e ∈ p.1.entries.toList) :
    ¬ Scalar.IsZero e.coefficient := by
  obtain h | h := entries_of_mem_made h
  · exact not_isZero_of_mem_folded (h ▸ he)
  · rw [h] at he
    obtain ⟨e', he', rfl⟩ := List.mem_map.mp he
    exact mt Single.isZero_neg.mp (not_isZero_of_mem_folded he')

/-- The two terms of an equality are those of one form and of its negation. -/
theorem made_of_equality {entries : List (Entry Single)} {constant : Single}
    (hbody : g.body = .arithmetic entries .equal constant) (hsome : g.folded ≠ []) :
    ∃ p q, g.made = [p, q] ∧ q.1.constant = -p.1.constant ∧
      q.1.entries.toList = negated p.1.entries.toList := by
  let f := LinearForm.ofEntries entries constant
  have hshapes : g.shapes =
      [(g.rule.potential.withHinge, f), (g.rule.potential.withHinge, f.negate)] := by
    rw [shapes, hbody]
  refine ⟨_, _, by rw [made_of_folded_ne_nil hsome, hshapes]; rfl, ?_, ?_⟩
  · show f.negate.prune.constant = -f.prune.constant
    rw [LinearForm.constant_prune, LinearForm.constant_prune]
    rfl
  · show f.negate.prune.entries.toList = negated f.prune.entries.toList
    rw [LinearForm.entries_prune_eq, LinearForm.entries_prune_eq, LinearForm.entries_negate,
      pruned_negated]

end Made

end GroundRule

/-! ## Refusals -/

namespace Generator

variable {gen : Generator} {g : GroundRule Single} {vs : List Variable} {e : Fault}

/-- Whether a variable is below the bound of a generator. -/
def Allows (gen : Generator) (v : Variable) : Prop :=
  ∀ bound, gen.variableCount = some bound → v.toNat < bound

/-- What a ground rule is refused for. -/
inductive Refuses (gen : Generator) (g : GroundRule Single) : Fault → Prop
  /-- The first variable that is not below the bound. -/
  | pastBound (before : List Variable) (v : Variable) (after : List Variable) (bound : Nat)
      (split : g.vars = before ++ v :: after) (allowed : ∀ u ∈ before, gen.Allows u)
      (bounded : gen.variableCount = some bound) (past : bound ≤ v.toNat) :
      Refuses gen g (.capacity .variableIndex v.toNat bound)
  /-- The number of its entries when they are put together and pruned. -/
  | tooLarge (allowed : ∀ v ∈ g.vars, gen.Allows v) (past : Term.maxSize < g.folded.length) :
      Refuses gen g (.capacity .termSize g.folded.length Term.maxSize)

/-- What a generator makes of a ground rule: terms, each with its form. -/
structure IsGrounding (gen : Generator) (g : GroundRule Single)
    (made : List (Term Single × LinearForm Single)) : Prop where
  length_le : made.length ≤ 2
  eq_nil_iff : made = [] ↔ g.folded = []
  /-- A term has the entries of the ground rule, put together and pruned, or their negations. -/
  folded : ∀ p ∈ made, p.1.entries.toList = g.folded ∨ p.1.entries.toList = negated g.folded
  /-- A term has the constant and the entries of its form. -/
  copied : ∀ p ∈ made, p.1.constant = p.2.constant ∧ p.1.entries = p.2.entries
  size : ∀ p ∈ made, 1 ≤ p.1.size ∧ p.1.size ≤ Term.maxSize
  nodup : ∀ p ∈ made, p.1.vars.Nodup
  allowed : ∀ p ∈ made, ∀ v ∈ p.1.vars, gen.Allows v
  nonzero : ∀ p ∈ made, ∀ e ∈ p.1.entries.toList, ¬ Scalar.IsZero e.coefficient
  /-- An equality makes no term, or two, the second one with the signs of the first one flipped. -/
  equality : ∀ entries constant, g.body = .arithmetic entries .equal constant →
    made = [] ∨ ∃ p q, made = [p, q] ∧ q.1.constant = -p.1.constant ∧
      q.1.entries.toList = negated p.1.entries.toList

theorem check_eq_ok_iff : gen.check vs = .ok () ↔ ∀ v ∈ vs, gen.Allows v := by
  obtain ⟨_ | bound⟩ := gen
  · simp [check, Allows]
  · have hallows : (∀ v ∈ vs, Allows ⟨some bound⟩ v) ↔
        vs.find? (fun v => bound ≤ v.toNat) = none := by
      simp [Allows]
    rw [hallows]
    cases hfind : vs.find? fun v => bound ≤ v.toNat <;> simp [check, hfind]

theorem refuses_of_check (h : gen.check g.vars = .error e) : gen.Refuses g e := by
  obtain ⟨_ | bound⟩ := gen
  · simp [check] at h
  · cases hfind : g.vars.find? fun v => bound ≤ v.toNat with
    | none => simp [check, hfind] at h
    | some v =>
      obtain ⟨hpast, before, after, hsplit, hbefore⟩ := List.find?_eq_some_iff_append.mp hfind
      have hfault : .capacity .variableIndex v.toNat bound = e := by
        simpa [check, hfind] using h
      have hallowed : ∀ u ∈ before, Allows ⟨some bound⟩ u := by simpa [Allows] using hbefore
      exact hfault ▸ .pastBound before v after bound hsplit hallowed rfl (by simpa using hpast)

/-- A refused ground rule has a variable that is not below the bound, or too many entries. -/
theorem Refuses.reason (h : gen.Refuses g e) :
    (∃ v ∈ g.vars, ¬ gen.Allows v) ∨ Term.maxSize < g.folded.length := by
  cases h with
  | pastBound before v after bound hsplit _ hbounded hpast =>
    have hmem : v ∈ g.vars := hsplit ▸ by simp
    exact .inl ⟨v, hmem, fun hallowed => Nat.not_lt.mpr hpast (hallowed bound hbounded)⟩
  | tooLarge _ hpast => exact .inr hpast

theorem isGrounding_nil (h : g.folded = []) : gen.IsGrounding g [] where
  length_le := Nat.zero_le 2
  eq_nil_iff := iff_of_true rfl h
  folded := by simp
  copied := by simp
  size := by simp
  nodup := by simp
  allowed := by simp
  nonzero := by simp
  equality _ _ _ := .inl rfl

/-- The first form of a ground rule that is too large is refused, before anything is appended. -/
theorem forM_push_of_maxSize_lt {b : Grounded Single} (h : Term.maxSize < g.folded.length) :
    g.shapes.forM (fun s => Grounded.push g.rule s.1 s.2) b =
      .error (.capacity .termSize g.folded.length Term.maxSize) b := by
  obtain ⟨s, shapes, hshapes⟩ := List.exists_cons_of_ne_nil g.shapes_ne_nil
  have hmem : s ∈ g.shapes := hshapes ▸ List.mem_cons_self
  have hsize := g.size_of_mem_shapes hmem
  have hsome : ¬ s.2.prune.isEmpty = true := by
    rw [g.isEmpty_of_mem_shapes hmem]
    exact List.ne_nil_of_length_pos (Nat.zero_lt_of_lt h)
  rw [hshapes]
  show (Grounded.push g.rule s.1 s.2 >>= fun _ =>
    shapes.forM fun s => Grounded.push g.rule s.1 s.2) b = _
  rw [bind_error (Grounded.push_of_maxSize_lt hsome (hsize ▸ h)), hsize]

/-- What a ground rule comes to, unless it is refused. -/
theorem isGrounding_made (hallowed : ∀ v ∈ g.vars, gen.Allows v)
    (hfits : g.folded.length ≤ Term.maxSize) : gen.IsGrounding g g.made := by
  by_cases hnone : g.folded = []
  · rw [g.made_of_folded_eq_nil hnone]
    exact isGrounding_nil hnone
  have hpos := List.length_pos_iff.mpr hnone
  have hmade := g.made_of_folded_ne_nil hnone
  have hlength : g.made.length = g.shapes.length := by rw [hmade, List.length_map]
  have hsome : g.made ≠ [] := by
    rw [hmade, Ne, List.map_eq_nil_iff]
    exact g.shapes_ne_nil
  exact
    { length_le := hlength ▸ g.length_shapes_le
      eq_nil_iff := iff_of_false hsome hnone
      folded := fun _ hp => GroundRule.entries_of_mem_made hp
      copied := fun _ hp => GroundRule.copied_of_mem_made hp
      size := fun _ hp => GroundRule.size_of_mem_made hp ▸ ⟨hpos, hfits⟩
      nodup := fun _ hp => GroundRule.vars_of_mem_made hp ▸ g.nodup_folded
      allowed := fun _ hp v hv => hallowed v (GroundRule.mem_vars_of_mem_made hp hv)
      nonzero := fun _ hp _ he => GroundRule.not_isZero_of_mem_made hp he
      equality := fun _ _ hbody => .inr (GroundRule.made_of_equality hbody hnone) }

/-- A ground rule is refused and the buffers stay as they are, or what it comes to goes to them. -/
theorem generate_cases (gen : Generator) (g : GroundRule Single) (b : Grounded Single) :
    (∃ e, gen.generate g b = .error e b ∧ gen.Refuses g e) ∨
      (∀ v ∈ g.vars, gen.Allows v) ∧ g.folded.length ≤ Term.maxSize ∧
        gen.generate g b = .ok () (b.append g.made) := by
  cases hcheck : gen.check g.vars with
  | error e => exact .inl ⟨e, by rw [generate, hcheck]; rfl, refuses_of_check hcheck⟩
  | ok _ =>
    have hallowed := check_eq_ok_iff.mp hcheck
    have hgenerate : gen.generate g b =
        g.shapes.forM (fun s => Grounded.push g.rule s.1 s.2) b := by
      rw [generate, hcheck]
    rw [hgenerate]
    obtain hlarge | hfits := Nat.lt_or_ge Term.maxSize g.folded.length
    · exact .inl ⟨_, forM_push_of_maxSize_lt hlarge, .tooLarge hallowed hlarge⟩
    · have hsizes : ∀ s ∈ g.shapes, s.2.prune.entries.size ≤ Term.maxSize :=
        fun s hs => g.size_of_mem_shapes hs ▸ hfits
      exact .inr ⟨hallowed, hfits, Grounded.forM_push_of_fits hsizes⟩

theorem generate_eq_ok (hallowed : ∀ v ∈ g.vars, gen.Allows v)
    (hfits : g.folded.length ≤ Term.maxSize) (b : Grounded Single) :
    gen.generate g b = .ok () (b.append g.made) := by
  obtain ⟨e, _, hrefuses⟩ | ⟨_, _, hmade⟩ := gen.generate_cases g b
  · obtain ⟨v, hv, hrefused⟩ | hlarge := hrefuses.reason
    · exact absurd (hallowed v hv) hrefused
    · exact absurd hlarge (Nat.not_lt.mpr hfits)
  · exact hmade

/-- **Outcomes.**  A ground rule is refused exactly if it has a variable that is not below the bound
or too many entries when they are put together and pruned.  The fault names the first such variable,
or else the number of entries, and the buffers stay as they are.  Otherwise the terms of the ground
rule, none, one or two, and their forms stand behind what the buffers held. -/
theorem generate_outcome (gen : Generator) (g : GroundRule Single) (b : Grounded Single) :
    ((∃ e b', gen.generate g b = .error e b') ↔
      (∃ v ∈ g.vars, ¬ gen.Allows v) ∨ Term.maxSize < g.folded.length) ∧
    match gen.generate g b with
    | .error e b' => b' = b ∧ gen.Refuses g e
    | .ok _ b' => ∃ made, b' = b.append made ∧ gen.IsGrounding g made := by
  obtain ⟨e, herror, hrefuses⟩ | ⟨hallowed, hfits, hmade⟩ := gen.generate_cases g b
  · rw [herror]
    exact ⟨iff_of_true ⟨e, b, rfl⟩ hrefuses.reason, rfl, hrefuses⟩
  · rw [hmade]
    refine ⟨iff_of_false ?_ ?_, g.made, rfl, isGrounding_made hallowed hfits⟩
    · simp
    · rintro (⟨v, hv, hrefused⟩ | hlarge)
      · exact hrefused (hallowed v hv)
      · exact Nat.not_lt.mpr hfits hlarge

end Generator

end HingeLoss
