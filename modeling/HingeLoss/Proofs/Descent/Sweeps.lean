import HingeLoss.Descent.Pass
import HingeLoss.Proofs.Program

/-!
# HingeLoss.Proofs.Descent.Sweeps

What the steps of a sweep do, one lemma for each.

A sweep visits terms and then repairs the hard ones.  A visit measures a soft term and moves its
variables; only the moves and the repairs write values, and only the moves touch the accumulators.
`keeps_moveEntries` is the induction along the variables of a term, and `keeps_visitAll` and
`keeps_repairAll` are those along the terms.
-/

namespace HingeLoss

/-- The state after the move of one variable. -/
def PassState.moved (s : PassState) (v : Variable) (target : Single) (a : Accumulators) :
    PassState :=
  { s with
    values := s.values.setIfInBounds v.toNat (Scalar.clamp target)
    accumulators := a }

/-- What every move of a variable preserves holds after the repair of a term. -/
theorem Term.keeps_project {I : Array Single → Prop} (t : Term Single)
    (free : Variable → Bool) {values : Array Single}
    (hmove : ∀ e ∈ t.entries, ∀ values target, free e.var = true → I values →
      I (values.setIfInBounds e.var.toNat (Scalar.clamp target))) (h : I values) :
    I (t.project free values).1 := by
  unfold project
  simp only
  split
  · exact h
  · refine Array.foldl_induction (fun _ (s : Array Single × Single) => I s.1) h fun i s hs => ?_
    split
    · next hfree => exact hmove _ (Array.getElem_mem i.isLt) _ _ hfree hs
    · exact hs

theorem Term.size_addGradient {α : Type} [Scalar α] (t : Term α) (w : α) (free : Variable → Bool)
    (x : Variable → α) (gradient : Array α) :
    (t.addGradient w free x gradient).size = gradient.size := by
  unfold addGradient
  refine Array.foldl_induction (fun _ (g : Array α) => g.size = gradient.size) rfl ?_
  intro i g hg
  split
  · rw [Array.size_modify, hg]
  · exact hg

namespace PassContext

variable {c : PassContext} {t : Term Single} {s s' : PassState}

theorem isFree_eq_true {v : Variable} (h : c.isFree v = true) :
    c.kinds[v.toNat]? = some .unobserved := by
  unfold isFree at h
  split at h
  · next hkind => exact hkind
  · contradiction

/-! ## Moving -/

/-- What every move of a variable preserves holds after the moves of a term. -/
theorem keeps_moveEntries {I : PassState → Prop} {rate : Single} {es : List (Entry Single)}
    (hmove : ∀ e ∈ es, ∀ s p step a target, c.isFree e.var = true →
      s.accumulators.step c.options c.iteration rate e.var p = .ok (step, a) →
      I s → I (s.moved e.var target a))
    {dot movement moved : Single}
    (h : c.moveEntries t rate es dot movement s = .ok (moved, s')) (hs : I s) : I s' := by
  induction es generalizing dot movement s with
  | nil =>
    injection h with h
    injection h with _ h
    exact h ▸ hs
  | cons e es ih =>
    obtain ⟨hfirst, hrest⟩ := List.forall_mem_cons.mp hmove
    unfold moveEntries at h
    by_cases hfree : c.isFree e.var = true
    · rw [if_pos hfree] at h
      obtain ⟨⟨step, a⟩, hstep, h⟩ := except_bind_eq_ok h
      exact ih hrest h (hfirst s _ step a _ hfree hstep hs)
    · rw [if_neg hfree] at h
      exact ih hrest h hs

/-- Moving touches values and accumulators only. -/
theorem moveEntries_frame {rate : Single} {es : List (Entry Single)} {dot movement moved : Single}
    (h : c.moveEntries t rate es dot movement s = .ok (moved, s')) :
    s' = { s with values := s'.values, accumulators := s'.accumulators } ∧
      s'.values.size = s.values.size := by
  refine keeps_moveEntries (I := fun u => u = { s with values := u.values, accumulators :=
    u.accumulators } ∧ u.values.size = s.values.size) (fun e _ u p step a target _ _ hu => ?_) h
    ⟨rfl, rfl⟩
  obtain ⟨hu, hsize⟩ := hu
  rw [hu]
  exact ⟨rfl, by simpa [PassState.moved] using hsize⟩

/-! ## Visiting -/

theorem move_eq_ok (h : c.move t s = .ok s') :
    t.requireWithin s.values.size = .ok () ∧ ∃ moved u,
      c.moveEntries t (c.options.rate c.iteration) t.entries.toList
        (t.dot (Term.valuesAt s.values)) 0 s = .ok (moved, u) ∧
      s' = { u with movement := u.movement + moved } := by
  obtain ⟨_, hvalues, h⟩ := except_bind_eq_ok h
  obtain ⟨_, _, h⟩ := except_bind_eq_ok h
  obtain ⟨⟨moved, u⟩, hmove, h⟩ := except_bind_eq_ok h
  injection h with h
  exact ⟨hvalues, moved, u, hmove, h.symm⟩

/-- A pass that measures adds the cost of a soft term at the values to measure at. -/
theorem measure_eq_ok (h : c.measure t s = .ok s') :
    c.measured = none ∧ s' = s ∨ ∃ point, c.measured = some point ∧
      t.requireWithin point.size = .ok () ∧ s' =
        { s with
          objective := s.objective + Double.ofSingle (t.evaluate (Term.valuesAt point))
          gradient := t.addGradient t.weight c.isFree (Term.valuesAt point) s.gradient } := by
  unfold measure at h
  cases hmeasured : c.measured with
  | none =>
    rw [hmeasured] at h
    injection h with h
    exact .inl ⟨rfl, h.symm⟩
  | some point =>
    rw [hmeasured] at h
    obtain ⟨_, hpoint, h⟩ := except_bind_eq_ok h
    obtain ⟨_, _, h⟩ := except_bind_eq_ok h
    injection h with h
    exact .inr ⟨point, rfl, hpoint, h.symm⟩

/-- Measuring moves no value. -/
theorem values_measure (h : c.measure t s = .ok s') : s'.values = s.values := by
  obtain ⟨_, rfl⟩ | ⟨_, _, _, rfl⟩ := measure_eq_ok h <;> rfl

/-- A hard term is held back; a soft one is measured and moved. -/
theorem visit_eq_ok (h : c.visit t s = .ok s') :
    t.isHard = true ∧ s' = { s with visited := s.visited + 1, held := s.held.push t } ∨
    t.isHard = false ∧ ∃ u, c.measure t { s with visited := s.visited + 1 } = .ok u ∧
      c.move t u = .ok s' := by
  unfold visit at h
  by_cases hhard : t.isHard = true
  · simp only [if_pos hhard] at h
    injection h with h
    exact .inl ⟨hhard, h.symm⟩
  · simp only [if_neg hhard] at h
    obtain ⟨u, hmeasure, h⟩ := except_bind_eq_ok h
    exact .inr ⟨Bool.eq_false_iff.mpr hhard, u, hmeasure, h⟩

theorem visited_visit (h : c.visit t s = .ok s') : s'.visited = s.visited + 1 := by
  obtain ⟨_, rfl⟩ | ⟨_, u, hmeasure, hmove⟩ := visit_eq_ok h
  · rfl
  · obtain ⟨_, _, w, hentries, rfl⟩ := move_eq_ok hmove
    have hmoved : w.visited = u.visited := by rw [(moveEntries_frame hentries).1]
    obtain ⟨_, rfl⟩ | ⟨_, _, _, rfl⟩ := measure_eq_ok hmeasure <;> exact hmoved

/-! ## Repairing -/

theorem repair_eq_ok (h : c.repair t s = .ok s') :
    t.requireWithin s.values.size = .ok () ∧ s' =
      { s with
        values := (t.project c.isFree s.values).1
        movement := s.movement + (t.project c.isFree s.values).2 } := by
  obtain ⟨_, hvalues, h⟩ := except_bind_eq_ok h
  obtain ⟨_, _, h⟩ := except_bind_eq_ok h
  injection h with h
  exact ⟨hvalues, h.symm⟩

/-! ## All terms -/

theorem keeps_attempt {I : PassState → Prop} {E : Fault → Prop}
    {step : PassState → Except Fault PassState} (hok : ∀ s s', I s → step s = .ok s' → I s')
    (herror : ∀ s e, I s → step s = .error e → E e) :
    Keeps I (fun _ => True) E (attempt step) := by
  intro s hs
  unfold attempt
  cases h : step s with
  | ok s' => exact ⟨trivial, hok s s' hs h⟩
  | error e => exact ⟨herror s e hs h, hs⟩

theorem attempt_eq_ok {step : PassState → Except Fault PassState}
    (h : attempt step s = .ok () s') : step s = .ok s' := by
  unfold attempt at h
  cases hstep : step s with
  | ok u =>
    rw [hstep] at h
    injection h with _ h
    rw [h]
  | error e => rw [hstep] at h; contradiction

section Loops

variable {I : PassState → Prop} {E : Fault → Prop} {items : List (Except Fault (Term Single))}

theorem keeps_visitAll (hvisit : ∀ t, .ok t ∈ items → ∀ s s', I s → c.visit t s = .ok s' → I s')
    (hitem : ∀ e, .error e ∈ items → E e)
    (herror : ∀ t, .ok t ∈ items → ∀ s e, I s → c.visit t s = .error e → E e) :
    Keeps I (fun _ => True) E (c.visitAll items) := by
  refine Keeps.forM fun item hmem => ?_
  cases item with
  | ok t => exact keeps_attempt (hvisit t hmem) (herror t hmem)
  | error e =>
    refine keeps_attempt (fun s s' _ h => nomatch h) fun s f _ h => ?_
    injection h with h
    exact h ▸ hitem e hmem

theorem keeps_repairAll {ts : List (Term Single)}
    (hrepair : ∀ t ∈ ts, ∀ s s', I s → c.repair t s = .ok s' → I s')
    (herror : ∀ t ∈ ts, ∀ s e, I s → c.repair t s = .error e → E e) :
    Keeps I (fun _ => True) E (c.repairAll ts) :=
  Keeps.forM fun t ht => keeps_attempt (hrepair t ht) (herror t ht)

theorem visitAll_cons_eq_ok {item : Except Fault (Term Single)}
    (h : c.visitAll (item :: items) s = .ok () s') :
    ∃ t u, item = .ok t ∧ c.visit t s = .ok u ∧ c.visitAll items u = .ok () s' := by
  obtain ⟨_, u, hvisit, h⟩ := bind_eq_ok h
  obtain ⟨t, hitem, hvisit⟩ := except_bind_eq_ok (attempt_eq_ok hvisit)
  exact ⟨t, u, hitem, hvisit, h⟩

theorem repairAll_cons_eq_ok {ts : List (Term Single)} (h : c.repairAll (t :: ts) s = .ok () s') :
    ∃ u, c.repair t s = .ok u ∧ c.repairAll ts u = .ok () s' := by
  obtain ⟨_, u, hrepair, h⟩ := bind_eq_ok h
  exact ⟨u, attempt_eq_ok hrepair, h⟩

theorem sweep_eq_ok (h : c.sweep items s = .ok () s') :
    ∃ u, c.visitAll items s = .ok () u ∧ c.repairAll u.held.toList u = .ok () s' := by
  obtain ⟨_, u, hvisit, h⟩ := bind_eq_ok h
  exact ⟨u, hvisit, h⟩

/-- A sweep that succeeds counts each item of its listing, and none of them is a failure. -/
theorem sweep_visits (h : c.sweep items s = .ok () s') :
    s'.visited = s.visited + items.length ∧ ∀ e, .error e ∉ items := by
  obtain ⟨u, hvisit, hrepair⟩ := sweep_eq_ok h
  have hrepaired : s'.visited = u.visited :=
    ((keeps_repairAll (I := fun w => w.visited = u.visited)
      (fun t _ w w' hw hrun => by
        obtain ⟨_, rfl⟩ := repair_eq_ok hrun
        exact hw) fun _ _ _ _ _ _ => trivial).ok rfl hrepair).2
  rw [hrepaired]
  clear h hrepair hrepaired
  induction items generalizing s with
  | nil =>
    injection hvisit with _ hu
    exact ⟨hu ▸ rfl, fun e => List.not_mem_nil⟩
  | cons item items ih =>
    obtain ⟨t, w, rfl, hone, hrest⟩ := visitAll_cons_eq_ok hvisit
    obtain ⟨hvisited, hnone⟩ := ih hrest
    refine ⟨?_, fun e he => ?_⟩
    · rw [hvisited, visited_visit hone, List.length_cons]
      omega
    · cases List.mem_cons.mp he with
      | inl he => contradiction
      | inr he => exact hnone e he

end Loops

end PassContext

end HingeLoss
