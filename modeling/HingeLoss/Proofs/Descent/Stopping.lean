import HingeLoss.Proofs.Descent.Constraints

/-!
# HingeLoss.Proofs.Descent.Stopping

Runs that differ in when they stop.

Some options say how a pass moves the values: the learning rate with its schedule, the extension
with its decays, and whether steps are coordinate-wise.  The others say when a run ends and what it
notes down.  A sweep reads its options through the first kind only, so

1. two runs over the same terms whose options move alike go through the same values, pass by pass,
   until the shorter one ends (`After.agree`);
2. a run keeps the first of its least objectives, so the longer run keeps what the shorter one
   keeps, or values of a later pass with a lower objective.
-/

namespace HingeLoss

/-! ## Options that move alike -/

/-- Options that move the values alike.  They may differ in everything that ends a run. -/
structure DescentOptions.MovesLike (o o' : DescentOptions) : Prop where
  learningRate : o'.learningRate = o.learningRate
  schedule : o'.schedule = o.schedule
  decayExponent : o'.decayExponent = o.decayExponent
  extension : o'.extension = o.extension
  beta1 : o'.beta1 = o.beta1
  beta2 : o'.beta2 = o.beta2
  coordinateStep : o'.coordinateStep = o.coordinateStep

namespace DescentOptions.MovesLike

variable {o o' : DescentOptions}

theorem rate_eq (h : o.MovesLike o') (iteration : Nat) : o'.rate iteration = o.rate iteration := by
  simp only [rate, h.learningRate, h.schedule, h.decayExponent]

theorem step_eq (h : o.MovesLike o') (iteration : Nat) (rate : Single) (v : Variable) (p : Single)
    (a : Accumulators) : a.step o' iteration rate v p = a.step o iteration rate v p := by
  cases a with
  | none => rfl
  | adaGrad slots squares => rfl
  | adam slots means variances =>
    simp only [Accumulators.step, Accumulators.adamStep, h.beta1, h.beta2]

end DescentOptions.MovesLike

/-! ## Sweeps -/

namespace PassContext

variable {c : PassContext} {o : DescentOptions}

theorem moveEntries_congr (h : c.options.MovesLike o) (t : Term Single) (rate : Single)
    (es : List (Entry Single)) (dot movement : Single) (s : PassState) :
    { c with options := o }.moveEntries t rate es dot movement s =
      c.moveEntries t rate es dot movement s := by
  induction es generalizing dot movement s with
  | nil => rfl
  | cons e es ih =>
    have hfree : isFree { c with options := o } e.var = c.isFree e.var := rfl
    simp only [moveEntries, hfree, h.step_eq, h.coordinateStep, ih]

theorem visit_congr (h : c.options.MovesLike o) (t : Term Single) (s : PassState) :
    { c with options := o }.visit t s = c.visit t s := by
  have hmove : move { c with options := o } t = c.move t := by
    funext u
    simp only [move, moveEntries_congr h, h.rate_eq]
  have hmeasure : measure { c with options := o } t = c.measure t := rfl
  simp only [visit, hmove, hmeasure]

/-- A sweep reads its options only for how they move the values. -/
theorem sweep_congr (h : c.options.MovesLike o) (items : List (Except Fault (Term Single))) :
    { c with options := o }.sweep items = c.sweep items := by
  have hvisit : visitAll { c with options := o } items = c.visitAll items := by
    simp only [visitAll, visit_congr h]
  have hrepair : repairAll { c with options := o } = c.repairAll := rfl
  simp only [sweep, hvisit, hrepair]

end PassContext

/-! ## What is kept -/

namespace Snapshot

variable {x x' : Nat → Double} {v v' : Nat → Array Single} {m n : Nat} {s s' : Snapshot}

theorem IsFirstLeast.unique {k k' : Nat} (h : IsFirstLeast x n k) (h' : IsFirstLeast x n k') :
    k = k' := by
  have hle := h.least k' h'.one_le h'.le h'.isNaN_eq
  have hge := h'.least k h.one_le h.le h.isNaN_eq
  obtain hlt | heq | hgt := Nat.lt_trichotomy k k'
  · have hbefore := h'.first k h.one_le hlt h.isNaN_eq
    exact absurd hbefore.2.2 (Int.not_lt.mpr hle.2.2)
  · exact heq
  · have hbefore := h.first k' h'.one_le hgt h'.isNaN_eq
    exact absurd hbefore.2.2 (Int.not_lt.mpr hge.2.2)

/-- What is kept is determined by the passes that have been offered. -/
theorem Holds.unique (h : Holds x v n s) (h' : Holds x v n s') : s = s' := by
  cases h with
  | best hlt h =>
    cases h' with
    | best _ h' => rw [h.unique h']
    | first hnone => exact absurd hlt (hnone _ h.one_le h.le)
  | first hnone =>
    cases h' with
    | best hlt h' => exact absurd hlt (hnone _ h'.one_le h'.le)
    | first _ => rfl

/-- Only the passes that have been offered matter. -/
theorem Holds.congr (hx : ∀ t, 1 ≤ t → t ≤ n → x' t = x t) (hv : ∀ t, 1 ≤ t → t ≤ n → v' t = v t)
    (hn : 1 ≤ n) (h : Holds x v n s) : Holds x' v' n s := by
  cases h with
  | @best k hlt h =>
    have hbest : (⟨x k, k, v k⟩ : Snapshot) = ⟨x' k, k, v' k⟩ := by
      rw [hx k h.one_le h.le, hv k h.one_le h.le]
    rw [hbest]
    rw [← hx k h.one_le h.le] at hlt
    have hnan := h.isNaN_eq
    rw [← hx k h.one_le h.le] at hnan
    have hleast : ∀ t, 1 ≤ t → t ≤ n → (x' t).isNaN = false → x' k ≤ x' t := by
      intro t h₁ ht hnumber
      rw [hx t h₁ ht] at hnumber
      rw [hx k h.one_le h.le, hx t h₁ ht]
      exact h.least t h₁ ht hnumber
    have hfirst : ∀ t, 1 ≤ t → t < k → (x' t).isNaN = false → x' k < x' t := by
      intro t h₁ ht hnumber
      have hle : t ≤ n := Nat.le_trans (Nat.le_of_lt ht) h.le
      rw [hx t h₁ hle] at hnumber
      rw [hx k h.one_le h.le, hx t h₁ hle]
      exact h.first t h₁ ht hnumber
    exact .best hlt ⟨h.one_le, h.le, hnan, hleast, hfirst⟩
  | first hnone =>
    rw [← hv 1 (Nat.le_refl 1) hn]
    exact .first fun t h₁ ht => by
      rw [hx t h₁ ht]
      exact hnone t h₁ ht

/-- What is kept of all passes is kept of the first ones, if it is one of them. -/
theorem Holds.restrict (h : Holds x v m s) (hnm : n ≤ m) (hs : s.iteration ≤ n) :
    Holds x v n s := by
  cases h with
  | best hlt h =>
    have hleast := fun t h₁ (ht : t ≤ n) => h.least t h₁ (Nat.le_trans ht hnm)
    exact .best hlt ⟨h.one_le, hs, h.isNaN_eq, hleast, h.first⟩
  | first hnone => exact .first fun t h₁ ht => hnone t h₁ (Nat.le_trans ht hnm)

/-- With more passes, the objective that is kept is not higher. -/
theorem Holds.objective_le (h : Holds x v n s) (h' : Holds x v m s') (hnm : n ≤ m) :
    s'.objective ≤ s.objective := by
  cases h with
  | @best k hlt h =>
    have hk : k ≤ m := Nat.le_trans h.le hnm
    cases h' with
    | best _ h' => exact h'.least k h.one_le hk h.isNaN_eq
    | first hnone => exact absurd hlt (hnone k h.one_le hk)
  | first _ =>
    cases h' with
    | best hlt' _ => exact Double.le_of_lt hlt'
    | first _ =>
      have hnumber : Double.infinity.isNaN = false := by decide
      exact Double.le_refl_of_isNaN hnumber

end Snapshot

/-! ## Runs -/

namespace Descent

variable {σ τ : Type} [TermStore σ] [LawfulTermStore σ] [TermStore τ] [LawfulTermStore τ]

section After

variable {o o' : DescentOptions} {kinds : Array AtomKind} {cancelled cancelled' : Nat → Bool}
  {start : Run σ} {start' : Run τ} {items : List (Except Fault (Term Single))}

/-- **Runs that move alike agree pass by pass**, as long as both go on: what they hand on is the
same, and so are the values of their stores. -/
theorem After.agree (hmoves : o.MovesLike o')
    (hvalues : (TermStore.atoms start'.store).values = (TermStore.atoms start.store).values)
    (hfixed : ∀ {n p done r listed t}, After o kinds cancelled start n p done r →
      TermStore.terms r.store = .ok listed t → listed = items)
    (hfixed' : ∀ {n p done r listed t}, After o' kinds cancelled' start' n p done r →
      TermStore.terms r.store = .ok listed t → listed = items)
    {n : Nat} {p p' : Progress} {done done' : Bool} {r : Run σ} {r' : Run τ}
    (h : After o kinds cancelled start n p done r)
    (h' : After o' kinds cancelled' start' n p' done' r') :
    p' = p ∧ (TermStore.atoms r'.store).values = (TermStore.atoms r.store).values := by
  induction h generalizing p' done' r' with
  | start =>
    cases h'
    have hprogress : Progress.start o' kinds = .start o kinds := by
      rw [Progress.start, hmoves.extension, Progress.start]
    exact ⟨hprogress, hvalues⟩
  | @pass n p r q done r₁ hbefore _ hpass ih =>
    cases h' with
    | @pass _ p' r' q' done' r₁' hbefore' _ hpass' =>
      obtain ⟨rfl, hlive⟩ := ih hbefore'
      obtain ⟨s, r₂, m, hsweep, rfl, hq⟩ := pass_eq_ok hpass
      obtain ⟨s', r₂', m', hsweep', rfl, hq'⟩ := pass_eq_ok hpass'
      obtain ⟨listed, t, hterms, _, hrun, hleft, _⟩ := sweepStore_eq_ok hsweep
      obtain ⟨listed', t', hterms', _, hrun', hleft', _⟩ := sweepStore_eq_ok hsweep'
      obtain rfl := hfixed hbefore hterms
      obtain rfl := hfixed' hbefore' hterms'
      have hcongr := PassContext.sweep_congr (c := context o kinds (n + 1) p') hmoves listed'
      have hcontext : context o' kinds (n + 1) p' =
          { context o kinds (n + 1) p' with options := o' } := rfl
      rw [hcontext, hcongr, hlive, hrun] at hrun'
      injection hrun' with _ hs
      subst hs
      rw [LawfulTermStore.atoms_endPass, LawfulTermStore.atoms_endPass, hleft, hleft']
      obtain ⟨hfirst, rfl, _⟩ | ⟨hlater, rfl, _⟩ := hq <;>
        obtain ⟨hfirst', rfl, _⟩ | ⟨hlater', rfl, _⟩ := hq'
      · exact ⟨rfl, rfl⟩
      · exact absurd hfirst hlater'
      · exact absurd hfirst' hlater
      · exact ⟨rfl, rfl⟩

/-- Runs that move alike come to the same values and objectives, where both can be evaluated. -/
theorem After.tracks_agree (hmoves : o.MovesLike o')
    (hvalues : (TermStore.atoms start'.store).values = (TermStore.atoms start.store).values)
    (hfixed : ∀ {n p done r listed t}, After o kinds cancelled start n p done r →
      TermStore.terms r.store = .ok listed t → listed = items)
    (hfixed' : ∀ {n p done r listed t}, After o' kinds cancelled' start' n p done r →
      TermStore.terms r.store = .ok listed t → listed = items)
    {v v' : Nat → Array Single} {x x' : Nat → Double} (hv : Tracks o kinds cancelled start v x)
    (hv' : Tracks o' kinds cancelled' start' v' x')
    {n : Nat} {p p' : Progress} {done done' : Bool} {r : Run σ} {r' : Run τ} {e e' : Evaluation}
    {w : σ} {w' : τ} (h : After o kinds cancelled start n p done r)
    (h' : After o' kinds cancelled' start' n p' done' r')
    (heval : TermStore.evaluate r.store = .ok e w)
    (heval' : TermStore.evaluate r'.store = .ok e' w') : v' n = v n ∧ x' n = x n := by
  have hlive := (h.agree hmoves hvalues hfixed hfixed' h').2
  obtain ⟨_, listed, hterms, hlist⟩ := exists_listing_of_evaluate heval
  obtain ⟨_, listed', hterms', hlist'⟩ := exists_listing_of_evaluate heval'
  rw [hfixed h hterms] at hlist
  rw [hfixed' h' hterms', hlive, hlist] at hlist'
  injection hlist' with he
  constructor
  · rw [← hv.values_eq h, ← hv'.values_eq h', hlive]
  · rw [← hv.objective_eq h (evaluate_eq_ok heval).1,
      ← hv'.objective_eq h' (evaluate_eq_ok heval').1, he]

end After

/-- What agrees for the first numbers is a prefix of what there is for more of them. -/
theorem map_range_isPrefix {α : Type} {f f' : Nat → α} {m n : Nat} (hle : m ≤ n)
    (h : ∀ i < m, f i = f' i) : (List.range m).map f <+: (List.range n).map f' := by
  have hrange : List.range m <+: List.range n := by
    rw [← Nat.min_eq_left hle, ← List.take_range]
    exact List.take_prefix _ _
  rw [List.map_congr_left fun i hi => h i (List.mem_range.mp hi)]
  exact hrange.map _

/-- **A run that stops earlier goes through the first passes of the longer one.**  Two runs over the
same terms in the same order, from the same values, whose options move alike: the values after the
passes of the shorter run are those after the first passes of the longer one.  So the longer run
never ends with a higher objective, and if the pass that it keeps is one of the shorter run, both
leave and commit the same values and report the same objective, reached after the same pass. -/
theorem optimize_passes_isPrefix {d d' : Descent} {cancelled cancelled' : Nat → Bool} {s : σ}
    {s' : τ} {items : List (Except Fault (Term Single))} (hmoves : d.options.MovesLike d'.options)
    (hkinds : (TermStore.atoms s').kinds = (TermStore.atoms s).kinds)
    (hvalues : (TermStore.atoms s').values = (TermStore.atoms s).values)
    (hfixed : d.FixedOrder cancelled s items) (hfixed' : d'.FixedOrder cancelled' s' items)
    {report report' : Report} {r : Run σ} {r' : Run τ}
    (h : optimize d cancelled ⟨s, #[]⟩ = .ok report r)
    (h' : optimize d' cancelled' ⟨s', #[]⟩ = .ok report' r')
    (hle : report.iterations ≤ report'.iterations) :
    r.passes.toList.map (·.values) <+: r'.passes.toList.map (·.values) ∧
      report'.objective ≤ report.objective ∧
      (report'.lowestIteration ≤ report.iterations →
        (TermStore.atoms r'.store).values = (TermStore.atoms r.store).values ∧
        (TermStore.atoms r'.store).committed = (TermStore.atoms r.store).committed ∧
        report'.objective = report.objective ∧
        report'.lowestIteration = report.lowestIteration) := by
  obtain ⟨n, p, u, ⟨s₀, hbegin, hafter⟩, hsettle⟩ := exists_reaches_of_optimize h
  obtain ⟨n', p', u', ⟨s₀', hbegin', hafter'⟩, hsettle'⟩ := exists_reaches_of_optimize h'
  rw [hkinds] at hafter'
  obtain ⟨v, x, hv⟩ := exists_tracks d.options (TermStore.atoms s).kinds cancelled ⟨s₀, #[]⟩
  obtain ⟨v', x', hv'⟩ := exists_tracks d'.options (TermStore.atoms s).kinds cancelled' ⟨s₀', #[]⟩
  obtain ⟨_, _, _, hn, _, hpasses, _, hcommitted⟩ := settle_evaluates hsettle
  obtain ⟨_, _, _, hn', _, hpasses', _, hcommitted'⟩ := settle_evaluates hsettle'
  have hholds := hafter.holds_of_settle hv hsettle
  have hholds' := hafter'.holds_of_settle hv' hsettle'
  subst hn hn'
  have hstart : (TermStore.atoms s₀').values = (TermStore.atoms s₀).values := by
    rw [LawfulTermStore.atoms_of_beginRun hbegin, LawfulTermStore.atoms_of_beginRun hbegin',
      hvalues]
  -- As long as both runs go on, they agree after each pass.
  have hagree : ∀ t, 1 ≤ t → t ≤ report.iterations → v' t = v t ∧ x' t = x t := by
    intro t h₁ ht
    obtain ⟨_, _, _, _, _, hw, heval⟩ := hafter.exists_evaluate_of_settle hsettle h₁ ht
    obtain ⟨_, _, _, _, _, hw', heval'⟩ :=
      hafter'.exists_evaluate_of_settle hsettle' h₁ (Nat.le_trans ht hle)
    exact hw.tracks_agree hmoves hstart (fun hr => hfixed ⟨s₀, hbegin, hr⟩)
      (fun hr => hfixed' ⟨s₀', hbegin', hkinds ▸ hr⟩) hv hv' hw' heval heval'
  have hshort : Snapshot.Holds x' v' report.iterations
      ⟨report.objective, report.lowestIteration, (TermStore.atoms r.store).values⟩ :=
    hholds.congr (fun t h₁ ht => (hagree t h₁ ht).2) (fun t h₁ ht => (hagree t h₁ ht).1)
      (Nat.le_of_succ_le hafter.two_le)
  refine ⟨?_, hshort.objective_le hholds' hle, fun hlowest => ?_⟩
  · rw [hpasses, hpasses', hafter.passes_eq hv rfl, hafter'.passes_eq hv' rfl]
    exact map_range_isPrefix hle fun i hi => (hagree (i + 1) (Nat.succ_pos i) hi).1.symm
  · have hsame := (hholds'.restrict hle hlowest).unique hshort
    injection hsame with hobjective hiteration hlive
    exact ⟨hlive, by rw [hcommitted, hcommitted', hlive], hobjective, hiteration⟩

/-- As `swingDescent`, for two passes and with another rule for ending the run. -/
def briefDescent : Descent :=
  ⟨{ schedule := .constant, maxIterations := 1, budget := 0.5, watchMovement := false
     objectiveBreak := false, tolerance := 0.5, firstOrderNorm := 1, firstOrderThreshold := 4.0
     nonconvexPeriod := 3, nonconvexRounds := 2 }, rfl⟩

/-- Two passes are the first two of four, and as the first one is kept, both runs end alike. -/
theorem optimize_swing_isPrefix :
    ∃ report r report' r',
      optimize briefDescent (fun _ => false) ⟨swingStore, #[]⟩ = .ok report r ∧
      optimize swingDescent (fun _ => false) ⟨swingStore, #[]⟩ = .ok report' r' ∧
      report.iterations = 2 ∧ report'.iterations = 4 ∧
      r.passes.toList.map (·.values) <+: r'.passes.toList.map (·.values) ∧
      report'.objective ≤ report.objective ∧ r'.store.atoms.values = r.store.atoms.values := by
  have heval : onSuccess (fun report _ => report.iterations)
      (optimize briefDescent (fun _ => false) ⟨swingStore, #[]⟩) = some 2 := by decide +kernel
  have heval' : onSuccess (fun report _ => (report.iterations, report.lowestIteration))
      (optimize swingDescent (fun _ => false) ⟨swingStore, #[]⟩) = some (4, 1) := by decide +kernel
  obtain ⟨report, r, hrun, heval⟩ := exists_of_onSuccess heval
  obtain ⟨report', r', hrun', heval'⟩ := exists_of_onSuccess heval'
  injection heval' with hn' hlowest
  have hmoves : briefDescent.options.MovesLike swingDescent.options :=
    ⟨rfl, rfl, rfl, rfl, rfl, rfl, rfl⟩
  obtain ⟨hpasses, hobjective, hsame⟩ := optimize_passes_isPrefix hmoves rfl rfl
    (fixedOrder_memory _ _ _) (fixedOrder_memory _ _ _) hrun hrun' (by omega)
  have hlive := (hsame (by omega)).1
  exact ⟨report, r, report', r', hrun, hrun', heval, hn', hpasses, hobjective, hlive⟩

end Descent

end HingeLoss
