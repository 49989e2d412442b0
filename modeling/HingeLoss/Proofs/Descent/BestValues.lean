import HingeLoss.Proofs.Descent.Passes
import HingeLoss.Proofs.Descent.Sweeps

/-!
# HingeLoss.Proofs.Descent.BestValues

The values that a run leaves are the best ones that it has reached.

1. the sum that a pass measures is the objective of the store at the values after the pass before:
   costs are added up in the order of the terms in both cases, and the pass reads the values to
   measure at from a copy that its own moves leave alone;
2. so the best values of a run have been offered with their objective, each once and in the order of
   the passes, the last ones when the run has ended;
3. offering keeps the first of the least objectives among those that are numbers.
-/

namespace HingeLoss

/-! ## Order -/

namespace Double

variable {a b c : Double}

theorem lt_trans (hab : a < b) (hbc : b < c) : a < c :=
  ⟨hab.1, hbc.2.1, Int.lt_trans hab.2.2 hbc.2.2⟩

theorem lt_of_lt_of_le (hab : a < b) (hbc : b ≤ c) : a < c :=
  ⟨hab.1, hbc.2.1, Int.lt_of_lt_of_le hab.2.2 hbc.2.2⟩

theorem le_of_lt (hab : a < b) : a ≤ b := ⟨hab.1, hab.2.1, Int.le_of_lt hab.2.2⟩

theorem le_refl_of_isNaN (ha : a.isNaN = false) : a ≤ a := ⟨ha, ha, Int.le_refl _⟩

theorem le_of_not_lt (ha : a.isNaN = false) (hb : b.isNaN = false) (h : ¬ a < b) : b ≤ a :=
  ⟨hb, ha, Int.not_lt.mp fun hlt => h ⟨ha, hb, hlt⟩⟩

end Double

/-! ## Offers -/

namespace Snapshot

/-- The first of the least objectives among those of the passes from one to `n`. -/
structure IsFirstLeast (o : Nat → Double) (n k : Nat) : Prop where
  one_le : 1 ≤ k
  le : k ≤ n
  isNaN_eq : (o k).isNaN = false
  least : ∀ t, 1 ≤ t → t ≤ n → (o t).isNaN = false → o k ≤ o t
  first : ∀ t, 1 ≤ t → t < k → (o t).isNaN = false → o k < o t

/-- What a snapshot holds when the values of the passes from one to `n` have been offered to it. -/
inductive Holds (o : Nat → Double) (v : Nat → Array Single) (n : Nat) : Snapshot → Prop where
  | best {k} : o k < .infinity → IsFirstLeast o n k → Holds o v n ⟨o k, k, v k⟩
  /-- The values after the first pass, where no objective is below infinity. -/
  | first : (∀ t, 1 ≤ t → t ≤ n → ¬ o t < .infinity) → Holds o v n (.start (v 1))

variable {o : Nat → Double} {v : Nat → Array Single} {n : Nat} {s : Snapshot}

/-- An objective below all before it is the first of the least ones. -/
theorem IsFirstLeast.last (hlast : (o (n + 1)).isNaN = false)
    (h : ∀ t, 1 ≤ t → t ≤ n → (o t).isNaN = false → o (n + 1) < o t) :
    IsFirstLeast o (n + 1) (n + 1) := by
  refine ⟨by omega, by omega, hlast, fun t h₁ hn ht => ?_, fun t h₁ hn ht => h t h₁ (by omega) ht⟩
  by_cases hlast : t = n + 1
  · subst hlast
    exact Double.le_refl_of_isNaN ht
  · exact Double.le_of_lt (h t h₁ (by omega) ht)

/-- An objective that is not lower leaves the first of the least ones as it is. -/
theorem IsFirstLeast.succ {k : Nat} (h : IsFirstLeast o n k) (hlast : ¬ o (n + 1) < o k) :
    IsFirstLeast o (n + 1) k := by
  refine ⟨h.one_le, Nat.le_succ_of_le h.le, h.isNaN_eq, fun t h₁ hn ht => ?_, h.first⟩
  by_cases heq : t = n + 1
  · subst heq
    exact Double.le_of_not_lt ht h.isNaN_eq hlast
  · exact h.least t h₁ (by omega) ht

theorem Holds.offer (h : Holds o v n s) :
    Holds o v (n + 1) (s.offer (o (n + 1)) (n + 1) (v (n + 1))) := by
  cases h with
  | @best k hk h =>
    by_cases hlt : o (n + 1) < o k
    · rw [Snapshot.offer, isBeatenBy, if_pos (decide_eq_true hlt)]
      refine .best (Double.lt_trans hlt hk) (.last hlt.1 fun t h₁ hn ht => ?_)
      exact Double.lt_of_lt_of_le hlt (h.least t h₁ hn ht)
    · rw [Snapshot.offer, isBeatenBy, if_neg fun h => hlt (of_decide_eq_true h)]
      exact .best hk (h.succ hlt)
  | first hnone =>
    by_cases hlt : o (n + 1) < (start (v 1)).objective
    · rw [Snapshot.offer, isBeatenBy, if_pos (decide_eq_true hlt)]
      refine .best hlt (.last hlt.1 fun t h₁ hn ht => ?_)
      exact Double.lt_of_lt_of_le hlt (Double.le_of_not_lt ht hlt.2.1 (hnone t h₁ hn))
    · rw [Snapshot.offer, isBeatenBy, if_neg fun h => hlt (of_decide_eq_true h)]
      refine .first fun t h₁ hn => ?_
      by_cases heq : t = n + 1
      · subst heq
        exact hlt
      · exact hnone t h₁ (by omega)

end Snapshot

/-! ## What a pass measures -/

namespace PassContext

variable {c : PassContext} {t : Term Single} {s s' : PassState} {point : Array Single}
  {items : List (Except Fault (Term Single))}

/-- A visit moves values and adds the cost of a soft term; hard terms wait. -/
theorem visit_frame (hc : c.measured = some point) (h : c.visit t s = .ok s') :
    s'.values.size = s.values.size ∧
      (t.isHard = true ∧ s'.held = s.held.push t ∧ s'.objective = s.objective ∨
        t.isHard = false ∧ s'.held = s.held ∧ t.requireWithin point.size = .ok () ∧
        s'.objective = s.objective + Double.ofSingle (t.evaluate (Term.valuesAt point))) := by
  obtain ⟨hhard, rfl⟩ | ⟨hsoft, u, hmeasure, hmove⟩ := visit_eq_ok h
  · exact ⟨rfl, .inl ⟨hhard, rfl, rfl⟩⟩
  · obtain ⟨_, moved, w, hentries, rfl⟩ := move_eq_ok hmove
    obtain ⟨hframe, hsize⟩ := moveEntries_frame hentries
    obtain ⟨hnone, _⟩ | ⟨point', hpoint, hwithin, rfl⟩ := measure_eq_ok hmeasure
    · rw [hc] at hnone
      contradiction
    · rw [hc] at hpoint
      injection hpoint with hpoint
      subst hpoint
      refine ⟨hsize, .inr ⟨hsoft, ?_, hwithin, ?_⟩⟩
      · rw [hframe]
      · rw [hframe]

theorem visitAll_measures (hc : c.measured = some point) {e : Evaluation}
    (h : c.visitAll items s = .ok () s') (he : e.objective = s.objective)
    (hheld : ∀ t ∈ s'.held, t.requireWithin point.size = .ok ()) :
    (∀ t ∈ s.held, t ∈ s'.held) ∧ ∃ e', items.foldlM (Evaluation.addItem point) e = .ok e' ∧
      e'.objective = s'.objective := by
  induction items generalizing s e with
  | nil =>
    injection h with _ h
    subst h
    exact ⟨fun _ h => h, e, rfl, he⟩
  | cons item items ih =>
    obtain ⟨t, u, rfl, hvisit, h⟩ := visitAll_cons_eq_ok h
    rw [List.foldlM_cons]
    obtain ⟨_, ⟨hhard, hpush, hobj⟩ | ⟨hsoft, hsame, hwithin, hobj⟩⟩ := visit_frame hc hvisit
    · have hnext : (e.addTerm t (Term.valuesAt point)).objective = u.objective := by
        rw [Evaluation.addTerm, if_pos hhard, hobj, he]
      obtain ⟨hmono, hfold⟩ := ih h hnext
      have ht : t ∈ s'.held := hmono t (by rw [hpush]; exact Array.mem_push_self)
      refine ⟨fun x hx => hmono x ?_, ?_⟩
      · rw [hpush]
        exact Array.mem_push_of_mem t hx
      · rw [e.addItem_ok (hheld t ht)]
        exact hfold
    · have hnext : (e.addTerm t (Term.valuesAt point)).objective = u.objective := by
        rw [Evaluation.addTerm, if_neg (by rw [hsoft]; decide), hobj, he]
      obtain ⟨hmono, hfold⟩ := ih h hnext
      refine ⟨fun x hx => hmono x (hsame ▸ hx), ?_⟩
      rw [e.addItem_ok hwithin]
      exact hfold

theorem repairAll_frame {ts : List (Term Single)} (h : c.repairAll ts s = .ok () s') :
    s'.objective = s.objective ∧ ∀ t ∈ ts, t.requireWithin s.values.size = .ok () := by
  induction ts generalizing s with
  | nil =>
    injection h with _ h
    subst h
    exact ⟨rfl, fun _ h => absurd h List.not_mem_nil⟩
  | cons t ts ih =>
    obtain ⟨u, hrepair, h⟩ := repairAll_cons_eq_ok h
    obtain ⟨hwithin, rfl⟩ := repair_eq_ok hrepair
    obtain ⟨hobj, hall⟩ := ih h
    have hsize : (t.project c.isFree s.values).1.size = s.values.size := by
      refine t.keeps_project (I := fun values => values.size = s.values.size) _ ?_ rfl
      exact fun e _ values target _ hsize => by rw [Array.size_setIfInBounds, hsize]
    refine ⟨hobj, fun x hx => ?_⟩
    cases List.mem_cons.mp hx with
    | inl hx => exact hx ▸ hwithin
    | inr hx => exact hsize ▸ hall x hx

/-- **A pass measures the objective** at the values that it is given, over the terms that it visits,
whatever it moves meanwhile. -/
theorem sweep_measures (hc : c.measured = some point) (h : c.sweep items s = .ok () s')
    (hsize : s.values.size = point.size) (hobj : s.objective = 0) :
    ∃ e, Evaluation.ofListing point items = .ok e ∧ e.objective = s'.objective := by
  obtain ⟨u, hvisit, hrepair⟩ := sweep_eq_ok h
  obtain ⟨hobj', hwithin⟩ := repairAll_frame hrepair
  have hvalues : u.values.size = s.values.size :=
    ((keeps_visitAll (I := fun u => u.values.size = s.values.size)
      (fun t _ u w hu hw => (visit_frame hc hw).1.trans hu) (fun _ _ => trivial)
      fun _ _ _ _ _ _ => trivial).ok rfl hvisit).2
  have hheld : ∀ t ∈ u.held, t.requireWithin point.size = .ok () := by
    intro t ht
    rw [← hsize, ← hvalues]
    exact hwithin t (Array.mem_toList_iff.mpr ht)
  obtain ⟨_, e, he, hsame⟩ := visitAll_measures hc hvisit (e := {}) hobj.symm hheld
  exact ⟨e, he, hsame.trans hobj'.symm⟩

end PassContext

/-! ## What a run leaves -/

namespace Descent

variable {σ : Type} [TermStore σ]

/-- What the values and the objectives of the passes of a run are called. -/
structure Tracks (o : DescentOptions) (kinds : Array AtomKind) (cancelled : Nat → Bool)
    (start : Run σ) (v : Nat → Array Single) (x : Nat → Double) : Prop where
  values_eq : ∀ {t p done r}, After o kinds cancelled start t p done r →
    (TermStore.atoms r.store).values = v t
  objective_eq : ∀ {t p done r a w}, After o kinds cancelled start t p done r →
    TermStore.objective r.store = .ok a w → a = x t

theorem exists_tracks (o : DescentOptions) (kinds : Array AtomKind) (cancelled : Nat → Bool)
    (start : Run σ) : ∃ v x, Tracks o kinds cancelled start v x := by
  obtain ⟨v, hv⟩ := After.exists_fun (fun r : Run σ => (TermStore.atoms r.store).values)
    o kinds cancelled start
  obtain ⟨x, hx⟩ := After.exists_fun (fun r : Run σ => match TermStore.objective r.store with
    | .ok a _ => a
    | .error _ _ => default) o kinds cancelled start
  refine ⟨v, x, hv _ _ _ _, fun h hobjective => ?_⟩
  rw [← hx _ _ _ _ h, hobjective]

variable [LawfulTermStore σ]

theorem evaluate_ok {s t : σ} {items : List (Except Fault (Term Single))} {e : Evaluation}
    (hterms : TermStore.terms s = .ok items t)
    (h : Evaluation.ofListing (TermStore.atoms s).values items = .ok e) :
    TermStore.evaluate s = .ok e t := by
  have hatoms := LawfulTermStore.atoms_terms s
  rw [hterms, finalState_ok] at hatoms
  rw [← hatoms] at h
  unfold TermStore.evaluate
  rw [bind_ok hterms, bind_ok (get_apply t), h]
  rfl

/-- A store is evaluated at its values, over the terms that it lists. -/
theorem exists_listing_of_evaluate {s t : σ} {e : Evaluation}
    (h : TermStore.evaluate s = .ok e t) :
    TermStore.atoms t = TermStore.atoms s ∧ ∃ items, TermStore.terms s = .ok items t ∧
      Evaluation.ofListing (TermStore.atoms s).values items = .ok e := by
  unfold TermStore.evaluate at h
  obtain ⟨items, u, hterms, h⟩ := bind_eq_ok h
  rw [bind_ok (get_apply u)] at h
  have hatoms := LawfulTermStore.atoms_terms s
  rw [hterms, finalState_ok] at hatoms
  cases hlist : Evaluation.ofListing (TermStore.atoms u).values items with
  | error e => rw [hlist] at h; contradiction
  | ok e =>
    rw [hlist] at h
    injection h with he ht
    subst he ht
    exact ⟨hatoms, items, hterms, hatoms ▸ hlist⟩

theorem evaluate_eq_ok {s t : σ} {e : Evaluation} (h : TermStore.evaluate s = .ok e t) :
    TermStore.objective s = .ok e.objective t ∧ TermStore.atoms t = TermStore.atoms s ∧
      ∃ items, TermStore.terms s = .ok items t := by
  obtain ⟨hatoms, items, hterms, _⟩ := exists_listing_of_evaluate h
  exact ⟨by rw [TermStore.objective, bind_ok h]; rfl, hatoms, items, hterms⟩

section After

variable {o : DescentOptions} {kinds : Array AtomKind} {cancelled : Nat → Bool} {start r r' : Run σ}
  {n : Nat} {p q : Progress} {done : Bool}

theorem After.previous_eq (h : After o kinds cancelled start (n + 1) p done r) :
    p.previous = (TermStore.atoms r.store).values := by
  cases h with
  | pass _ _ hpass =>
    obtain ⟨s, r₁, m, hsweep, rfl, hq⟩ := pass_eq_ok hpass
    obtain ⟨_, _, _, _, _, hvalues, _⟩ := sweepStore_eq_ok hsweep
    rw [LawfulTermStore.atoms_endPass, hvalues]
    obtain ⟨_, rfl, _⟩ | ⟨_, rfl, _⟩ := hq <;> rfl

/-- A later pass offers the values that it has started from, with their objective. -/
theorem After.offer_eq (h : After o kinds cancelled start (n + 1) p false r)
    (hpass : Descent.pass o kinds (n + 2) p r = .ok (q, done) r') :
    ∃ x items w, TermStore.terms r.store = .ok items w ∧ TermStore.objective r.store = .ok x w ∧
      q.best = p.best.offer x (n + 1) (TermStore.atoms r.store).values := by
  obtain ⟨s, r₁, m, hsweep, rfl, hq⟩ := pass_eq_ok hpass
  obtain ⟨items, w, hterms, _, hrun, _⟩ := sweepStore_eq_ok hsweep
  have hprevious := h.previous_eq
  obtain ⟨hfirst, _⟩ | ⟨_, rfl, _⟩ := hq
  · omega
  · have hmeasured : (context o kinds (n + 2) p).measured = some p.previous := rfl
    obtain ⟨e, he, hobj⟩ := PassContext.sweep_measures hmeasured hrun (by rw [hprevious]; rfl) rfl
    rw [hprevious] at he
    refine ⟨e.objective, items, w, hterms, (evaluate_eq_ok (evaluate_ok hterms he)).1, ?_⟩
    rw [hobj, ← hprevious]
    rfl

/-- The best values so far are those of the passes whose objective has been measured. -/
theorem After.holds_best {v : Nat → Array Single} {x : Nat → Double}
    (hv : Tracks o kinds cancelled start v x)
    (h : After o kinds cancelled start (n + 1) p done r) : p.best.Holds x v n := by
  generalize hm : n + 1 = m at h
  induction h generalizing n with
  | start => omega
  | @pass m p r q done r' hbefore hcancelled hpass ih =>
    have hafter := hbefore.pass hcancelled hpass
    cases n with
    | zero =>
      obtain rfl : m = 0 := by omega
      obtain ⟨s, r₁, _, hsweep, rfl, ⟨_, rfl, _⟩ | ⟨hne, _⟩⟩ := pass_eq_ok hpass
      · have hvalues : s.values = v 1 := by
          rw [← hv.values_eq hafter, ← hafter.previous_eq]
          rfl
        have hbest : (p.begin s).best = .start (v 1) := by rw [← hvalues]; rfl
        rw [hbest]
        exact .first fun t h₁ h₀ => by omega
      · omega
    | succ n =>
      obtain rfl : m = n + 1 := by omega
      obtain ⟨a, items, w, _, hobjective, hbest⟩ := hbefore.offer_eq hpass
      rw [hbest, hv.values_eq hbefore, hv.objective_eq hbefore hobjective]
      exact (ih rfl).offer

end After

/-- The end of a run: the values after the last pass are evaluated and offered with their objective,
and the best ones are put back and committed.  The violations are those of the evaluation. -/
theorem settle_evaluates {n : Nat} {p : Progress} {report : Report} {r r' : Run σ}
    (h : settle n p r = .ok report r') :
    ∃ e w, TermStore.evaluate r.store = .ok e w ∧ report.iterations = n ∧
      report.violated = e.violated ∧ r'.passes = r.passes ∧
      p.best.offer e.objective n (TermStore.atoms r.store).values =
        ⟨report.objective, report.lowestIteration, (TermStore.atoms r'.store).values⟩ ∧
      (TermStore.atoms r'.store).committed = (TermStore.atoms r'.store).values := by
  unfold settle at h
  obtain ⟨e, r₁, heval, h⟩ := bind_eq_ok h
  obtain ⟨heval, hpasses₁⟩ := onStore_eq_ok heval
  obtain ⟨t, _, ht, h⟩ := bind_eq_ok h
  injection ht with ht hr
  subst ht hr
  obtain ⟨_, r₂, hset, h⟩ := bind_eq_ok h
  obtain ⟨hset, hpasses₂⟩ := onStore_eq_ok hset
  obtain ⟨change, r₃, hsync, h⟩ := bind_eq_ok h
  obtain ⟨hsync, hpasses₃⟩ := onStore_eq_ok hsync
  injection h with hreport hr
  subst hreport hr
  obtain ⟨t₂, ht₂, hset⟩ := onAtoms_eq_ok hset
  obtain ⟨_, rfl⟩ := AtomTable.setValues_eq_ok ht₂
  obtain ⟨t₃, ht₃, hsync⟩ := onAtoms_eq_ok hsync
  rw [hset, LawfulTermStore.atoms_withAtoms] at ht₃
  obtain ⟨hlive, hcommitted⟩ := AtomTable.sync_eq_ok ht₃
  rw [hsync, LawfulTermStore.atoms_withAtoms]
  have hpasses := hpasses₃.trans (hpasses₂.trans hpasses₁)
  refine ⟨e, r₁.store, heval, rfl, rfl, hpasses, ?_, hcommitted.trans hlive.symm⟩
  rw [← (evaluate_eq_ok heval).2.1, hlive]

theorem settle_eq_ok {n : Nat} {p : Progress} {report : Report} {r r' : Run σ}
    (h : settle n p r = .ok report r') :
    ∃ a items w, TermStore.terms r.store = .ok items w ∧ TermStore.objective r.store = .ok a w ∧
      report.iterations = n ∧
      p.best.offer a n (TermStore.atoms r.store).values =
        ⟨report.objective, report.lowestIteration, (TermStore.atoms r'.store).values⟩ ∧
      (TermStore.atoms r'.store).committed = (TermStore.atoms r'.store).values := by
  obtain ⟨e, w, heval, hn, _, _, hbest, hcommitted⟩ := settle_evaluates h
  obtain ⟨hobjective, _, items, hterms⟩ := evaluate_eq_ok heval
  exact ⟨e.objective, items, w, hterms, hobjective, hn, hbest, hcommitted⟩

/-- **A run leaves the first of its best values.**  With `v t` the values after a pass and `x t`
their objective: if an objective is below infinity, the run reports the first of the least ones, and
leaves and commits the values of that pass; otherwise it reports infinity, and leaves and commits
the values after the first pass. -/
theorem exists_optimize_eq_firstLeast {d : Descent} {cancelled : Nat → Bool} {s : σ}
    {items : List (Except Fault (Term Single))} (hfixed : d.FixedOrder cancelled s items)
    {report : Report} {r : Run σ} (h : optimize d cancelled ⟨s, #[]⟩ = .ok report r) :
    ∃ (v : Nat → Array Single) (x : Nat → Double),
      (∀ t, 1 ≤ t → t ≤ report.iterations → ∃ p done u w, d.Reaches cancelled s t p done u ∧
        (TermStore.atoms u.store).values = v t ∧ TermStore.terms u.store = .ok items w ∧
        TermStore.objective u.store = .ok (x t) w) ∧
      ((∃ t, 1 ≤ t ∧ t ≤ report.iterations ∧ x t < .infinity) →
        Snapshot.IsFirstLeast x report.iterations report.lowestIteration ∧
        report.objective = x report.lowestIteration ∧
        (TermStore.atoms r.store).values = v report.lowestIteration ∧
        (TermStore.atoms r.store).committed = v report.lowestIteration) ∧
      ((∀ t, 1 ≤ t → t ≤ report.iterations → ¬ x t < .infinity) →
        report.objective = .infinity ∧ report.lowestIteration = 0 ∧
        (TermStore.atoms r.store).values = v 1 ∧ (TermStore.atoms r.store).committed = v 1) := by
  obtain ⟨n, p, r₁, ⟨s₀, hbegin, hafter⟩, hsettle⟩ := exists_reaches_of_optimize h
  obtain ⟨a, listed, w, hterms, hobjective, hn, hbest, hcommitted⟩ := settle_eq_ok hsettle
  obtain ⟨v, x, hv⟩ := exists_tracks d.options (TermStore.atoms s).kinds cancelled ⟨s₀, #[]⟩
  obtain rfl : a = x n := hv.objective_eq hafter hobjective
  rw [hv.values_eq hafter] at hbest
  subst hn
  refine ⟨v, x, fun t h₁ ht => ?_, ?_⟩
  · by_cases hlast : t = report.iterations
    · subst hlast
      rw [hfixed ⟨s₀, hbegin, hafter⟩ hterms] at hterms
      exact ⟨p, true, r₁, w, ⟨s₀, hbegin, hafter⟩, hv.values_eq hafter, hterms, hobjective⟩
    · obtain ⟨q, _, _, u, _, hu, hpass⟩ := hafter.exists_pass (t := t) (by omega)
      obtain ⟨m, rfl⟩ := Nat.exists_eq_add_of_le' h₁
      obtain ⟨b, items', w', hterms', hobjective', _⟩ := hu.offer_eq hpass
      rw [hfixed ⟨s₀, hbegin, hu⟩ hterms'] at hterms'
      rw [hv.objective_eq hu hobjective'] at hobjective'
      exact ⟨q, false, u, w', ⟨s₀, hbegin, hu⟩, hv.values_eq hu, hterms', hobjective'⟩
  · obtain ⟨m, hm⟩ := Nat.exists_eq_add_of_le' (Nat.le_of_succ_le hafter.two_le)
    rw [hm] at hafter hbest
    have hholds := (hafter.holds_best hv).offer
    rw [hbest, ← hm] at hholds
    generalize hs : Snapshot.mk _ _ _ = best at hholds
    cases hholds with
    | best hlt hleast =>
      injection hs with hobj hlowest hvalues
      subst hlowest
      exact ⟨fun _ => ⟨hleast, hobj, hvalues, hcommitted.trans hvalues⟩,
        fun hnone => absurd hlt (hnone _ hleast.one_le hleast.le)⟩
    | first hnone =>
      injection hs with hobj hlowest hvalues
      exact ⟨fun ⟨t, h₁, ht, hlt⟩ => absurd hlt (hnone t h₁ ht),
        fun _ => ⟨hobj, hlowest, hvalues, hcommitted.trans hvalues⟩⟩

/-- A term that steps of full length overshoot, so that the values swing between zero and a half. -/
def swingTerm : Term Single :=
  ⟨⟨0, ⟨0⟩, "near", .soft 1, .squared⟩, .squared, 0.25, #[⟨1, ⟨0⟩⟩]⟩

def swingStore : MemoryStore where
  terms := #[swingTerm]
  atoms := { atoms := #[⟨.unobserved, 1, 1⟩], values := #[1] }

def swingDescent : Descent :=
  ⟨{ schedule := .constant, maxIterations := 3, runFullIterations := true }, rfl⟩

/-- The first of equally good passes is kept, and not the last one. -/
theorem optimize_swing_eq :
    ∃ report r, optimize swingDescent (fun _ => false) ⟨swingStore, #[]⟩ = .ok report r ∧
      report.iterations = 4 ∧ report.lowestIteration = 1 ∧
      ∃ (v : Nat → Array Single) (x : Nat → Double),
        Snapshot.IsFirstLeast x 4 1 ∧ report.objective = x 1 ∧
        r.store.atoms.values = v 1 ∧ v 1 = #[0] ∧ r.store.atoms.committed = v 1 := by
  have heval : (match optimize swingDescent (fun _ => false) ⟨swingStore, #[]⟩ with
    | .ok report r => some (report.iterations, report.lowestIteration, r.store.atoms.values)
    | .error _ _ => none) = some (4, 1, #[0]) := by decide +kernel
  generalize hrun : optimize swingDescent (fun _ => false) ⟨swingStore, #[]⟩ = outcome at heval
  cases outcome with
  | error e r => contradiction
  | ok report r =>
    injection heval with heval
    injection heval with hn heval
    injection heval with hlowest hvalues
    obtain ⟨v, x, hpasses, hbest, hnone⟩ :=
      exists_optimize_eq_firstLeast (fixedOrder_memory _ _ _) hrun
    rw [hn, hlowest] at hbest
    rw [hn] at hnone
    refine ⟨report, r, rfl, hn, hlowest, v, x, ?_⟩
    by_cases h : ∃ t, 1 ≤ t ∧ t ≤ 4 ∧ x t < .infinity
    · obtain ⟨hleast, hobj, hlive, hcommitted⟩ := hbest h
      exact ⟨hleast, hobj, hlive, hlive.symm.trans hvalues, hcommitted⟩
    · obtain ⟨_, hzero, _⟩ := hnone fun t h₁ ht hlt => h ⟨t, h₁, ht, hlt⟩
      rw [hlowest] at hzero
      contradiction

end Descent

end HingeLoss
