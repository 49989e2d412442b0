import HingeLoss.Proofs.Grounding.Shapes
import HingeLoss.Proofs.Store.Agreement

/-!
# HingeLoss.Proofs.Store.Adding

What adding a ground rule makes of a store in memory.

The terms of a ground rule are inserted one by one.  A store takes in the terms up to the first one
that it refuses (`accepted`), and keeps them when the insertion of the others fails.  Only an
equality has two terms, and the second of them is about the same atoms as the first, so it is
refused on its own for one reason: the first has taken the last place.  Everywhere else a ground
rule is added whole or not at all.
-/

namespace HingeLoss

namespace TermStore

variable {σ : Type} [TermStore σ]

/-- The terms that a store makes of a ground rule are those of its shapes. -/
theorem ground_eq_ok {s : σ} {g : GroundRule Single} {ts : List (Term Single)}
    (h : ground s g = .ok ts) : (generator s).isNone = false ∧ ts = g.terms := by
  obtain ⟨gen, made, hgen, hmade, rfl⟩ := exists_ground h
  exact ⟨by rw [hgen]; rfl, Generator.ground_eq_ok hmade⟩

theorem add_of_ground_ok {s : σ} {g : GroundRule Single} {ts : List (Term Single)}
    (h : ground s g = .ok ts) : add g s = (ts.forM insert >>= fun _ => pure ts.length) s := by
  unfold add
  rw [bind_ok (get_apply s), h]

theorem add_of_ground_error {s : σ} {g : GroundRule Single} {e : Fault}
    (h : ground s g = .error e) : add g s = .error e s := by
  unfold add
  rw [bind_ok (get_apply s), h]
  rfl

end TermStore

namespace MemoryStore

open TermStore

variable {s : MemoryStore} {t u : Term Single} {g : GroundRule Single} {e : Fault}

/-! ## Terms in a row -/

def push (s : MemoryStore) (t : Term Single) : MemoryStore := { s with terms := s.terms.push t }

def extend (s : MemoryStore) (ts : List (Term Single)) : MemoryStore :=
  { s with terms := s.terms ++ ts.toArray }

theorem extend_nil (s : MemoryStore) : s.extend [] = s := by
  rw [extend, Array.append_empty]

theorem extend_push (s : MemoryStore) (t : Term Single) (ts : List (Term Single)) :
    (s.push t).extend ts = s.extend (t :: ts) := by
  simp [extend, push]

theorem insert_eq_ok (h : s.checkInsert t = .ok ()) : insert t s = .ok () (s.push t) := by
  simp only [insert, h, push]

theorem insert_eq_error (h : s.checkInsert t = .error e) : insert t s = .error e s := by
  simp only [insert, h]

/-- The terms up to the first one that is refused, when terms are inserted in order. -/
def accepted (s : MemoryStore) : List (Term Single) → List (Term Single)
  | [] => []
  | t :: ts => match s.checkInsert t with
    | .ok () => t :: (s.push t).accepted ts
    | .error _ => []

theorem accepted_prefix (s : MemoryStore) (ts : List (Term Single)) : s.accepted ts <+: ts := by
  induction ts generalizing s with
  | nil => exact List.prefix_rfl
  | cons t ts ih =>
    cases hcheck : s.checkInsert t with
    | error e =>
      simp only [accepted, hcheck]
      exact List.nil_prefix
    | ok _ =>
      simp only [accepted, hcheck]
      exact (List.prefix_cons_inj t).mpr (ih (s.push t))

/-- Inserting terms in order stores those that are accepted, and fails if there are others. -/
theorem forM_insert_cases (ts : List (Term Single)) (s : MemoryStore) :
    s.accepted ts = ts ∧ ts.forM insert s = .ok () (s.extend ts) ∨
    s.accepted ts ≠ ts ∧ ∃ e, ts.forM insert s = .error e (s.extend (s.accepted ts)) := by
  induction ts generalizing s with
  | nil => exact .inl ⟨rfl, by rw [extend_nil]; rfl⟩
  | cons t ts ih =>
    change _ ∧ (insert t >>= fun _ => ts.forM insert) s = _ ∨
      _ ∧ ∃ e, (insert t >>= fun _ => ts.forM insert) s = _
    cases hcheck : s.checkInsert t with
    | error e =>
      rw [bind_error (insert_eq_error hcheck)]
      simp only [accepted, hcheck, extend_nil]
      exact .inr ⟨List.cons_ne_nil t ts |>.symm, e, rfl⟩
    | ok _ =>
      rw [bind_ok (insert_eq_ok hcheck)]
      simp only [accepted, hcheck, ne_eq, List.cons.injEq, true_and, ← extend_push]
      exact ih (s.push t)

/-! ## Refusals -/

/-- A store accepts a term if it is open, has the atoms of the term, and has room. -/
theorem checkInsert_eq_ok_iff : s.checkInsert t = .ok () ↔
    s.checkOpen = .ok () ∧ checkVariables s.atoms t = .ok () ∧ s.checkRoom = .ok () := by
  unfold checkInsert
  constructor
  · intro h
    obtain ⟨_, hopen, h⟩ := except_bind_eq_ok h
    obtain ⟨_, hvariables, hroom⟩ := except_bind_eq_ok h
    exact ⟨hopen, hvariables, hroom⟩
  · rintro ⟨hopen, hvariables, hroom⟩
    rw [hopen, hvariables]
    exact hroom

/-- A term takes the last place of a store that has room before it and none behind it. -/
theorem capacity_eq_of_checkRoom (h : s.checkRoom = .ok ()) (hpush : (s.push t).checkRoom ≠ .ok ()) :
    s.capacity = some (s.terms.size + 1) := by
  unfold checkRoom push at *
  cases hcapacity : s.capacity with
  | none =>
    rw [hcapacity] at hpush
    exact (hpush rfl).elim
  | some limit =>
    simp only [hcapacity, Array.size_push] at h hpush
    split at h
    · contradiction
    · split at hpush
      · congr
        omega
      · exact (hpush rfl).elim

/-! ## Ground rules -/

/-- Adding a ground rule stores all its terms and tells their number, or fails and stores none. -/
def AddsWhole (s : MemoryStore) (g : GroundRule Single) : Prop :=
  match add g s with
  | .ok n s' => n = g.terms.length ∧ s'.terms.toList = s.terms.toList ++ g.terms
  | .error _ s' => s'.terms = s.terms

/-- The first of two terms of a ground rule takes the last place of a store. -/
structure StopsBetween (s : MemoryStore) (g : GroundRule Single) (t u : Term Single) : Prop where
  ground : TermStore.ground s g = .ok [t, u]
  known : checkVariables s.atoms t = .ok ()
  capacity : s.capacity = some (s.terms.size + 1)

/-- Two terms are made of an equality, and they are about the same atoms. -/
theorem pair_of_ground (h : TermStore.ground s g = .ok [t, u]) :
    (∃ entries constant, g.body = .arithmetic entries .equal constant) ∧ t.vars = u.vars := by
  obtain ⟨-, hterms⟩ := ground_eq_ok h
  obtain hone | ⟨hequality, t', u', hpair, hvars⟩ := g.terms_cases
  · rw [← hterms, List.length_cons, List.length_singleton] at hone
    omega
  · rw [← hterms] at hpair
    injection hpair with ht hpair
    injection hpair with hu
    exact ⟨hequality, by rw [ht, hu, hvars]⟩

/-- The first term is stored, and the second one is refused for want of room. -/
theorem StopsBetween.add_eq (h : s.StopsBetween g t u) :
    add g s = .error (.capacity .term (s.terms.size + 1) (s.terms.size + 1)) (s.push t) := by
  have hopen : s.checkOpen = .ok () := by
    have hgenerator : s.generator.isNone = false := (ground_eq_ok h.ground).1
    rw [checkOpen, s.closed_eq, hgenerator]
    rfl
  have hroom : s.checkRoom = .ok () := by
    simp only [checkRoom, h.capacity]
    rw [if_neg (by omega)]
  have hfirst := checkInsert_eq_ok_iff.mpr ⟨hopen, h.known, hroom⟩
  have hsecond : (s.push t).checkInsert u =
      .error (.capacity .term (s.terms.size + 1) (s.terms.size + 1)) := by
    have hopen : (s.push t).checkOpen = .ok () := hopen
    have hvariables : checkVariables (s.push t).atoms u = .ok () := by
      rw [checkVariables, ← (pair_of_ground h.ground).2]
      exact h.known
    have hfull : (s.push t).checkRoom =
        .error (.capacity .term (s.terms.size + 1) (s.terms.size + 1)) := by
      simp [checkRoom, push, h.capacity]
    rw [checkInsert, hopen, hvariables, hfull]
    rfl
  rw [add_of_ground_ok h.ground]
  refine bind_error ?_
  change (insert t >>= fun _ => insert u >>= fun _ => pure ()) s = _
  rw [bind_ok (insert_eq_ok hfirst), bind_error (insert_eq_error hsecond)]

/-- Where the first of two terms is accepted and the second one is not, the first has taken the last
place. -/
theorem stopsBetween_of_accepted (hground : TermStore.ground s g = .ok [t, u])
    (h : s.accepted [t, u] = [t]) : s.StopsBetween g t u := by
  cases hfirst : s.checkInsert t with
  | error e => simp [accepted, hfirst] at h
  | ok _ =>
    obtain ⟨hopen, hvariables, hroom⟩ := checkInsert_eq_ok_iff.mp hfirst
    refine ⟨hground, hvariables, capacity_eq_of_checkRoom (t := t) hroom fun hpush => ?_⟩
    have hsecond : (s.push t).checkInsert u = .ok () := by
      refine checkInsert_eq_ok_iff.mpr ⟨hopen, ?_, hpush⟩
      rw [checkVariables, ← (pair_of_ground hground).2]
      exact hvariables
    simp [accepted, hfirst, hsecond] at h

/-- Of the terms of a ground rule all are accepted or none is, unless the first of two takes the last
place. -/
theorem accepted_eq_nil (hground : TermStore.ground s g = .ok g.terms)
    (hsome : s.accepted g.terms ≠ g.terms) (hnone : ¬ ∃ t u, s.StopsBetween g t u) :
    s.accepted g.terms = [] := by
  have hstart := s.accepted_prefix g.terms
  have hlt : (s.accepted g.terms).length < g.terms.length :=
    Nat.lt_of_le_of_ne hstart.length_le fun hsame => hsome (hstart.eq_of_length hsame)
  obtain hone | ⟨_, t, u, hpair, _⟩ := g.terms_cases
  · exact List.length_eq_zero_iff.mp (by omega)
  · rw [hpair] at hground hstart hlt ⊢
    by_cases hempty : s.accepted [t, u] = []
    · exact hempty
    · have hpos := List.length_pos_iff.mpr hempty
      have hlength : (s.accepted [t, u]).length = 1 := by
        rw [List.length_cons, List.length_singleton] at hlt
        omega
      have htake := List.prefix_iff_eq_take.mp hstart
      rw [hlength] at htake
      exact (hnone ⟨t, u, stopsBetween_of_accepted hground htake⟩).elim

/-- **A ground rule is added whole or not at all**, unless it is an equality whose first term takes
the last place of the store.  Then the first term stays when the second one is refused. -/
theorem addsWhole_iff (s : MemoryStore) (g : GroundRule Single) :
    (s.AddsWhole g ↔ ¬ ∃ t u, s.StopsBetween g t u) ∧
      ∀ t u, s.StopsBetween g t u →
        (∃ entries constant, g.body = .arithmetic entries .equal constant) ∧
        add g s = .error (.capacity .term (s.terms.size + 1) (s.terms.size + 1)) (s.push t) := by
  refine ⟨⟨?_, fun hnone => ?_⟩, fun t u h => ⟨(pair_of_ground h.ground).1, h.add_eq⟩⟩
  · rintro hwhole ⟨t, u, h⟩
    simp only [AddsWhole, h.add_eq, push] at hwhole
    have hsize := congrArg Array.size hwhole
    rw [Array.size_push] at hsize
    omega
  · unfold AddsWhole
    cases hground : TermStore.ground s g with
    | error e => rw [add_of_ground_error hground]
    | ok ts =>
      obtain ⟨-, rfl⟩ := ground_eq_ok hground
      obtain ⟨_, hrun⟩ | ⟨hsome, e, hrun⟩ := forM_insert_cases g.terms s
      · rw [(add_of_ground_ok hground).trans (bind_ok hrun)]
        exact ⟨rfl, Array.toList_append⟩
      · rw [(add_of_ground_ok hground).trans (bind_error hrun),
          accepted_eq_nil hground hsome hnone, extend_nil]

/-- A store with one place. -/
def crampedStore : MemoryStore where
  atoms := sampleAtoms
  capacity := some 1

/-- The sample limit is an equality, and one of its two terms stays in the store when it cannot be
added. -/
theorem add_crampedStore_eq_error :
    ∃ s', add sampleLimit crampedStore = .error (.capacity .term 1 1) s' ∧
      crampedStore.terms.size = 0 ∧ s'.terms.size = 1 := by
  have heval : (match add sampleLimit crampedStore with
    | .ok _ _ => none
    | .error e s' => some (e, s'.terms.size)) = some (.capacity .term 1 1, 1) := by decide +kernel
  cases hadd : add sampleLimit crampedStore with
  | ok n s' =>
    rw [hadd] at heval
    contradiction
  | error e s' =>
    rw [hadd] at heval
    injection heval with heval
    injection heval with he hsize
    exact ⟨s', by rw [he], rfl, hsize⟩

end MemoryStore

end HingeLoss
