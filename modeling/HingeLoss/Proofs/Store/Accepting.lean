import HingeLoss.Proofs.Store.Adding

/-!
# HingeLoss.Proofs.Store.Accepting

What a store in memory takes in.

1. whether a store accepts terms is a matter of which terms they are and how many, and not of their
   order (`accepted_eq_self_iff`, `accepted_of_subset`);
2. a refusal for want of room tells that the store is full (`checkInsert_eq_capacity`); nothing else
   that is refused is about the number of terms;
3. ground rules can be added in order exactly if each makes its terms and all of them are accepted
   (`addInOrder_eq_ok_iff`).
-/

namespace HingeLoss

namespace MemoryStore

open TermStore

variable {s s' : MemoryStore} {t : Term Single} {ts us : List (Term Single)}
  {gs : List (GroundRule Single)}

/-! ## Terms in any order -/

/-- Room for so many terms.  Nothing needs no room. -/
def HasRoom (s : MemoryStore) (n : Nat) : Prop :=
  n = 0 ∨ ∀ limit, s.capacity = some limit → s.terms.size + n ≤ limit

theorem HasRoom.mono {m n : Nat} (h : s.HasRoom n) (hmn : m ≤ n) : s.HasRoom m := by
  obtain rfl | hn := h
  · exact .inl (Nat.le_zero.mp hmn)
  · refine .inr fun limit hlimit => ?_
    have := hn limit hlimit
    omega

/-- Room for one more term is room for it and then for the others. -/
theorem hasRoom_succ_iff (s : MemoryStore) (t : Term Single) (n : Nat) :
    s.HasRoom (n + 1) ↔ s.checkRoom = .ok () ∧ (s.push t).HasRoom n := by
  unfold HasRoom checkRoom push
  cases hcapacity : s.capacity with
  | none => simp
  | some limit =>
    simp only [Option.some.injEq, Array.size_push, forall_eq']
    split <;> grind

/-- A store accepts terms in a row if it is open, has their atoms, and has room for all. -/
theorem accepted_eq_self_iff : s.accepted ts = ts ↔
    (ts ≠ [] → s.checkOpen = .ok ()) ∧ (∀ t ∈ ts, checkVariables s.atoms t = .ok ()) ∧
      s.HasRoom ts.length := by
  induction ts generalizing s with
  | nil => simp [accepted, HasRoom]
  | cons t ts ih =>
    have hpush : (s.push t).accepted ts = ts ↔ (ts ≠ [] → s.checkOpen = .ok ()) ∧
      (∀ u ∈ ts, checkVariables s.atoms u = .ok ()) ∧ (s.push t).HasRoom ts.length := ih
    have hroom := hasRoom_succ_iff s t ts.length
    have hcheck := checkInsert_eq_ok_iff (s := s) (t := t)
    rw [List.length_cons, List.forall_mem_cons]
    cases hinsert : s.checkInsert t with
    | error e =>
      rw [hinsert] at hcheck
      simp only [accepted, hinsert]
      grind
    | ok _ =>
      rw [hinsert] at hcheck
      simp only [accepted, hinsert, List.cons.injEq, true_and]
      grind

/-- What a store accepts does not depend on the order, and with some terms it accepts fewer. -/
theorem accepted_of_subset (hsubset : us ⊆ ts) (hlength : us.length ≤ ts.length)
    (h : s.accepted ts = ts) : s.accepted us = us := by
  obtain ⟨hopen, hknown, hroom⟩ := accepted_eq_self_iff.mp h
  refine accepted_eq_self_iff.mpr ⟨fun hus => hopen fun hts => hus ?_,
    fun t ht => hknown t (hsubset ht), hroom.mono hlength⟩
  exact List.eq_nil_of_subset_nil (hts ▸ hsubset)

theorem extend_append (s : MemoryStore) (ts us : List (Term Single)) :
    (s.extend ts).extend us = s.extend (ts ++ us) := by
  simp [extend]

theorem accepted_append : s.accepted (ts ++ us) = ts ++ us ↔
    s.accepted ts = ts ∧ (s.extend ts).accepted us = us := by
  induction ts generalizing s with
  | nil => simp [accepted, extend_nil]
  | cons t ts ih =>
    rw [List.cons_append]
    cases hinsert : s.checkInsert t with
    | error e => simp [accepted, hinsert]
    | ok _ =>
      simp only [accepted, hinsert, List.cons.injEq, true_and, ih, extend_push]

/-- Inserting one more term. -/
theorem insert_extend_eq_ok_iff (h : s.accepted ts = ts) {store : MemoryStore} :
    insert t (s.extend ts) = .ok () store ↔
      s.accepted (ts ++ [t]) = ts ++ [t] ∧ store = s.extend (ts ++ [t]) := by
  have hpush : (s.extend ts).push t = s.extend (ts ++ [t]) := by
    rw [← extend_append, ← extend_nil ((s.extend ts).push t), extend_push]
  rw [accepted_append, ← hpush]
  cases hcheck : (s.extend ts).checkInsert t with
  | error e => simp [insert_eq_error hcheck, accepted, hcheck]
  | ok _ => simp [insert_eq_ok hcheck, accepted, hcheck, h, eq_comm]

/-! ## What is refused for want of room -/

theorem checkVariables_eq_error {atoms : AtomTable} {t : Term Single} {e : Fault}
    (h : checkVariables atoms t = .error e) :
    ∃ index limit, e = .capacity .variableIndex index limit := by
  unfold checkVariables at h
  generalize t.vars = vs at h
  induction vs with
  | nil => contradiction
  | cons v vs ih =>
    change (atoms.check v >>= fun _ => vs.forM atoms.check) = .error e at h
    unfold AtomTable.check at h
    split at h
    · exact ih h
    · injection h with h
      exact ⟨_, _, h.symm⟩

/-- A term is only refused for want of room if the store is full. -/
theorem checkInsert_eq_capacity {t : Term Single} {i limit : Nat}
    (h : s.checkInsert t = .error (.capacity .term i limit)) :
    s.capacity = some limit ∧ limit ≤ s.terms.size := by
  unfold checkInsert at h
  cases hopen : s.checkOpen with
  | error e =>
    rw [hopen] at h
    injection h with h
    subst h
    unfold checkOpen at hopen
    split at hopen <;> exact nomatch hopen
  | ok _ =>
    cases hknown : checkVariables s.atoms t with
    | error e =>
      rw [hopen, hknown] at h
      injection h with h
      obtain ⟨_, _, he⟩ := checkVariables_eq_error hknown
      rw [h] at he
      exact nomatch he
    | ok _ =>
      rw [hopen, hknown] at h
      change s.checkRoom = _ at h
      unfold checkRoom at h
      split at h
      · contradiction
      · next hcapacity =>
        split at h
        · next hfull =>
          injection h with h
          injection h with _ _ hlimit
          exact ⟨hlimit ▸ hcapacity, hlimit ▸ hfull⟩
        · contradiction

theorem ground_ne_capacity {g : GroundRule Single} {i limit : Nat} :
    ground s g ≠ .error (.capacity .term i limit) := by
  intro h
  unfold ground at h
  split at h
  · exact nomatch h
  · next gen _ =>
    cases hground : gen.ground g with
    | error e =>
      rw [hground] at h
      injection h with h
      obtain ⟨what, _, _, he, hwhat⟩ := Generator.isRefusal_of_ground hground
      rw [h] at he
      injection he with he
      exact hwhat he.symm
    | ok made =>
      rw [hground] at h
      contradiction

/-! ## Ground rules in order -/

/-- A store makes the terms of all ground rules, and accepts them. -/
structure AcceptsAll (s : MemoryStore) (gs : List (GroundRule Single)) : Prop where
  grounds : ∀ g ∈ gs, ground s g = .ok g.terms
  accepted_eq : s.accepted (gs.flatMap (·.terms)) = gs.flatMap (·.terms)

theorem ground_extend (s : MemoryStore) (ts : List (Term Single)) (g : GroundRule Single) :
    ground (s.extend ts) g = ground s g := rfl

/-- Adding one ground rule. -/
theorem add_eq_ok_iff {g : GroundRule Single} {n : Nat} : add g s = .ok n s' ↔
    ground s g = .ok g.terms ∧ s.accepted g.terms = g.terms ∧ n = g.terms.length ∧
      s' = s.extend g.terms := by
  cases hground : ground s g with
  | error e => simp [add_of_ground_error hground]
  | ok ts =>
    obtain ⟨_, rfl⟩ := ground_eq_ok hground
    obtain ⟨hall, hrun⟩ | ⟨hsome, e, hrun⟩ := forM_insert_cases g.terms s
    · have hadd : add g s = .ok g.terms.length (s.extend g.terms) :=
        (add_of_ground_ok hground).trans (bind_ok hrun)
      simp [hadd, hall, eq_comm]
    · have hadd : add g s = .error e (s.extend (s.accepted g.terms)) :=
        (add_of_ground_ok hground).trans (bind_error hrun)
      simp [hadd, hsome]

theorem foldlM_add_eq_ok_iff {k n : Nat} :
    (gs.foldlM (fun n g => return n + (← add g)) k : EStateM Fault MemoryStore Nat) s =
        .ok n s' ↔
      s.AcceptsAll gs ∧ n = k + (gs.flatMap (·.terms)).length ∧
        s' = s.extend (gs.flatMap (·.terms)) := by
  induction gs generalizing s k with
  | nil =>
    have hnone : s.AcceptsAll [] := ⟨fun _ h => absurd h List.not_mem_nil, rfl⟩
    simp [hnone, extend_nil, eq_comm]
  | cons g gs ih =>
    have hcons : s.AcceptsAll (g :: gs) ↔ ground s g = .ok g.terms ∧ s.accepted g.terms = g.terms ∧
        (s.extend g.terms).AcceptsAll gs := by
      constructor
      · rintro ⟨hgrounds, haccepted⟩
        obtain ⟨hg, hgs⟩ := List.forall_mem_cons.mp hgrounds
        obtain ⟨hfirst, hrest⟩ := accepted_append.mp haccepted
        exact ⟨hg, hfirst, hgs, hrest⟩
      · rintro ⟨hg, hfirst, hgs, hrest⟩
        exact ⟨List.forall_mem_cons.mpr ⟨hg, hgs⟩, accepted_append.mpr ⟨hfirst, hrest⟩⟩
    rw [List.foldlM_cons, hcons, List.flatMap_cons, List.length_append, ← extend_append]
    constructor
    · intro h
      obtain ⟨m, u, hstart, h⟩ := bind_eq_ok h
      obtain ⟨j, u', hadd, hm⟩ := bind_eq_ok hstart
      injection hm with hm hu
      subst hm hu
      obtain ⟨hg, hfirst, rfl, rfl⟩ := add_eq_ok_iff.mp hadd
      obtain ⟨hrest, hn, hs'⟩ := ih.mp h
      exact ⟨⟨hg, hfirst, hrest⟩, by omega, hs'⟩
    · rintro ⟨⟨hg, hfirst, hrest⟩, hn, hs'⟩
      have hadd : add g s = .ok g.terms.length (s.extend g.terms) :=
        add_eq_ok_iff.mpr ⟨hg, hfirst, rfl, rfl⟩
      have hstart : (return k + (← add g) : EStateM Fault MemoryStore Nat) s =
          .ok (k + g.terms.length) (s.extend g.terms) := bind_ok hadd
      rw [bind_ok hstart]
      exact ih.mpr ⟨hrest, by omega, hs'⟩

/-- **Ground rules can be added in order** exactly if each makes its terms and all are accepted. -/
theorem addInOrder_eq_ok_iff {n : Nat} : addInOrder gs s = .ok n s' ↔
    s.AcceptsAll gs ∧ n = (gs.flatMap (·.terms)).length ∧ s' = s.extend (gs.flatMap (·.terms)) := by
  rw [addInOrder, foldlM_add_eq_ok_iff, Nat.zero_add]

end MemoryStore

end HingeLoss
