import HingeLoss.Proofs.Descent.Serving
import HingeLoss.Proofs.Descent.Writes
import HingeLoss.Proofs.Store.Stored

/-!
# HingeLoss.Proofs.Descent.Frame

What a run leaves alone.

A run writes values of unobserved atoms of the terms that its store lists, and what a store lists it
has stored.  So a run leaves the other values as they are, bit by bit, and with them the number, the
kinds and the initial values of the atoms; and it neither adds nor drops nor changes a term.  All of
that holds whether the run succeeds, fails or is cancelled.

1. A store in memory may reorder its terms at the beginning of a run, if it has a shuffler.
2. A paged store keeps its terms in the order in which they came in, whatever has become of its
   files; it only draws the order in which it lists them.
-/

namespace HingeLoss

/-! ## Atoms -/

namespace AtomTable

variable {t t' : AtomTable} {ts : List (Term Single)} {values : Array Single}

/-- Whether an atom has the value that it has for good: it is observed, or no term is about it. -/
def IsFixed (t : AtomTable) (ts : List (Term Single)) (v : Variable) : Prop :=
  t.isObserved? v = some true ∨ ∀ u ∈ ts, v ∉ u.vars

/-- A table that differs from another one at most in the values of unobserved atoms of terms, in
what is committed and in what is on the disk. -/
structure IsKeptBut (t : AtomTable) (ts : List (Term Single)) (t' : AtomTable) : Prop where
  size_eq : t'.size = t.size
  kinds_eq : t'.kinds = t.kinds
  initials_eq : t'.atoms.map (·.initial) = t.atoms.map (·.initial)
  value_eq : ∀ v, t.IsFixed ts v → t'.value? v = t.value? v

theorem IsFixed.ne {u : Term Single} {e : Entry Single} {v : Variable} (h : t.IsFixed ts v)
    (hu : u ∈ ts) (he : e ∈ u.entries) (hkind : t.kinds[e.var.toNat]? = some .unobserved) :
    e.var.toNat ≠ v.toNat := by
  intro heq
  obtain rfl := Variable.toNat_inj.mp heq
  cases h with
  | inl hobserved =>
    rw [kinds, Array.getElem?_map] at hkind
    unfold isObserved? at hobserved
    cases hatom : t.atoms[e.var.toNat]? with
    | none => simp [hatom] at hkind
    | some a =>
      rw [hatom] at hkind hobserved
      injection hkind with hkind
      simp [hkind, AtomKind.isObserved] at hobserved
  | inr hnone => exact hnone u hu (List.mem_map_of_mem (Array.mem_toList_iff.mpr he))

/-- The values of fixed atoms are not touched by the writes at unobserved variables of terms. -/
theorem untouched_fixed (t : AtomTable) (ts : List (Term Single)) :
    Untouched t.kinds (· ∈ ts) fun values =>
      ∀ v, t.IsFixed ts v → values[v.toNat]? = t.value? v := by
  intro u hu e he hkind values target hvalues v hv
  rw [Array.getElem?_setIfInBounds_ne (hv.ne hu he hkind)]
  exact hvalues v hv

end AtomTable

/-! ## Runs -/

namespace Descent

variable {σ : Type} [TermStore σ] [LawfulTermStore σ] {ts : List (Term Single)} {J : σ → Prop}

/-- A run from a store that lists certain terms leaves the atoms alone that these are not about. -/
theorem isKeptBut_optimize {s : σ} (hs : J s) (hbegin : Preserves J TermStore.beginRun)
    (hterms : Keeps J (fun items => ∀ t, .ok t ∈ items → t ∈ ts) (fun _ => True) TermStore.terms)
    (hatoms : ∀ {s} {t : AtomTable}, t.size = (TermStore.atoms s).size → J s →
      J (TermStore.withAtoms t s))
    (hend : ∀ {s}, J s → J (TermStore.endPass s)) (d : Descent) (cancelled : Nat → Bool) :
    J (finalState (d.optimize cancelled ⟨s, #[]⟩)).store ∧
      (TermStore.atoms s).IsKeptBut ts
        (TermStore.atoms (finalState (d.optimize cancelled ⟨s, #[]⟩)).store) := by
  have hwrites : Writes (TermStore.atoms s).stock (· ∈ ts)
      (fun values => ∀ v, (TermStore.atoms s).IsFixed ts v →
        values[v.toNat]? = (TermStore.atoms s).value? v) J := by
    refine ⟨?_, hbegin, hterms, hatoms, hend⟩
    rw [← AtomTable.kinds_eq]
    exact (TermStore.atoms s).untouched_fixed ts
  have hrun := (hwrites.keeps_optimize d cancelled).finalState (s := ⟨s, #[]⟩)
    ⟨hs, rfl, fun _ _ => rfl, fun _ h => absurd h (Array.not_mem_empty _)⟩
  refine ⟨hrun.store, ?_, ?_, ?_, hrun.values⟩
  · rw [← AtomTable.size_stock, hrun.stock_eq, AtomTable.size_stock]
  · rw [AtomTable.kinds_eq, hrun.stock_eq, ← AtomTable.kinds_eq]
  · have hinitials := congrArg (·.map (·.2)) hrun.stock_eq
    simpa [AtomTable.stock, Function.comp_def] using hinitials

end Descent

namespace MemoryStore

/-- A store with the same terms, in the same order if nothing is shuffled. -/
structure IsReordered (m m' : MemoryStore) : Prop where
  shuffler_eq : m'.shuffler = m.shuffler
  perm : m'.terms.toList.Perm m.terms.toList
  terms_eq : m.shuffler = none → m'.terms = m.terms

theorem keeps_isReordered_beginRun (m : MemoryStore) : Preserves m.IsReordered beginRun := by
  refine .of_finalState fun m' hm' => ?_
  unfold beginRun
  cases m'.checkOpen with
  | error e => exact hm'
  | ok _ =>
    cases hshuffler : m'.shuffler with
    | none => exact hm'
    | some shuffler =>
      have hsame := hshuffler.symm.trans hm'.shuffler_eq
      refine ⟨hsame, (shuffler.perm_apply 0 m'.terms).trans hm'.perm, fun hnone => ?_⟩
      rw [hnone] at hsame
      contradiction

/-- What a store lists is among its terms, in whatever order they are. -/
theorem keeps_isReordered_listTerms (m : MemoryStore) :
    Keeps m.IsReordered (fun items => ∀ t, .ok t ∈ items → t ∈ m.terms.toList) (fun _ => True)
      listTerms := by
  intro m' hm'
  obtain hlist | hlist := listTerms_cases m' <;> rw [hlist]
  · exact ⟨trivial, hm'⟩
  · refine ⟨fun t ht => hm'.perm.mem_iff.mp ?_, hm'⟩
    obtain ⟨u, hu, heq⟩ := List.mem_map.mp ht
    injection heq with heq
    exact heq ▸ hu

end MemoryStore

namespace PagedStore

/-- **The pages of a store in use are numbered from zero and its terms are counted**, whatever its
files hold. -/
theorem InUse.isTallied {s : PagedStore} (h : InUse s) : s.IsTallied := by
  have harrange (s s' : PagedStore) (harranged : Rearranged s s') (hs : s.IsTallied) :
      s'.IsTallied := hs.rearranged harranged
  induction h with
  | create hnew =>
    cases hnew with
    | create shuffler _ hcreate =>
      obtain ⟨_, _, hcreate⟩ := except_bind_eq_ok hcreate
      cases hcreate
      exact .empty rfl rfl
  | op op _ ih =>
    refine (StoreOp.keeps_run_of_writes (fun hread => ?_) keeps_isTallied_insert
      keeps_isTallied_clear fun _ => ?_).finalState ih
    · exact keeps_read hread keeps_isTallied_flush harrange
    · exact .of_finalState fun s hs => keeps_isTallied_clear.finalState (hs.congr rfl rfl rfl)
  | atoms _ _ ih => exact ih.congr rfl rfl rfl
  | optimize d cancelled passes _ ih =>
    exact (Descent.keeps_optimize (keeps_beginRun keeps_isTallied_flush harrange)
      (keeps_listTerms keeps_isTallied_flush harrange) (fun _ _ _ hs => hs.congr rfl rfl rfl)
      (fun _ => harrange _ _ (rearranged_endPass _)) d).finalState (s := ⟨_, passes⟩) ih
  | disturb _ hdisturbs ih =>
    cases hdisturbs with
    | damage => exact ih.congr rfl rfl rfl
    | giveUp count => exact (keeps_listSome keeps_isTallied_flush harrange count).finalState ih

end PagedStore

namespace Descent

/-- **A run leaves the terms and the other values alone**, whether it succeeds, fails or is
cancelled.  A store in memory has the same terms, and without a shuffler in the same order; a paged
store has the same terms stored in the same order, also when its files are damaged.  There are the
same atoms of the same kinds with the same initial values, and all observed atoms and all atoms that
no term is about have the same values as before. -/
theorem optimize_frame (d : Descent) (cancelled : Nat → Bool) :
    (∀ m m' : MemoryStore, m' = (finalState (d.optimize cancelled ⟨m, #[]⟩)).store →
      m'.terms.toList.Perm m.terms.toList ∧ (m.shuffler = none → m'.terms = m.terms) ∧
        m.atoms.IsKeptBut m.terms.toList m'.atoms) ∧
    ∀ s s' : PagedStore, PagedStore.InUse s →
      s' = (finalState (d.optimize cancelled ⟨s, #[]⟩)).store →
      s'.stored = s.stored ∧ s.atoms.IsKeptBut s.stored s'.atoms := by
  refine ⟨?_, ?_⟩
  · rintro m m' rfl
    obtain ⟨hreordered, hatoms⟩ := isKeptBut_optimize (J := m.IsReordered)
      ⟨rfl, .refl _, fun _ => rfl⟩ m.keeps_isReordered_beginRun m.keeps_isReordered_listTerms
      (fun _ hm' => ⟨hm'.shuffler_eq, hm'.perm, hm'.terms_eq⟩) (fun hm' => hm') d cancelled
    exact ⟨hreordered.perm, hreordered.terms_eq, hatoms⟩
  · rintro s s' hs rfl
    have harrange (t t' : PagedStore) (harranged : PagedStore.Rearranged t t')
        (ht : t.Stores s.stored) : t'.Stores s.stored := ht.rearranged harranged
    obtain ⟨hstores, hatoms⟩ := isKeptBut_optimize (J := (PagedStore.Stores · s.stored))
      ⟨hs.isTallied, rfl⟩
      (PagedStore.keeps_beginRun (PagedStore.keeps_stores_flush s.stored) harrange)
      (PagedStore.keeps_stores_listTerms s.stored)
      (fun hsize ht => ht.withAtoms hsize)
      (fun ht => harrange _ _ (PagedStore.rearranged_endPass _) ht) d cancelled
    exact ⟨hstores.stored_eq, hatoms⟩

/-- A run that succeeds moves the only free atom of a term, and one that fails at a damaged page
leaves the terms of the other pages stored. -/
theorem optimize_frame_spoiled :
    (∃ m', m' = (finalState (adamDescent.optimize (fun _ => false) ⟨grownStore, #[]⟩)).store ∧
      grownStore.atoms.value? ⟨0⟩ = some 1 ∧ m'.atoms.value? ⟨0⟩ = some 0 ∧
        m'.atoms.value? ⟨2⟩ = grownStore.atoms.value? ⟨2⟩ ∧ m'.terms = #[sampleTerm]) ∧
    PagedStore.InUse PagedStore.spoiledStore ∧
    succeeds (adamDescent.optimize (fun _ => false) ⟨PagedStore.spoiledStore, #[]⟩) = false ∧
    PagedStore.stored (finalState
      (adamDescent.optimize (fun _ => false) ⟨PagedStore.spoiledStore, #[]⟩)).store =
        [sampleTerm, sampleTerm] := by
  obtain ⟨hmemory, hpaged⟩ := optimize_frame adamDescent fun _ => false
  obtain ⟨_, hterms, hatoms⟩ := hmemory grownStore _ rfl
  have hstored : PagedStore.spoiledStore.stored = [sampleTerm, sampleTerm] := by decide +kernel
  refine ⟨⟨_, rfl, by decide +kernel, by decide +kernel, hatoms.value_eq ⟨2⟩ (.inr ?_), hterms rfl⟩,
    PagedStore.inUse_spoiledStore, by decide +kernel,
    (hpaged _ _ PagedStore.inUse_spoiledStore rfl).1.trans hstored⟩
  decide +kernel

end Descent

end HingeLoss
