import HingeLoss.Proofs.Store.Content
import HingeLoss.Proofs.Store.Lawful

/-!
# HingeLoss.Proofs.Store.Steady

Stores that list the same terms throughout a run.

From the beginning of a run on, a store is only listed, given other values and prepared for the next
pass.  None of that adds, loses or doubles a term: whatever is shuffled, the listings that have no
failure are rearrangements of each other.  `IsSteady` says so of the states that a property marks,
and a `SteadyTermStore` has such a property for each run.

1. a store in memory keeps its terms in the order that the beginning of the run has given them;
2. a paged store has all its terms on pages and an order of all the pages when a run has begun, and
   from then on only the order and the draws change (`IsSettled`).
-/

namespace HingeLoss

/-- The states with `I` list the terms `ts` in some order, and a run does not leave them. -/
structure IsSteady {σ : Type} [TermStore σ] (I : σ → Prop) (ts : List (Term Single)) : Prop where
  perm : ∀ {s s' : σ} {us : List (Term Single)}, I s →
    TermStore.terms s = .ok (us.map .ok) s' → us.Perm ts
  keeps_terms : Preserves I TermStore.terms
  withAtoms : ∀ {s : σ} {t : AtomTable}, t.size = (TermStore.atoms s).size → I s →
    I (TermStore.withAtoms t s)
  endPass : ∀ {s : σ}, I s → I (TermStore.endPass s)

/-- A store that lists the same terms throughout a run. -/
class SteadyTermStore (σ : Type) [TermStore σ] : Prop extends LawfulTermStore σ where
  exists_isSteady : ∀ {s s₀ : σ}, TermStore.beginRun s = .ok () s₀ →
    ∃ I ts, I s₀ ∧ IsSteady I ts

/-- Listings without failures are rearrangements of each other if their terms are. -/
theorem perm_of_map_ok {us ts : List (Term Single)}
    (h : (us.map (Except.ok (ε := Fault))).Perm (ts.map .ok)) : us.Perm ts := by
  have hterms := h.filterMap Except.toOption
  simpa only [List.filterMap_map, Function.comp_def, Except.toOption, List.filterMap_some]
    using hterms

namespace MemoryStore

theorem isSteady_terms (ts : Array (Term Single)) :
    IsSteady (fun s : MemoryStore => s.terms = ts) ts.toList where
  perm {s s' us} hs hlist := by
    change listTerms s = _ at hlist
    unfold listTerms at hlist
    cases hopen : s.checkOpen with
    | error e =>
      rw [hopen] at hlist
      contradiction
    | ok _ =>
      rw [hopen, hs] at hlist
      injection hlist with hlist
      exact perm_of_map_ok (hlist ▸ List.Perm.refl _)
  keeps_terms := keeps_listTerms
  withAtoms _ hs := hs
  endPass hs := hs

instance : SteadyTermStore MemoryStore where
  exists_isSteady {_ s₀} _ := ⟨fun s => s.terms = s₀.terms, _, rfl, isSteady_terms s₀.terms⟩

end MemoryStore

namespace PagedStore

variable {s s' s₀ : PagedStore}

/-- A store in a run that has begun with `s₀`: its terms are on pages, and it has an order of all of
them. -/
structure IsSettled (s₀ s : PagedStore) : Prop where
  same : s = { s₀ with atoms := s.atoms, order := s.order, drawn := s.drawn }
  size_atoms : s.atoms.size = s₀.atoms.size
  buffered : s₀.buffered = 0
  isOrdered : s.IsOrdered
  covers : s.order.size = s₀.pages.size

namespace IsSettled

theorem pages (h : s₀.IsSettled s) : s.pages = s₀.pages := by rw [h.same]

/-- Whatever the values of the atoms are, a page is read as the same terms. -/
theorem readPage (h : s₀.IsSettled s) : s.readPage = s₀.readPage := by
  funext p
  rw [h.same]
  unfold PagedStore.readPage
  simp only [h.size_atoms]

/-- Nothing is left to prepare. -/
theorem prepare_eq (h : s₀.IsSettled s) (hopen : s.generator.isNone = false) :
    prepare s = .ok () s := by
  have hbuffered : s.buffered = 0 := by rw [h.same, h.buffered]
  have hflush : flush s = .ok () s := if_pos hbuffered
  have horder : s.refreshOrder = s := if_pos (by rw [h.covers, h.pages])
  rw [prepare_eq_ok hopen hflush, horder]

/-- Draws, an order of the same pages and other values do not matter. -/
theorem rearranged (h : s₀.IsSettled s) (hs : Rearranged s s') (hsize : s'.order.size = s.order.size) :
    s₀.IsSettled s' where
  same := by
    rw [hs.eq, h.same]
  size_atoms := by
    rw [hs.eq]
    exact h.size_atoms
  buffered := h.buffered
  isOrdered := hs.isOrdered h.isOrdered
  covers := hsize.trans h.covers

end IsSettled

/-- Pages that are listed without a failure can all be read. -/
theorem exists_readPage_of_readPages {ps : List Page} {us : List (Term Single)}
    (h : (readPages ps s).1 = us.map .ok) : ∀ p ∈ ps, ∃ ts, s.readPage p = .ok ts := by
  induction ps generalizing s us with
  | nil => exact fun _ hp => nomatch hp
  | cons p ps ih =>
    cases hpage : s.readPage p with
    | error e =>
      simp only [readPages, hpage] at h
      cases us with
      | nil => contradiction
      | cons u us =>
        injection h with h
        contradiction
    | ok ts =>
      have hread (q : Page) : (s.shuffled s.options.shufflePage ts).2.readPage q = s.readPage q := by
        rw [shuffled_snd]
        rfl
      simp only [readPages, hpage] at h
      obtain ⟨_, vs, _, _, hrest⟩ := List.map_eq_append_iff.mp h.symm
      intro q hq
      cases List.mem_cons.mp hq with
      | inl hq => exact ⟨ts, hq ▸ hpage⟩
      | inr hq =>
        rw [← hread]
        exact ih hrest.symm q hq

/-- What a settled store lists without a failure is what its pages hold. -/
theorem IsSettled.perm_listTerms (h : s₀.IsSettled s) {us : List (Term Single)}
    (hlist : listTerms s = .ok (us.map .ok) s') : us.Perm (s₀.pages.toList.flatMap s₀.termsOn) := by
  obtain ⟨_, s₁, hprepare, hlist⟩ := bind_eq_ok hlist
  have hopen : s.generator.isNone = false := by
    obtain ⟨_, s₂, hcheck, _⟩ := bind_eq_ok hprepare
    rw [checkOpen_apply] at hcheck
    split at hcheck
    · contradiction
    · next hopen => exact Bool.eq_false_iff.mpr hopen
  rw [h.prepare_eq hopen] at hprepare
  injection hprepare with _ hprepare
  subst hprepare
  injection hlist with hlist
  have hpages := h.isOrdered.perm_pages (by rw [h.covers, h.pages])
  have hperm := perm_readPages (exists_readPage_of_readPages hlist)
  have htermsOn : s.termsOn = s₀.termsOn := by
    funext p
    unfold termsOn
    rw [h.readPage]
  rw [hlist, htermsOn] at hperm
  rw [← h.pages]
  exact (perm_of_map_ok hperm).trans (hpages.flatMap_right _)

theorem IsSettled.keeps_listTerms (s₀ : PagedStore) : Preserves s₀.IsSettled listTerms := by
  intro s hs
  cases hopen : s.generator.isNone with
  | true =>
    have hprepare : prepare s = .error .storeClosed s := by
      refine bind_error ?_
      rw [checkOpen_apply, if_pos hopen]
    rw [listTerms, bind_error hprepare]
    exact ⟨trivial, hs⟩
  | false =>
    rw [listTerms, bind_ok (hs.prepare_eq hopen)]
    exact ⟨trivial, hs.rearranged (.of_drawn (readPages_snd _ s)) (by rw [readPages_snd])⟩

/-- The beginning of a run settles a store. -/
theorem isSettled_of_beginRun (h : beginRun s = .ok () s₀) : s₀.IsSettled s₀ := by
  obtain ⟨_, s₁, hmodify, h⟩ := bind_eq_ok h
  injection hmodify with _ hmodify
  subst hmodify
  obtain ⟨_, s₂, hcheck, h⟩ := bind_eq_ok h
  rw [checkOpen_apply] at hcheck
  split at hcheck
  · contradiction
  · injection hcheck with _ hcheck
    subst hcheck
    obtain ⟨_, s₃, hflush, h⟩ := bind_eq_ok h
    injection h with _ h
    subst h
    obtain ⟨hbuffered, horder⟩ := flush_eq_ok hflush
    have harranged := s₃.rearranged_refreshOrder
    refine ⟨rfl, rfl, ?_, harranged.isOrdered (.empty horder), s₃.size_refreshOrder⟩
    rw [harranged.eq]
    exact hbuffered

theorem isSteady_isSettled (s₀ : PagedStore) :
    IsSteady s₀.IsSettled (s₀.pages.toList.flatMap s₀.termsOn) where
  perm hs hlist := hs.perm_listTerms hlist
  keeps_terms := IsSettled.keeps_listTerms s₀
  withAtoms {s t} hsize hs := {
    same := by
      change ({ s with atoms := t } : PagedStore) = _
      rw [hs.same]
      rfl
    size_atoms := hsize.trans hs.size_atoms
    buffered := hs.buffered
    isOrdered := ⟨hs.isOrdered.perm, hs.isOrdered.size_le⟩
    covers := hs.covers }
  endPass {s} hs := hs.rearranged (rearranged_endPass s) (perm_shuffled _ s.order s).length_eq

instance : SteadyTermStore PagedStore where
  exists_isSteady h := ⟨_, _, isSettled_of_beginRun h, isSteady_isSettled _⟩

end PagedStore

end HingeLoss
