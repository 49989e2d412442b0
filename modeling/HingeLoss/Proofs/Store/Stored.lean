import HingeLoss.Proofs.Store.Content
import HingeLoss.Proofs.Store.Lawful
import HingeLoss.Proofs.Store.Reading

/-!
# HingeLoss.Proofs.Store.Stored

The terms that a paged store has stored, on any disk and whatever its files hold.

The stored terms are those that the pages are read as, in the order of the pages, and behind them
those of the open page.  A page that cannot be read as a whole stores none.

1. The pages are numbered from zero, so a flush writes a file that is none of theirs, and what it
   writes is read as what the open page was (`keeps_stores_flush`).
2. The order of the pages, the draws and the values of the atoms do not matter.
3. What is listed is stored (`mem_of_listTerms`).

Where the disk is as the store has left it, the stored terms are those that have been taken in
(`Carries.stored_eq`).
-/

namespace HingeLoss

namespace PagedStore

open Holds

variable {s s' : PagedStore} {ts : List (Term Single)} {t : Term Single} {p : Page}

/-! ## Numbers and counts -/

/-- The pages are numbered from zero, and all terms are counted. -/
structure IsTallied (s : PagedStore) : Prop where
  numbers : s.pages.toList.map (·.number) = List.range s.pages.size
  total_eq : s.total = countTerms s.pages.toList + s.buffered

theorem countTerms_append (ps qs : List Page) :
    countTerms (ps ++ qs) = countTerms ps + countTerms qs := by
  induction ps with
  | nil => simp [countTerms]
  | cons p ps ih => simp [countTerms, ih, Nat.add_assoc]

namespace IsTallied

theorem empty (hpages : s.pages = #[]) (htotal : s.total = s.buffered) : s.IsTallied where
  numbers := by rw [hpages]; rfl
  total_eq := by rw [hpages, htotal, countTerms, Nat.zero_add]

theorem number_lt (h : s.IsTallied) (hp : p ∈ s.pages.toList) : p.number < s.pages.size := by
  have hnumber := List.mem_map_of_mem (f := (·.number)) hp
  rwa [h.numbers, List.mem_range] at hnumber

/-- Directories, atoms, the generator, draws and an order of the pages do not matter. -/
theorem congr (h : s.IsTallied) (hpages : s'.pages = s.pages) (hbuffered : s'.buffered = s.buffered)
    (htotal : s'.total = s.total) : s'.IsTallied where
  numbers := by rw [hpages, h.numbers]
  total_eq := by rw [htotal, hpages, hbuffered, h.total_eq]

theorem rearranged (h : s.IsTallied) (hs : Rearranged s s') : s'.IsTallied := by
  rw [hs.eq]
  exact h.congr rfl rfl rfl

theorem withPage (h : s.IsTallied) (d : PageDirectory) : (s.withPage d).IsTallied where
  numbers := by
    simp only [PagedStore.withPage, Array.toList_push, List.map_append, h.numbers, Array.size_push,
      List.range_succ, List.map_singleton]
  total_eq := by
    simp [PagedStore.withPage, countTerms_append, countTerms, h.total_eq]

theorem append (h : s.IsTallied) (t : Term Single) : (s.append t).IsTallied where
  numbers := h.numbers
  total_eq := by
    have htotal := h.total_eq
    simp only [PagedStore.append]
    omega

end IsTallied

theorem keeps_isTallied_flush : Preserves IsTallied flush :=
  keeps_flush (fun _ d hs => hs.withPage d) fun _ _ hs => hs.congr rfl rfl rfl

theorem keeps_isTallied_insert (t : Term Single) : Preserves IsTallied (insert t) := by
  refine Keeps.of_finalState fun s hs => ?_
  rcases insert_eq s t with ⟨e, _, hinsert⟩ | ⟨_, hinsert⟩
  · rw [hinsert]
    exact hs
  · rw [hinsert]
    split
    · exact keeps_isTallied_flush.finalState (hs.append t)
    · exact hs.append t

theorem keeps_isTallied_clear : Preserves IsTallied clear := by
  refine Keeps.of_finalState fun s hs => ?_
  rw [finalState_clear]
  exact .empty rfl rfl

theorem countTerms_perm {ps qs : List Page} (h : ps.Perm qs) : countTerms ps = countTerms qs := by
  induction h with
  | nil => rfl
  | cons p _ ih => rw [countTerms, countTerms, ih]
  | swap p q ps => exact Nat.add_left_comm ..
  | trans _ _ ih₁ ih₂ => exact ih₁.trans ih₂

/-- A listing without failures lists as many terms as its pages have. -/
theorem Lists.length_eq {ps : List Page} {items : List (Except Fault (Term Single))}
    (h : s.Lists ps items) (hitems : ∀ e, .error e ∉ items) : items.length = countTerms ps := by
  induction h with
  | done => rfl
  | @page p ps ts us items hintact hperm _ ih =>
    have hrest := ih fun e he => hitems e (List.mem_append_right _ he)
    rw [List.length_append, List.length_map, hperm.length_eq, hintact.length_eq, hrest, countTerms]
  | @stop p ps e => exact absurd (List.mem_singleton.mpr rfl) (hitems e)

/-- **A listing without failures lists all terms that are counted.** -/
theorem IsTallied.length_eq {items : List (Except Fault (Term Single))} (h : s.IsTallied)
    (hordered : s.IsOrdered) (hrules : s.rules.IsNumbered) (hlist : listTerms s = .ok items s')
    (hitems : ∀ e, .error e ∉ items) : items.length = s.total := by
  obtain ⟨_, s₁, hprepare, _⟩ := bind_eq_ok hlist
  have hnumbered : s₁.rules.IsNumbered := by
    rwa [((keeps_frame_prepare s.rules s.atoms).ok ⟨rfl, rfl⟩ hprepare).2.1]
  obtain ⟨_, _, pages, heq, hpages, hlists⟩ := hordered.exists_listTerms hnumbered hprepare
  rw [hlist] at heq
  cases heq
  have htallied := ((keeps_prepare keeps_isTallied_flush fun _ _ harranged hs =>
    hs.rearranged harranged).ok h hprepare).2
  have htotal : s₁.total = s.total := ((keeps_prepare (keeps_total_flush s.total) fun _ _ =>
    total_of_rearranged _).ok rfl hprepare).2
  rw [hlists.length_eq hitems, countTerms_perm hpages, ← htotal, htallied.total_eq,
    buffered_of_prepare hprepare, Nat.add_zero]

/-! ## The stored terms -/

/-- The terms of the open page. -/
def openTerms (s : PagedStore) : List (Term Single) :=
  match readAll s.rules s.atoms.size s.buffered (.start s.buffer) with
  | .ok ts _ => ts.toList
  | .error _ _ => []

/-- The terms that a store has stored, in the order in which they came in. -/
def stored (s : PagedStore) : List (Term Single) :=
  s.pages.toList.flatMap s.termsOn ++ s.openTerms

theorem Holds.stored_eq {flushed : List (List (Term Single))} {opened : List (Term Single)}
    (h : s.Holds flushed opened)
    (hreadable : ∀ t ∈ flushed.flatten ++ opened, Readable s.rules s.atoms.size t) :
    s.stored = flushed.flatten ++ opened := by
  have hopened : s.openTerms = opened := by
    obtain ⟨r, hr⟩ := readAll_records fun t ht => hreadable t (List.mem_append_right _ ht)
    rw [openTerms, h.buffered, h.buffer, hr]
  rw [stored, hopened, h.flatMap_termsOn fun t ht => hreadable t (List.mem_append_left _ ht)]

/-- On a disk that is as the store has left it, what has been taken in is stored. -/
theorem Carries.stored_eq (h : s.Carries ts) : s.stored = ts := by
  obtain ⟨flushed, opened, hholds, rfl⟩ := h.content
  exact hholds.stored_eq h.readable

/-- A store that has stored certain terms. -/
structure Stores (s : PagedStore) (ts : List (Term Single)) : Prop where
  isTallied : s.IsTallied
  stored_eq : s.stored = ts

namespace Stores

theorem rearranged (h : s.Stores ts) (hs : Rearranged s s') : s'.Stores ts := by
  refine ⟨h.isTallied.rearranged hs, ?_⟩
  rw [← h.stored_eq, hs.eq]
  rfl

/-- The values of the atoms do not matter. -/
theorem withAtoms (h : s.Stores ts) {table : AtomTable} (hsize : table.size = s.atoms.size) :
    Stores { s with atoms := table } ts := by
  refine ⟨h.isTallied.congr rfl rfl rfl, ?_⟩
  rw [← h.stored_eq]
  unfold stored openTerms termsOn readPage
  simp only [hsize]

end Stores

/-- A page is read as what its file says, up to the values of the atoms. -/
theorem termsOn_congr (hrules : s'.rules = s.rules) (hsize : s'.atoms.size = s.atoms.size)
    (hentry : s'.directory.entry p.number = s.directory.entry p.number) :
    s'.termsOn p = s.termsOn p := by
  unfold termsOn readPage PageDirectory.read
  rw [hrules, hsize, hentry]
  cases s.directory.entry p.number <;> rfl

/-- The files of the pages are all that matters of a directory. -/
theorem IsTallied.flatMap_termsOn (h : s.IsTallied) {d : PageDirectory}
    (hd : ∀ k, k ≠ s.pages.size → d.entry k = s.directory.entry k) :
    s.pages.toList.flatMap (termsOn { s with directory := d }) =
      s.pages.toList.flatMap s.termsOn := by
  rw [List.flatMap_def, List.flatMap_def]
  refine congrArg List.flatten (List.map_congr_left fun p hp => ?_)
  exact termsOn_congr rfl rfl (hd _ (Nat.ne_of_lt (h.number_lt hp)))

/-- What a flush writes is read as what the open page was. -/
theorem termsOn_withPage {d : PageDirectory} (hfile : d.entry s.pages.size = .file s.buffer) :
    termsOn (s.withPage d) ⟨s.pages.size, s.buffered, s.buffer.size⟩ = s.openTerms := by
  have hread : (s.withPage d).directory.read s.pages.size = .ok s.buffer := by
    rw [PageDirectory.read, withPage, hfile]
  have hrules : (s.withPage d).rules = s.rules := rfl
  have hatoms : (s.withPage d).atoms = s.atoms := rfl
  unfold termsOn openTerms readPage
  simp only [hread, hrules, hatoms]
  cases readAll s.rules s.atoms.size s.buffered (.start s.buffer) <;> rfl

theorem keeps_stores_flush (ts : List (Term Single)) : Preserves (Stores · ts) flush := by
  intro s hs
  have htallied := keeps_isTallied_flush s hs.isTallied
  rcases s.flush_cases with ⟨_, hflush⟩ | ⟨_, d, hflush, hfile, hothers⟩ |
    ⟨e, d, hflush, _, hothers⟩ <;> rw [hflush] at htallied ⊢
  · exact ⟨trivial, hs⟩
  · refine ⟨trivial, htallied.2, ?_⟩
    have hpages : s.pages.toList.flatMap (termsOn (s.withPage d)) =
        s.pages.toList.flatMap s.termsOn := hs.isTallied.flatMap_termsOn hothers
    have hnext : (s.withPage d).openTerms = [] := rfl
    have hnumbers : (s.withPage d).pages.toList =
        s.pages.toList ++ [⟨s.pages.size, s.buffered, s.buffer.size⟩] := Array.toList_push ..
    rw [stored, hnext, List.append_nil, hnumbers, List.flatMap_append, List.flatMap_singleton,
      hpages, termsOn_withPage hfile, ← hs.stored_eq, stored]
  · refine ⟨trivial, htallied.2, ?_⟩
    rw [← hs.stored_eq, stored, stored]
    exact congrArg (· ++ _) (hs.isTallied.flatMap_termsOn hothers)

theorem mem_readPages {ps : List Page} (h : .ok t ∈ (readPages ps s).1) :
    ∃ p ∈ ps, t ∈ s.termsOn p := by
  induction ps generalizing s with
  | nil => contradiction
  | cons p ps ih =>
    cases hpage : s.readPage p with
    | error e =>
      simp [readPages, hpage] at h
    | ok us =>
      simp only [readPages, hpage, List.mem_append] at h
      cases h with
      | inl h =>
        obtain ⟨u, hu, heq⟩ := List.mem_map.mp h
        injection heq with heq
        refine ⟨p, List.mem_cons_self, ?_⟩
        simp only [termsOn, hpage]
        exact (perm_shuffled _ us s).mem_iff.mp (heq ▸ hu)
      | inr h =>
        obtain ⟨q, hq, ht⟩ := ih h
        refine ⟨q, List.mem_cons_of_mem p hq, ?_⟩
        rw [shuffled_snd] at ht
        exact ht

/-- What is listed is stored. -/
theorem Stores.mem_of_listTerms (h : s.Stores ts) {items : List (Except Fault (Term Single))}
    (hlist : listTerms s = .ok items s') (ht : .ok t ∈ items) : t ∈ ts := by
  obtain ⟨_, s₁, hprepare, hlist⟩ := bind_eq_ok hlist
  have hs₁ := ((keeps_prepare (keeps_stores_flush ts) fun _ _ harranged hs =>
    hs.rearranged harranged).ok h hprepare).2
  injection hlist with hlist
  obtain ⟨p, hp, ht⟩ := mem_readPages (hlist ▸ ht)
  obtain ⟨i, _, hi⟩ := List.mem_filterMap.mp hp
  rw [← hs₁.stored_eq]
  refine List.mem_append_left _ (List.mem_flatMap.mpr ⟨p, ?_, ht⟩)
  exact Array.mem_toList_iff.mpr (Array.mem_of_getElem? hi)

theorem keeps_stores_listTerms (ts : List (Term Single)) :
    Keeps (Stores · ts) (fun items => ∀ t, .ok t ∈ items → t ∈ ts) (fun _ => True) listTerms :=
  .of_outcomes
    (keeps_listTerms (keeps_stores_flush ts) fun _ _ harranged hs => hs.rearranged harranged)
    (fun _ _ _ hs hlist _ ht => hs.mem_of_listTerms hlist ht) fun _ _ _ _ _ => trivial

end PagedStore

end HingeLoss
