import HingeLoss.Proofs.Descent.Agreement
import HingeLoss.Proofs.Descent.Frame
import HingeLoss.Proofs.Descent.Watching
import HingeLoss.Proofs.Scalar.Nearest

/-!
# HingeLoss.Proofs.Descent.Ending

How a run ends in which nothing fails.

It makes at least two passes and at most one more than its limit, and exactly so many if it is to
use them all.  Its watcher is told of each of them, in order, and its report has their number, the
number of the pass whose values it keeps, and the number of terms that the last pass has visited.
Hard terms are among them.

1. What a run counts in its last pass is what the store has stored, if its listing has no failures
   (`Counts`).  Both stores count so.
2. A count that is not the greatest one is far below it, so the number of the pass, which is one
   higher than the number of passes when the run ends, does not overflow.
-/

namespace HingeLoss

/-! ## Limits -/

namespace BinaryFormat

/-- Whole parts of numbers with 53 bits are multiples of `2 ^ 11` if they are not far below
`2 ^ 64`. -/
theorem wholePart_le_of_lt {m : Nat} {e : Int} (hm : m < 2 ^ 53)
    (h : m * wholePower 2 e / wholePower 2 (-e) < 2 ^ 64 - 1) :
    m * wholePower 2 e / wholePower 2 (-e) + 2048 ≤ 2 ^ 64 := by
  obtain ⟨k, rfl | rfl⟩ := e.eq_nat_or_neg
  · rw [wholePower_neg_natCast, wholePower_natCast, Nat.div_one] at h ⊢
    by_cases hk : k ≤ 10
    · have hsmall : m * 2 ^ k ≤ 2 ^ 53 * 2 ^ 10 :=
        Nat.mul_le_mul (Nat.le_of_lt hm) (Nat.pow_le_pow_right Nat.two_pos hk)
      omega
    · obtain ⟨j, rfl⟩ := Nat.exists_eq_add_of_le (show 11 ≤ k by omega)
      have hmultiple : m * 2 ^ (11 + j) = 2048 * (m * 2 ^ j) := by
        rw [Nat.pow_add, Nat.mul_left_comm]
      omega
  · have hle : m / wholePower 2 (-(-(k : Int))) ≤ m := Nat.div_le_self ..
    rw [wholePower_neg_natCast, Nat.mul_one]
    omega

end BinaryFormat

namespace Double

/-- A count that is not the greatest one is far below it. -/
theorem toCount_le_of_lt {a : Double} (h : a.toCount < maxCount) : a.toCount + 2048 ≤ 2 ^ 64 := by
  unfold toCount at h ⊢
  by_cases hnone : (a.isNaN || a.isNegative) = true
  · rw [if_pos hnone]
    omega
  by_cases hinfinite : a.isInfinite = true
  · rw [if_neg hnone, if_pos hinfinite] at h
    exact absurd h (Nat.lt_irrefl _)
  rw [if_neg hnone, if_neg hinfinite] at h ⊢
  have hlt := (min_lt_iff.mp h).resolve_right (Nat.lt_irrefl _)
  dsimp only
  rw [Nat.min_eq_left (Nat.le_of_lt hlt)]
  exact BinaryFormat.wholePart_le_of_lt (BinaryFormat.isCanonical_decode _ _).mantissa_lt hlt

end Double

/-! ## Counting -/

/-- Stores that list as many terms as they say that they have, if no failure is listed.  What a run
does to such a store leaves one. -/
structure Counts {σ : Type} [TermStore σ] (J : σ → Prop) : Prop where
  beginRun : Preserves J TermStore.beginRun
  terms : Preserves J TermStore.terms
  withAtoms : ∀ t s, t.size = (TermStore.atoms s).size → J s → J (TermStore.withAtoms t s)
  endPass : ∀ s, J s → J (TermStore.endPass s)
  length_eq : ∀ {s items t}, J s → TermStore.terms s = .ok items t → (∀ e, .error e ∉ items) →
    items.length = TermStore.size s

theorem MemoryStore.counts : Counts fun _ : MemoryStore => True where
  beginRun _ _ := by split <;> exact ⟨trivial, trivial⟩
  terms _ _ := by split <;> exact ⟨trivial, trivial⟩
  withAtoms _ _ _ _ := trivial
  endPass _ _ := trivial
  length_eq {m items _} _ hterms _ := by
    change listTerms m = _ at hterms
    obtain hlist | hlist := listTerms_cases m <;> rw [hterms] at hlist
    · contradiction
    · injection hlist with hitems
      rw [hitems, List.length_map]
      rfl

theorem PagedStore.counts : Counts PagedStore.InUse where
  beginRun := .of_finalState fun s hs => by
    rw [← finalState_map _ fun _ => StoreAnswer.done]
    exact hs.op .beginRun
  terms := .of_finalState fun s hs => by
    rw [← finalState_map _ StoreAnswer.listing]
    exact hs.op .terms
  withAtoms _ _ hsize hs := hs.atoms (Nat.le_of_eq hsize.symm)
  endPass _ hs := hs.op .endPass
  length_eq hs hterms hitems := by
    have hsteadfast := serves_isSteadfast.holds hs
    exact hs.isTallied.length_eq hsteadfast.isOrdered hsteadfast.built.isNumbered hterms hitems

namespace Descent

variable {σ : Type} [TermStore σ] {watcher : Nat → σ → σ} {d : Descent} {s : σ} {n : Nat}
  {p : Progress} {done : Bool} {r r' : Run σ} {report : Report} {J : σ → Prop}

theorem termCount_settle (h : settle n p r = .ok report r') : report.termCount = p.termCount := by
  obtain ⟨_, _, _, h⟩ := bind_eq_ok h
  obtain ⟨_, _, _, h⟩ := bind_eq_ok h
  obtain ⟨_, _, _, h⟩ := bind_eq_ok h
  obtain ⟨_, _, _, h⟩ := bind_eq_ok h
  injection h with h _
  rw [← h]

section Sized

variable [SizedTermStore σ] (size : Nat)

theorem keeps_size_terms : Preserves (fun s : σ => TermStore.size s = size) TermStore.terms :=
  .of_finalState fun s hs => (SizedTermStore.size_terms s).trans hs

/-- A run whose watcher leaves the number of terms alone does so too. -/
theorem Watched.size_eq (hwatcher : ∀ k t, TermStore.size (watcher k t) = TermStore.size t)
    (h : Watched watcher d s n p done r) : TermStore.size r.store = TermStore.size s := by
  have hbegin : Preserves (fun t : σ => TermStore.size t = TermStore.size s) TermStore.beginRun :=
    .of_finalState fun t ht => (SizedTermStore.size_beginRun t).trans ht
  exact h.keeps (J := fun t => TermStore.size t = TermStore.size s) hbegin (keeps_size_terms _)
    (fun t u _ hu => (SizedTermStore.size_withAtoms t u).trans hu)
    (fun t ht => (SizedTermStore.size_endPass t).trans ht)
    (fun k t ht => (hwatcher k t).trans ht) rfl

theorem size_settle (h : settle n p r = .ok report r') :
    TermStore.size r'.store = TermStore.size r.store :=
  ((keeps_settle (keeps_size_terms _)
    fun t u _ hu => (SizedTermStore.size_withAtoms t u).trans hu).ok rfl h).2

end Sized

/-! ## The end of a run -/

/-- How a watched run from a store ends that succeeds after `n` passes. -/
structure Ends (watcher : Nat → σ → σ) (d : Descent) (s : σ) (n : Nat) (report : Report)
    (r : Run σ) : Prop where
  run_eq : optimizeWatched watcher d (fun _ => false) ⟨s, #[]⟩ = .ok report r
  /-- With a watcher that does nothing, it is a run that no one watches. -/
  idle : (∀ k t, watcher k t = t) → optimize d (fun _ => false) ⟨s, #[]⟩ = .ok report r
  /-- The last pass has decided to end the run. -/
  decided : ∃ p u, Watched watcher d s n p true u
  two_le : 2 ≤ n
  le_max : n ≤ max 2 (d.options.iterationLimit + 1)
  full : d.options.runFullIterations = true → n = max 2 (d.options.iterationLimit + 1)
  /-- The number of the pass that would be the next one is a count. -/
  next_le : n + 1 ≤ Double.maxCount
  /-- The watcher has been told of the passes, in order. -/
  calls : r.passes.toList.map (·.iteration) = List.range' 1 n
  iterations_eq : report.iterations = n
  lowest_le : report.lowestIteration ≤ n
  /-- The last pass has visited all terms that the store had then. -/
  counted : ∃ p u, Watched watcher d s (n - 1) p false u ∧
    report.termCount = TermStore.size u.store
  termCount_eq : (∀ k t, TermStore.size (watcher k t) = TermStore.size t) →
    report.termCount = TermStore.size s ∧ TermStore.size r.store = TermStore.size s

theorem exists_ends [LawfulTermStore σ] [SizedTermStore σ] (hJ : Counts J)
    (hwatcher : ∀ k t, J t → J (watcher k t)) (hs : J s) (h : NoneFails watcher d s)
    (hlimit : d.options.iterationLimit < Double.maxCount) :
    ∃ n report r, Ends watcher d s n report r := by
  obtain ⟨n, p, u, report, r, hends, hsettle, hrun⟩ := h.exists_optimizeWatched
  obtain ⟨e, w, _, hn, _, hpasses, hbest, _⟩ := settle_evaluates hsettle
  have hle := hends.le_maxPasses
  have hlarge : d.options.iterationLimit + 2048 ≤ 2 ^ 64 := Double.toCount_le_of_lt hlimit
  have hmax : Double.maxCount = 2 ^ 64 - 1 := rfl
  have htwo := hends.two_le
  obtain ⟨m, rfl⟩ := Nat.exists_eq_add_of_le' (Nat.le_of_succ_le htwo)
  obtain ⟨q, u₀, items, t, hlast, hterms, hitems, hcount⟩ := hends.exists_listing
  have hkept : J u₀.store :=
    hlast.keeps hJ.beginRun hJ.terms hJ.withAtoms hJ.endPass hwatcher hs
  have hcounted : report.termCount = TermStore.size u₀.store := by
    rw [termCount_settle hsettle, hcount, hJ.length_eq hkept hterms hitems]
  refine ⟨m + 1, report, r, hrun, fun hidle => ?_, ⟨p, u, hends⟩, htwo, hle, hends.eq_maxPasses, ?_,
    ?_, hn, ?_, ⟨q, u₀, hlast, hcounted⟩, fun hsize => ?_⟩
  · have hnothing : watcher = fun _ t => t := funext fun k => funext fun t => hidle k t
    rw [← optimizeWatched_idle, ← hnothing]
    exact hrun
  · unfold maxPasses at hle
    omega
  · rw [hpasses]
    exact hends.calls_eq
  · have hbestLe := hends.best_le
    have hlowest : report.lowestIteration =
        (p.best.offer e.objective (m + 1) (TermStore.atoms u.store).values).iteration := by
      rw [hbest]
    rw [hlowest, Snapshot.offer]
    split
    · exact Nat.le_refl _
    · exact hbestLe
  · refine ⟨hcounted.trans (hlast.size_eq hsize), ?_⟩
    exact (size_settle hsettle).trans (hends.size_eq hsize)

/-- **How a run ends in which nothing fails.**  It succeeds after at least two passes and at most
one more than its limit, or just so many if it is to use them all.  The watcher has been told of
each pass, in order, and the report has the number of the passes, the number of the one whose values
stay, and the number of all terms, hard ones included.  This holds of all stores in memory, and of
all paged stores in use whose watcher uses them as others do. -/
theorem optimizeWatched_ends (d : Descent)
    (hlimit : d.options.iterationLimit < Double.maxCount) :
    (∀ (watcher : Nat → MemoryStore → MemoryStore) (m : MemoryStore), NoneFails watcher d m →
      ∃ n report r, Ends watcher d m n report r) ∧
    ∀ (watcher : Nat → PagedStore → PagedStore) (s : PagedStore), PagedStore.InUse s →
      (∀ k t, PagedStore.InUse t → PagedStore.InUse (watcher k t)) → NoneFails watcher d s →
      ∃ n report r, Ends watcher d s n report r := by
  refine ⟨fun watcher m h => ?_, fun watcher s hs hwatcher h => ?_⟩
  · exact exists_ends MemoryStore.counts (fun _ _ _ => trivial) trivial h hlimit
  · exact exists_ends PagedStore.counts hwatcher hs h hlimit

end Descent

/-! ## Stores that do not fail -/

/-- An open paged store on a disk that refuses nothing, whose atoms are not to be saved. -/
structure PagedStore.IsUntroubled (n : Nat) (ts : List (Term Single)) (s : PagedStore) : Prop where
  carries : s.Carries ts
  calm : s.directory.IsCalm
  size_eq : s.atoms.size = n
  place_eq : s.atoms.place = none

namespace PagedStore.IsUntroubled

variable {n : Nat} {ts : List (Term Single)} {s s' : PagedStore}

theorem rearranged (h : s.IsUntroubled n ts) (hs : Rearranged s s') : s'.IsUntroubled n ts := by
  refine ⟨h.carries.rearranged hs, ?_, ?_, ?_⟩ <;> rw [hs.eq]
  · exact h.calm
  · exact h.size_eq
  · exact h.place_eq

theorem withAtoms (h : s.IsUntroubled n ts) {table : AtomTable} (hsize : table.size = n)
    (hplace : table.place = none) : IsUntroubled n ts { s with atoms := table } :=
  ⟨h.carries.grow (Nat.le_of_eq (h.size_eq.trans hsize.symm)), h.calm, hsize, hplace⟩

theorem keeps_flush (n : Nat) (ts : List (Term Single)) : Preserves (IsUntroubled n ts) flush := by
  refine .of_finalState fun s hs => ?_
  obtain ⟨s', hflush, hcalm⟩ := flush_eq_ok_of_calm hs.calm
  have hcarries := (keeps_carries_flush ts).finalState hs.carries
  have hatoms := (keeps_atoms_flush s.atoms).finalState (s := s) rfl
  rw [hflush, finalState_ok] at hcarries hatoms ⊢
  have hsame : s'.atoms = s.atoms := hatoms
  exact ⟨hcarries, hcalm, hsame ▸ hs.size_eq, hsame ▸ hs.place_eq⟩

theorem exists_listTerms (h : s.IsUntroubled n ts) :
    ∃ items s', listTerms s = .ok items s' ∧ items.Perm (ts.map .ok) := by
  obtain ⟨t, hflush, _⟩ := flush_eq_ok_of_calm h.calm
  exact h.carries.listTerms hflush

/-- **On a disk that refuses nothing, a run does not fail.** -/
theorem storeBounds (n : Nat) (ts : List (Term Single)) :
    StoreBounds n (fun _ => False) (IsUntroubled n ts) where
  size_eq h := h.size_eq
  withAtoms _ h hsize hplace := h.withAtoms hsize (hplace.trans h.place_eq)
  beginRun := by
    refine .of_outcomes (keeps_beginRun (keeps_flush n ts) fun _ _ hs h => h.rearranged hs)
      (fun _ _ _ _ _ => trivial) fun s e s' hs hrun => ?_
    have hempty := hs.rearranged (rearranged_empty s)
    obtain ⟨t, hflush, _⟩ := flush_eq_ok_of_calm hempty.calm
    have hprepare := (hempty.carries.prepare hflush).1
    have hbegin : beginRun s = .error e s' := hrun
    exact nomatch hbegin.symm.trans hprepare
  terms := by
    refine .of_outcomes (keeps_listTerms (keeps_flush n ts) fun _ _ hs h => h.rearranged hs)
      (fun s items s' hs hlist => ?_) fun s e s' hs hlist => ?_
    · obtain ⟨items', s'', hlist', hperm⟩ := hs.exists_listTerms
      change listTerms s = _ at hlist
      rw [hlist] at hlist'
      injection hlist' with hitems
      subst hitems
      refine ⟨fun u hu => ?_, fun e he => ?_⟩
      · have hmem : u ∈ ts := by simpa using hperm.mem_iff.mp hu
        exact hs.size_eq ▸ (hs.carries.readable u hmem).isWithin
      · simpa using hperm.mem_iff.mp he
    · obtain ⟨items', s'', hlist', _⟩ := hs.exists_listTerms
      change listTerms s = _ at hlist
      rw [hlist] at hlist'
      contradiction
  endPass h := h.rearranged (rearranged_endPass _)
  sync s hs := by
    have hkeeps := AtomTable.keeps_sync (I := fun t => t.size = n ∧ t.place = none)
      (fun t ht => ⟨t.size_commit.trans ht.1, ht.2⟩) fun t p hp ht => by
        rw [ht.2] at hp
        contradiction
    unfold TermStore.sync TermStore.onAtoms
    cases hsync : AtomTable.sync (TermStore.atoms s) with
    | ok moved t =>
      have ht := (hkeeps.ok ⟨hs.size_eq, hs.place_eq⟩ hsync).2
      exact ⟨trivial, hs.withAtoms ht.1 ht.2⟩
    | error e t =>
      have hplaced := (AtomTable.sync_eq_error hsync).1
      rw [show (TermStore.atoms s).place = none from hs.place_eq] at hplaced
      contradiction

end PagedStore.IsUntroubled

/-! ### Four passes -/

/-- A hard term on both atoms of the sample, whose sum is to be at most one. -/
def limitTerm : Term Single :=
  ⟨⟨0, ⟨1⟩, "limit", .hard, .hinge⟩, .hinge, -1, #[⟨1, ⟨0⟩⟩, ⟨1, ⟨1⟩⟩]⟩

def mixedStore : MemoryStore := { terms := #[sampleTerm, limitTerm], atoms := sampleAtoms }

/-- The same terms on two pages. -/
def mixedPages : PagedStore :=
  finalState (PagedStore.insert limitTerm
    (finalState (PagedStore.insert sampleTerm PagedStore.plainStore)))

theorem inUse_mixedPages : PagedStore.InUse mixedPages := by
  have hfirst := PagedStore.inUse_plainStore.op (.insert sampleTerm)
  rw [(PagedStore.run_insert _ _).1] at hfirst
  have hsecond := hfirst.op (.insert limitTerm)
  rwa [(PagedStore.run_insert _ _).1] at hsecond

theorem isUntroubled_mixedPages : mixedPages.IsUntroubled 2 [sampleTerm, limitTerm] where
  carries := by
    have hplain : PagedStore.plainStore.Carries [] :=
      .empty rfl Nat.one_pos rfl rfl rfl rfl rfl
    exact (hplain.insert (t := sampleTerm) (by decide)).insert (t := limitTerm) (by decide)
  calm := by
    have hplain : PagedStore.plainStore.directory.IsCalm := ⟨rfl, rfl, fun _ => rfl⟩
    exact (PagedStore.insert_of_calm (PagedStore.insert_of_calm hplain sampleTerm).2 limitTerm).2
  size_eq := by decide +kernel
  place_eq := by decide +kernel

namespace Descent

/-- After each pass, the watcher of the one store takes all values back, and that of the other one
reads all terms. -/
theorem optimizeWatched_ends_mixed :
    swingDescent.options.iterationLimit < Double.maxCount ∧
    (∃ report r, optimizeWatched (fun _ m => { m with atoms := m.atoms.reset }) swingDescent
        (fun _ => false) ⟨mixedStore, #[]⟩ = .ok report r ∧
      r.passes.toList.map (·.iteration) = [1, 2, 3, 4] ∧ report.iterations = 4 ∧
      report.termCount = 2) ∧
    PagedStore.InUse mixedPages ∧
    ∃ report r, optimizeWatched (fun _ s => finalState (TermStore.terms s)) swingDescent
        (fun _ => false) ⟨mixedPages, #[]⟩ = .ok report r ∧
      r.passes.toList.map (·.iteration) = [1, 2, 3, 4] ∧ report.iterations = 4 ∧
      report.termCount = 2 := by
  have hlimit : swingDescent.options.iterationLimit = 3 := by decide +kernel
  have hcount : swingDescent.options.iterationLimit < Double.maxCount := by
    rw [hlimit]
    decide
  obtain ⟨hmemory, hpaged⟩ := optimizeWatched_ends swingDescent hcount
  refine ⟨hcount, ?_, inUse_mixedPages, ?_⟩
  · have hwithin : ∀ t ∈ mixedStore.terms, t.IsWithin 2 := by
      intro t ht
      have hreadable := isUntroubled_mixedPages.carries.readable t (Array.mem_toList_iff.mpr ht)
      exact isUntroubled_mixedPages.size_eq ▸ hreadable.isWithin
    have hready : mixedStore.IsReady 2 false := ⟨rfl, rfl, rfl, rfl, hwithin⟩
    have hreset (_ : Nat) (m : MemoryStore) (hm : m.IsReady 2 false) :
        MemoryStore.IsReady 2 false { m with atoms := m.atoms.reset } ∧ m.atoms.kinds = _ :=
      ⟨hm.withAtoms hm.size_atoms hm.place_eq, rfl⟩
    have hnone : NoneFails (fun _ m => { m with atoms := m.atoms.reset }) swingDescent mixedStore :=
      noneFails_of_bounds (MemoryStore.IsReady.storeBounds 2 false) (fun _ he => nomatch he.1)
        hreset hready _
    obtain ⟨n, report, r, hends⟩ := hmemory _ _ hnone
    have hn : n = 4 := by rw [hends.full rfl, hlimit]; rfl
    subst hn
    exact ⟨report, r, hends.run_eq, hends.calls, hends.iterations_eq,
      (hends.termCount_eq fun _ _ => rfl).1⟩
  · have hbounds := PagedStore.IsUntroubled.storeBounds 2 [sampleTerm, limitTerm]
    have hnone : NoneFails (fun _ s => finalState (TermStore.terms s)) swingDescent mixedPages :=
      noneFails_of_bounds hbounds (fun _ he => he)
        (fun _ s hs => ⟨hbounds.terms.finalState hs, by rw [LawfulTermStore.atoms_terms]⟩)
        isUntroubled_mixedPages _
    obtain ⟨n, report, r, hends⟩ := hpaged _ _ inUse_mixedPages
      (fun _ _ hs => PagedStore.counts.terms.finalState hs) hnone
    have hn : n = 4 := by rw [hends.full rfl, hlimit]; rfl
    subst hn
    have hsize : TermStore.size mixedPages = 2 := by decide +kernel
    exact ⟨report, r, hends.run_eq, hends.calls, hends.iterations_eq,
      (hends.termCount_eq fun _ s => SizedTermStore.size_terms s).1.trans hsize⟩

end Descent

end HingeLoss
