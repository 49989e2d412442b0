import HingeLoss.Proofs.Store.Reachable

/-!
# HingeLoss.Proofs.Store.Provenance

Which rules the terms of a paged store have.

A record has the number of its rule only, and two registries give the same numbers to different
rules.  Three facts together make the number enough:

1. a registry numbers its rules from zero, without gaps, and never moves one
   (`RuleCall.stateAfter_run`);
2. a term is refused unless its rule is the one that the registry of the store has under its number
   (`insert_of_foreign`);
3. so the number in a record is resolved to the very rule with which the term came in
   (`Reachable.keepsRules`).
-/

namespace HingeLoss

namespace PagedStore

variable {allowed : PageDirectory → Prop} {s s' : PagedStore} {l : Ledger} {t : Term Single}

/-- What has been reported as inserted has come onto a page. -/
theorem isInvariant_inserted (allowed : PageDirectory → Prop) :
    IsInvariant allowed fun _ l => l.inserted.Sublist l.taken where
  create _ _ _ := .slnil
  flush _ := Keeps.of_finalState fun _ h => h
  rearranged h _ := h
  note _ h := h
  insert {s l t} h _ := by
    change (if succeeds ((StoreOp.insert t).run s) then l.inserted ++ [t] else l.inserted).Sublist
      (s.takenAfter t l.taken)
    rw [(run_insert s t).2.2]
    rcases insert_eq s t with ⟨e, hcheck, hinsert⟩ | ⟨hcheck, -⟩
    · simpa [hinsert, takenAfter, hcheck, Except.isOk, Except.toBool, succeeds] using h
    · simp only [takenAfter, hcheck]
      split
      · exact h.append_right [t]
      · exact h.trans (List.sublist_append_left ..)
  clear _ := .slnil
  disk h _ _ := h
  grow h _ := h

/-- A store that is read has been flushed before. -/
theorem exists_flush_of_prepare (h : prepare s = .ok () s') : ∃ u, flush s = .ok () u := by
  obtain ⟨_, u, hopen, h⟩ := bind_eq_ok h
  obtain ⟨_, u', hflush, -⟩ := bind_eq_ok h
  rw [checkOpen_apply] at hopen
  split at hopen
  · contradiction
  · cases hopen
    exact ⟨u', hflush⟩

/-- A store whose terms have the rules with which they came in. -/
structure KeepsRules (s : PagedStore) (l : Ledger) : Prop where
  /-- A term that has been inserted is among those that are stored. -/
  inserted : l.inserted.Sublist l.taken
  /-- The number of its rule is resolved to the rule. -/
  resolves : ∀ t ∈ l.taken, s.rules.resolve t.rule.id = .ok t.rule
  /-- What is read from a page is what was stored. -/
  termAt : ∀ i t s', termAt i s = .ok t s' → l.taken[i]? = some t
  listTerms : ∀ items s', listTerms s = .ok items s' → items.Perm (l.taken.map .ok)

theorem Reachable.keepsRules (h : Reachable allowed s l) : s.KeepsRules l where
  inserted := (isInvariant_inserted allowed).holds h
  resolves t ht := by
    have hcarries := ((isInvariant_isSound allowed).holds h).carries
    have howns := (hcarries.readable t ht).recordable.owned
    exact Registry.resolve_eq_ok_iff.mpr (Registry.owns_iff.mp howns)
  termAt i t s' hread := by
    have hcarries := ((isInvariant_isSound allowed).holds h).carries
    obtain ⟨_, _, hprepare, -⟩ := bind_eq_ok hread
    obtain ⟨u, hflush⟩ := exists_flush_of_prepare hprepare
    obtain ⟨hprepare, hcarries, flushed, hholds, hterms⟩ := hcarries.prepare hflush
    rw [← hterms] at hcarries ⊢
    rw [hholds.termAt_eq hprepare hcarries.readable] at hread
    split at hread
    · contradiction
    · next hi =>
      cases hread
      exact hi
  listTerms items s' hread := by
    have hcarries := ((isInvariant_isSound allowed).holds h).carries
    obtain ⟨_, _, hprepare, -⟩ := bind_eq_ok hread
    obtain ⟨u, hflush⟩ := exists_flush_of_prepare hprepare
    obtain ⟨items', u', hlist, hperm⟩ := hcarries.listTerms hflush
    rw [hlist] at hread
    cases hread
    exact hperm

/-- A term of another registry is refused, whatever its number. -/
theorem insert_of_foreign (hopen : s.generator.isNone = false)
    (hrules : ∀ rule ∈ s.rules.rules, rule.registry = s.rules.origin)
    (hforeign : t.rule.registry ≠ s.rules.origin) :
    insert t s = .error (.unknownRule t.rule.id) s := by
  have howns : s.rules.owns t.rule = false := Bool.eq_false_iff.mpr fun howns =>
    hforeign (hrules _ (Array.mem_of_getElem? (Registry.owns_iff.mp howns)))
  have hcheck : s.checkInsert t = .error (.unknownRule t.rule.id) := by
    unfold checkInsert
    rw [s.closed_eq, if_neg (by simp [hopen]), if_pos howns]
    rfl
  exact insert_of_refused hcheck

end PagedStore

/-! ## Registries that calls have made -/

/-- **A rule is found under its number for good**, and so are the rules of stored terms.  Calls in
any order register rules with an empty registry, and fewer than `2 ^ 32` of them are accepted:

1. the rules are those of the accepted calls, in their order, and the first has the number zero;
2. each of them is found under its number from the call on that has made it;
3. a number that is not below that of the rules is unknown;
4. one more call adds its rule behind the others, or it is refused and changes nothing;
5. a call is accepted if its weight is hard, or finite and not negative, and so all weights are;
6. a paged store with these rules reads each term with the rule with which it came in, and refuses a
   term of another registry, whatever its number. -/
theorem RuleCall.rules_found (origin : Nat) {cs : List RuleCall}
    (hfew : (accepted cs).length < 2 ^ 32) :
    let r := Registry.ofCalls origin cs
    r.rules.toList = rules origin 0 cs ∧
      (∀ earlier, earlier <+: cs → ∀ (k : Nat) (c : RuleCall), (accepted earlier)[k]? = some c →
        (RuleId.ofNat k).toNat = k ∧ r.get? (.ofNat k) = some (c.rule origin k) ∧
          r.resolve (.ofNat k) = .ok (c.rule origin k)) ∧
      (∀ id, r.size ≤ id.toNat → r.get? id = none ∧ r.resolve id = .error (.unknownRule id)) ∧
      (∀ c : RuleCall, (Registry.acceptsWeight c.weight = true ∧
          c.run r = .ok (c.rule origin r.size)
            { r with rules := r.rules.push (c.rule origin r.size) }) ∨
        Registry.acceptsWeight c.weight = false ∧
          ∃ w, c.weight = .soft w ∧ c.run r = .error (.invalidWeight c.name w) r) ∧
      (∀ weight, Registry.acceptsWeight weight = true ↔
        weight = .hard ∨ ∃ w, weight = .soft w ∧ w.isFinite = true ∧ 0 ≤ w) ∧
      (∀ rule ∈ r.rules, Registry.acceptsWeight rule.weight = true) ∧
      ∀ allowed s l, PagedStore.Reachable allowed s l → s.rules = r → s.KeepsRules l ∧
        ∀ t, t.rule.registry ≠ origin →
          PagedStore.insert t s = .error (.unknownRule t.rule.id) s := by
  intro r
  have hsize : r.size = (accepted cs).length := Registry.size_ofCalls hfew
  have horigin : r.origin = origin := by simp only [r, Registry.ofCalls_eq hfew]
  refine ⟨by simp only [r, Registry.ofCalls_eq hfew], ?_, fun id hid => ?_, fun c => ?_,
    fun weight => Registry.acceptsWeight_iff, fun rule hrule => ?_,
    fun allowed s l hs hrules => ⟨hs.keepsRules, fun t hforeign => ?_⟩⟩
  · rintro earlier ⟨later, rfl⟩ k c hc
    have haccepted : (accepted (earlier ++ later))[k]? = some c := by
      rw [accepted, List.filter_append]
      exact (List.getElem?_append_left (List.getElem?_eq_some_iff.mp hc).1).trans hc
    have hnumber : (RuleId.ofNat k).toNat = k :=
      toNat_ofNat (Nat.lt_trans (List.getElem?_eq_some_iff.mp haccepted).1 hfew)
    have hget : r.get? (.ofNat k) = some (c.rule origin k) := by
      rw [Registry.get?_ofCalls hfew, hnumber, haccepted, Option.map_some]
    exact ⟨hnumber, hget, Registry.resolve_eq_ok_iff.mpr hget⟩
  · have hget : r.get? id = none := by
      rw [Registry.get?_ofCalls hfew, List.getElem?_eq_none (hsize ▸ hid), Option.map_none]
    exact ⟨hget, Registry.resolve_eq_error_iff.mpr hget⟩
  · cases haccepts : Registry.acceptsWeight c.weight with
    | true =>
      exact .inl ⟨rfl, horigin ▸ run_of_accepts (c := c) (r := r) (by omega) haccepts⟩
    | false => exact .inr ⟨rfl, run_of_refuses haccepts r⟩
  · obtain ⟨k, c, hc, rfl⟩ := Registry.exists_of_mem_ofCalls hfew hrule
    exact (List.mem_filter.mp hc).2
  · have hopen := ((PagedStore.isInvariant_isSound allowed).holds hs).carries.isOpen
    refine PagedStore.insert_of_foreign hopen (fun rule hrule => ?_) ?_
    · obtain ⟨k, c, -, rfl⟩ := Registry.exists_of_mem_ofCalls hfew (hrules ▸ hrule)
      rw [hrules, horigin]
      rfl
    · rwa [hrules, horigin]

/-- The calls that make the rules of the sample, with one in between that is refused. -/
def RuleCall.sample : List RuleCall :=
  [⟨"prior", .soft 1, .squaredHinge⟩, ⟨"flaw", .soft ⟨0x7fc00000⟩, .hinge⟩,
    ⟨"limit", .hard, .hinge⟩]

/-- A term of another registry whose rule has a number of the sample. -/
def foreignTerm : Term Single := { sampleTerm with rule := { sampleTerm.rule with registry := 1 } }

/-- The rule behind the one that is refused has the next number, and the term of another registry is
refused. -/
theorem RuleCall.rules_found_sample : (accepted sample).length < 2 ^ 32 ∧
    (Registry.ofCalls 0 sample).resolve ⟨1⟩ = .ok ⟨0, ⟨1⟩, "limit", .hard, .hinge⟩ ∧
    sampleRules.get? foreignTerm.rule.id = some sampleTerm.rule ∧
    PagedStore.insert foreignTerm (PagedStore.sampleStore { path := "pages" }) =
      .error (.unknownRule ⟨0⟩) (PagedStore.sampleStore { path := "pages" }) := by
  have hfew : (accepted sample).length < 2 ^ 32 := by decide
  obtain ⟨-, hfound, -, -, -, -, hstores⟩ := rules_found 0 hfew
  have hlimit := (hfound sample (List.prefix_refl _) 1 ⟨"limit", .hard, .hinge⟩ rfl).2.2
  have hreachable : PagedStore.Reachable (fun _ => True)
      (PagedStore.sampleStore { path := "pages" }) {} := PagedStore.reachable_sampleStore trivial
  obtain ⟨-, hforeign⟩ := hstores _ _ _ hreachable rfl
  exact ⟨hfew, hlimit, rfl, hforeign foreignTerm (by decide)⟩

end HingeLoss
