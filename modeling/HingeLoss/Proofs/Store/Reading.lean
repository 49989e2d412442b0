import HingeLoss.Proofs.Record.Canonical
import HingeLoss.Proofs.Store.Flushing

/-!
# HingeLoss.Proofs.Store.Reading

What a paged store reads from pages whose files may hold anything.

1. Reading that fails blames a record or the file of a page (`Fault.isReading`).
2. A page is read exactly if its file holds the records of as many terms as the page has, all of
   them readable, and nothing else; then it is read as these terms (`readPage_eq_ok_iff`).
3. A listing has the terms of one page after the other, each page in some order, up to the first
   page that is not intact.  It ends there with a failure (`Lists`).
4. When a store has been prepared, its order has every page once, so nothing but a page that is not
   intact comes between a listing and all the pages.
-/

namespace HingeLoss

/-- Whether a fault is one of those that the reading of a page ends with. -/
def Fault.isReading : Fault → Bool
  | corruptRecord _ _ | unknownRule _ | file (.openPage _) | file (.mapPage _) => true
  | _ => false

/-! ## Readings that fail -/

theorem isReading_of_resolve {rules : Registry} {id : RuleId} {e : Fault}
    (h : rules.resolve id = .error e) : e.isReading = true := by
  unfold Registry.resolve at h
  split at h
  · contradiction
  · cases h
    rfl

namespace Record

/-- A reading that fails blames a record. -/
abbrev Blames {α : Type} (x : ReadM α) : Prop :=
  Keeps (fun _ => True) (fun _ => True) (fun e : Fault => e.isReading = true) x

theorem blames_position : Blames position := Keeps.get.bind fun _ _ => Keeps.pure trivial

theorem blames_getBytes (n : Nat) : Blames (getBytes n) := by
  rintro ⟨bytes, position, hle⟩ _
  by_cases hfits : n ≤ bytes.size - position
  · simp only [getBytes, dif_pos hfits]
    exact ⟨trivial, trivial⟩
  · simp only [getBytes, dif_neg hfits]
    exact ⟨rfl, trivial⟩

theorem blames_getNumber (w : Nat) : Blames (getNumber w) :=
  (blames_getBytes w).bind fun _ _ => Keeps.pure trivial

theorem blames_getByte : Blames getByte := (blames_getNumber 1).bind fun _ _ => Keeps.pure trivial

theorem blames_getShort : Blames getShort := (blames_getNumber 2).bind fun _ _ => Keeps.pure trivial

theorem blames_getWord : Blames getWord := (blames_getNumber 4).bind fun _ _ => Keeps.pure trivial

theorem blames_getSigned : Blames getSigned := blames_getWord.bind fun _ _ => Keeps.pure trivial

theorem blames_getSingle : Blames getSingle := blames_getWord.bind fun _ _ => Keeps.pure trivial

theorem blames_getFlag : Blames getFlag := by
  refine blames_position.bind fun offset _ => blames_getByte.bind fun b _ => ?_
  split
  · exact Keeps.pure trivial
  · exact Keeps.pure trivial
  · exact Keeps.throw rfl

theorem blames_getHeader (rules : Registry) : Blames (getHeader rules) := by
  refine blames_position.bind fun start _ => blames_getFlag.bind fun squared _ => ?_
  refine blames_getFlag.bind fun hinge _ => blames_getWord.bind fun word _ => ?_
  dsimp only
  cases hresolve : rules.resolve ⟨word⟩ with
  | error e =>
    have he := isReading_of_resolve hresolve
    exact Keeps.bind (Q := fun _ => False) (Keeps.throw he) fun _ hnever => hnever.elim
  | ok rule =>
    refine Keeps.bind (Q := fun _ => True) (Keeps.pure trivial) fun rule _ => ?_
    refine blames_getSingle.bind fun constant _ => blames_getShort.bind fun short _ => ?_
    split
    · exact Keeps.throw rfl
    · refine Keeps.get.bind fun r _ => ?_
      split
      · exact Keeps.throw rfl
      · exact Keeps.pure trivial

theorem blames_getEntries (n : Nat) (acc : Array (Entry Single)) : Blames (getEntries n acc) := by
  induction n generalizing acc with
  | zero => exact Keeps.pure trivial
  | succ n ih =>
    refine blames_getSingle.bind fun coefficient _ => blames_position.bind fun offset _ => ?_
    refine blames_getSigned.bind fun raw _ => ?_
    split
    · exact ih _
    · exact Keeps.throw rfl

theorem blames_decode (rules : Registry) : Blames (Term.decode rules) :=
  (blames_getHeader rules).bind fun h _ =>
    (blames_getEntries h.size _).bind fun _ _ => Keeps.pure trivial

end Record

/-- A term without a variable at or past a bound is within it. -/
theorem Term.isWithin_of_pastBound? {t : Term Single} {bound : Nat}
    (h : t.pastBound? bound = none) : t.IsWithin bound := by
  intro e he
  rw [pastBound?, Option.map_eq_none_iff, Array.find?_eq_none] at h
  have := h e (Array.mem_toList_iff.mp he)
  simpa using this

namespace PagedStore

open Record

/-! ## The records of a page -/

section Records

variable {rules : Registry} {bound n : Nat}

theorem blames_readTerm (rules : Registry) (bound : Nat) : Blames (readTerm rules bound) := by
  refine blames_position.bind fun start _ => (blames_decode rules).bind fun t _ => ?_
  split
  · exact Keeps.throw rfl
  · exact Keeps.pure trivial

theorem blames_readTerms (rules : Registry) (bound n : Nat) (acc : Array (Term Single)) :
    Blames (readTerms rules bound n acc) := by
  induction n generalizing acc with
  | zero => exact Keeps.pure trivial
  | succ n ih => exact (blames_readTerm rules bound).bind fun _ _ => ih _

theorem blames_readAll (rules : Registry) (bound n : Nat) : Blames (readAll rules bound n) := by
  refine (blames_readTerms rules bound n #[]).bind fun ts _ => Keeps.get.bind fun r _ => ?_
  split
  · exact Keeps.throw rfl
  · exact Keeps.pure trivial

/-- What a term of a page has been read from is its record. -/
theorem took_readTerm (hrules : rules.IsNumbered) {r r' : Reader} {t : Term Single}
    (h : readTerm rules bound r = .ok t r') : Took r r' t.record ∧ Readable rules bound t := by
  obtain ⟨start, r₁, hposition, h⟩ := bind_eq_ok h
  cases hposition
  obtain ⟨u, r₂, hdecode, h⟩ := bind_eq_ok h
  obtain ⟨htook, hrecordable⟩ := took_decode hrules hdecode
  cases hpast : u.pastBound? bound with
  | some v =>
    simp only [hpast] at h
    contradiction
  | none =>
    simp only [hpast] at h
    cases h
    exact ⟨htook, hrecordable, Term.isWithin_of_pastBound? hpast⟩

theorem took_readTerms (hrules : rules.IsNumbered) {acc us : Array (Term Single)} {r r' : Reader}
    (h : readTerms rules bound n acc r = .ok us r') :
    ∃ ts : List (Term Single), us = acc ++ ts.toArray ∧ ts.length = n ∧ Took r r' (records ts) ∧
      ∀ t ∈ ts, Readable rules bound t := by
  induction n generalizing acc r with
  | zero =>
    cases h
    exact ⟨[], by simp, rfl, ⟨rfl, rfl⟩, by simp⟩
  | succ n ih =>
    obtain ⟨t, r₁, hread, h⟩ := bind_eq_ok h
    obtain ⟨htook, hreadable⟩ := took_readTerm hrules hread
    obtain ⟨ts, hus, hlength, htooks, hall⟩ := ih h
    refine ⟨t :: ts, by rw [hus]; simp, by rw [List.length_cons, hlength], htook.trans htooks, ?_⟩
    intro u hu
    cases List.mem_cons.mp hu with
    | inl hu => exact hu ▸ hreadable
    | inr hu => exact hall u hu

/-- **The bytes of a page are read exactly if they are the records of its terms**, as many as the
page has, all of them readable, with nothing behind them. -/
theorem readAll_eq_ok_iff (hrules : rules.IsNumbered) {bytes : Array UInt8}
    {ts : Array (Term Single)} :
    (∃ r, readAll rules bound n (.start bytes) = .ok ts r) ↔
      bytes.toList = records ts.toList ∧ ts.size = n ∧ ∀ t ∈ ts.toList, Readable rules bound t := by
  constructor
  · rintro ⟨r, h⟩
    obtain ⟨_, _, hread, h⟩ := bind_eq_ok h
    obtain ⟨_, _, hget, h⟩ := bind_eq_ok h
    cases hget
    split at h
    · contradiction
    · next hend =>
      cases h
      obtain ⟨us, hus, hlength, htook, hall⟩ := took_readTerms hrules hread
      have hempty : r.rest = [] := by
        rw [← List.length_eq_zero_iff, length_rest]
        simpa [Reader.atEnd] using hend
      have hbytes := htook.rest_eq
      rw [hempty, List.append_nil] at hbytes
      have hts : ts.toList = us := by simp [hus]
      rw [hts, ← Array.length_toList, hts]
      exact ⟨hbytes, hlength, hall⟩
  · rintro ⟨hbytes, rfl, hall⟩
    obtain ⟨r, hr⟩ := readAll_records hall
    rw [← hbytes] at hr
    exact ⟨r, by simpa using hr⟩

end Records

/-! ## Pages -/

variable {s s' : PagedStore} {p : Page} {ts : List (Term Single)}

/-- A page whose file holds the records of its terms, all of them readable, and nothing else. -/
structure IsIntact (s : PagedStore) (p : Page) (ts : List (Term Single)) : Prop where
  file : s.directory.entry p.number = .file (records ts).toArray
  length_eq : ts.length = p.terms
  readable : ∀ t ∈ ts, Readable s.rules s.atoms.size t

/-- **A page is read as a whole or not at all**: exactly if it is intact. -/
theorem readPage_eq_ok_iff (hrules : s.rules.IsNumbered) :
    s.readPage p = .ok ts.toArray ↔ s.IsIntact p ts := by
  constructor
  · intro h
    unfold readPage PageDirectory.read at h
    cases hentry : s.directory.entry p.number with
    | absent =>
      rw [hentry] at h
      contradiction
    | directory =>
      rw [hentry] at h
      contradiction
    | file bytes =>
      rw [hentry] at h
      cases hread : readAll s.rules s.atoms.size p.terms (.start bytes) with
      | error e r =>
        simp only [hread] at h
        contradiction
      | ok us r =>
        simp only [hread] at h
        cases h
        obtain ⟨hbytes, hsize, hall⟩ := (readAll_eq_ok_iff hrules).mp ⟨r, hread⟩
        refine ⟨?_, hsize, hall⟩
        rw [hentry, ← hbytes]
  · intro h
    have hread : ∃ r, readAll s.rules s.atoms.size p.terms (.start (records ts).toArray) =
        .ok ts.toArray r := (readAll_eq_ok_iff hrules).mpr ⟨rfl, h.length_eq, h.readable⟩
    obtain ⟨r, hread⟩ := hread
    simp only [readPage, PageDirectory.read, h.file, hread]

/-- A page that is not read is to blame, or its file is. -/
theorem isReading_of_readPage {e : Fault} (h : s.readPage p = .error e) : e.isReading = true := by
  unfold readPage PageDirectory.read at h
  cases hentry : s.directory.entry p.number with
  | absent =>
    rw [hentry] at h
    cases h
    rfl
  | directory =>
    rw [hentry] at h
    cases h
    rfl
  | file bytes =>
    rw [hentry] at h
    have hblames := blames_readAll s.rules s.atoms.size p.terms (.start bytes) trivial
    cases hread : readAll s.rules s.atoms.size p.terms (.start bytes) with
    | error f r =>
      simp only [hread] at h hblames
      cases h
      exact hblames.1
    | ok us r =>
      simp only [hread] at h
      contradiction

/-- What an optimizer relies on when a term has been read: its rule is registered, it is not too
long, and its variables are atoms. -/
structure IsUsable (s : PagedStore) (t : Term Single) : Prop where
  rule_mem : t.rule ∈ s.rules.rules
  size_le : t.size ≤ 32767
  var_lt : ∀ v ∈ t.vars, v.toNat < s.atoms.size

theorem Readable.isUsable (hrules : s.rules.IsNumbered) {t : Term Single}
    (h : Readable s.rules s.atoms.size t) : s.IsUsable t where
  rule_mem := (hrules.get?_eq_some_iff.mp (Registry.owns_iff.mp h.recordable.owned)).1
  size_le := h.recordable.size_le
  var_lt v hv := by
    obtain ⟨e, he, rfl⟩ := List.mem_map.mp hv
    exact h.isWithin e he

/-! ## Listings -/

/-- What pages are listed as: the terms of each page in some order, up to the first page that is not
intact. -/
inductive Lists (s : PagedStore) : List Page → List (Except Fault (Term Single)) → Prop
  | done : Lists s [] []
  | page {p : Page} {ps : List Page} {ts us : List (Term Single)}
      {items : List (Except Fault (Term Single))} (intact : s.IsIntact p ts) (perm : us.Perm ts)
      (rest : Lists s ps items) : Lists s (p :: ps) (us.map .ok ++ items)
  | stop {p : Page} {ps : List Page} {e : Fault} (broken : ∀ ts, ¬ s.IsIntact p ts)
      (blames : e.isReading = true) : Lists s (p :: ps) [.error e]

/-- Pages are listed so by every store that reads them alike. -/
theorem lists_readPages (hrules : s.rules.IsNumbered) (hread : s'.readPage = s.readPage)
    (ps : List Page) : s.Lists ps (readPages ps s').1 := by
  induction ps generalizing s' with
  | nil => exact .done
  | cons p ps ih =>
    unfold readPages
    rw [hread]
    cases hpage : s.readPage p with
    | error e =>
      refine .stop (fun ts hintact => ?_) (isReading_of_readPage hpage)
      rw [(readPage_eq_ok_iff hrules).mpr hintact] at hpage
      contradiction
    | ok ts =>
      have hintact : s.IsIntact p ts.toList := (readPage_eq_ok_iff hrules).mp hpage
      -- the pages behind this one are read by a store that has drawn once more
      have hrest : (s'.shuffled s'.options.shufflePage ts).2.readPage = s.readPage := by
        rw [shuffled_snd]
        exact hread
      exact .page hintact (perm_shuffled _ ts s') (ih hrest)

namespace Lists

variable {ps : List Page} {items : List (Except Fault (Term Single))}

/-- A listing is a list of terms, with at most one failure behind them. -/
theorem exists_terms (h : s.Lists ps items) : ∃ ts : List (Term Single),
    items = ts.map .ok ∨ ∃ e, e.isReading = true ∧ items = ts.map .ok ++ [.error e] := by
  induction h with
  | done => exact ⟨[], .inl rfl⟩
  | @page p ps ts us items _ _ _ ih =>
    obtain ⟨vs, hitems | ⟨e, he, hitems⟩⟩ := ih
    · exact ⟨us ++ vs, .inl (by rw [hitems, List.map_append])⟩
    · exact ⟨us ++ vs, .inr ⟨e, he, by rw [hitems, List.map_append, List.append_assoc]⟩⟩
  | @stop p ps e _ blames => exact ⟨[], .inr ⟨e, blames, rfl⟩⟩

/-- What a listing ends with blames the reading of a page. -/
theorem isReading (h : s.Lists ps items) {e : Fault} (he : .error e ∈ items) :
    e.isReading = true := by
  induction h with
  | done => contradiction
  | @page p ps ts us items _ _ _ ih =>
    have hrest : .error e ∈ items := by simpa using he
    exact ih hrest
  | stop _ blames =>
    cases List.mem_singleton.mp he
    exact blames

/-- Each term that is listed is on an intact page. -/
theorem exists_isIntact (h : s.Lists ps items) {t : Term Single} (ht : .ok t ∈ items) :
    ∃ p ∈ ps, ∃ ts, s.IsIntact p ts ∧ t ∈ ts := by
  induction h with
  | done => contradiction
  | @page p ps ts us items intact perm _ ih =>
    cases List.mem_append.mp ht with
    | inl ht =>
      have hmem : t ∈ us := by simpa using ht
      exact ⟨p, List.mem_cons_self, ts, intact, perm.mem_iff.mp hmem⟩
    | inr ht =>
      obtain ⟨q, hq, hrest⟩ := ih ht
      exact ⟨q, List.mem_cons_of_mem p hq, hrest⟩
  | stop _ _ => cases List.mem_singleton.mp ht

end Lists

/-! ## Prepared stores -/

theorem keeps_isOrdered_flush : Preserves IsOrdered flush := by
  refine keeps_flush (fun s d hs => ⟨hs.perm, ?_⟩) fun s d hs => ⟨hs.perm, hs.size_le⟩
  simp only [withPage, Array.size_push]
  exact Nat.le_succ_of_le hs.size_le

/-- A flush and a new order of the pages change neither the registry nor the atoms. -/
theorem keeps_frame_prepare (rules : Registry) (atoms : AtomTable) :
    Preserves (fun s => s.rules = rules ∧ s.atoms = atoms) prepare := by
  refine keeps_prepare (keeps_flush (fun _ _ hs => hs) fun _ _ hs => hs) fun s s' harranged hs => ?_
  rw [harranged.eq]
  exact hs

/-- A store that cannot be prepared is closed, or its open page cannot be flushed. -/
theorem prepare_error {e : Fault} (h : prepare s = .error e s') :
    e = .storeClosed ∨ e.isFlush = true := by
  obtain hcheck | ⟨_, s₁, _, h⟩ := bind_eq_error h
  · rw [checkOpen_apply] at hcheck
    split at hcheck
    · cases hcheck
      exact .inl rfl
    · contradiction
  · obtain hflush | ⟨_, s₂, _, h⟩ := bind_eq_error h
    · rcases s₁.flush_cases with ⟨_, heq⟩ | ⟨_, d, heq, _⟩ | ⟨f, d, heq, hf, _⟩ <;>
        rw [hflush] at heq
      · contradiction
      · contradiction
      · cases heq
        exact .inr hf
    · contradiction

/-- A store that has been prepared has nothing on its open page. -/
theorem buffered_of_prepare (hprepare : prepare s = .ok () s') : s'.buffered = 0 := by
  obtain ⟨_, s₁, _, hprepare⟩ := bind_eq_ok hprepare
  obtain ⟨_, s₂, hflush, hprepare⟩ := bind_eq_ok hprepare
  cases hprepare
  rw [s₂.rearranged_refreshOrder.eq]
  exact (flush_eq_ok hflush).1

/-- A store that has been prepared has an order of all its pages. -/
theorem IsOrdered.perm_of_prepare (h : s.IsOrdered) (hprepare : prepare s = .ok () s') :
    (s'.order.toList.filterMap fun i => s'.pages[i]?).Perm s'.pages.toList := by
  have hordered := ((keeps_prepare keeps_isOrdered_flush fun _ _ => Rearranged.isOrdered).ok h
    hprepare).2
  obtain ⟨_, s₁, _, hprepare⟩ := bind_eq_ok hprepare
  obtain ⟨_, s₂, _, hprepare⟩ := bind_eq_ok hprepare
  cases hprepare
  exact hordered.perm_pages s₂.size_refreshOrder

/-- A store that has been prepared lists all its pages. -/
theorem IsOrdered.exists_listTerms (h : s.IsOrdered) (hrules : s'.rules.IsNumbered)
    (hprepare : prepare s = .ok () s') : ∃ items s'', ∃ pages : List Page,
      listTerms s = .ok items s'' ∧ pages.Perm s'.pages.toList ∧ s'.Lists pages items :=
  ⟨_, _, _, (bind_ok hprepare).trans (modifyGet_apply _ _), h.perm_of_prepare hprepare,
    lists_readPages hrules rfl _⟩

theorem IsOrdered.exists_listSome (h : s.IsOrdered) (hrules : s'.rules.IsNumbered)
    (hprepare : prepare s = .ok () s') (count : Nat) : ∃ items s'', ∃ pages : List Page,
      listSome count s = .ok items s'' ∧ pages.Perm s'.pages.toList ∧
        s'.Lists (pages.take count) items :=
  ⟨_, _, _, (bind_ok hprepare).trans (modifyGet_apply _ _), h.perm_of_prepare hprepare,
    lists_readPages hrules rfl _⟩

/-- A position that is located is on one of the pages. -/
theorem mem_of_locate {ps : List Page} {i j : Nat} (h : locate ps i = some (p, j)) :
    p ∈ ps ∧ j < p.terms := by
  induction ps generalizing i with
  | nil => contradiction
  | cons q ps ih =>
    unfold locate at h
    split at h
    · next hlt =>
      cases h
      exact ⟨List.mem_cons_self, hlt⟩
    · exact (ih h).imp_left (List.mem_cons_of_mem q)

/-- A term that is found at a position is on an intact page. -/
theorem termAt_cases (hrules : s'.rules.IsNumbered) (hprepare : prepare s = .ok () s') (i : Nat) :
    (∃ t, termAt i s = .ok t s' ∧ ∃ p ∈ s'.pages.toList, ∃ ts, s'.IsIntact p ts ∧ t ∈ ts) ∨
      ∃ e, termAt i s = .error e s' := by
  unfold termAt
  rw [bind_ok hprepare, bind_ok (get_apply s')]
  cases hlocate : locate s'.pages.toList i with
  | none =>
    exact .inr ⟨_, rfl⟩
  | some found =>
    obtain ⟨p, j⟩ := found
    obtain ⟨hp, hj⟩ := mem_of_locate hlocate
    cases hpage : s'.readPage p with
    | error e =>
      simp only [hpage]
      exact .inr ⟨e, rfl⟩
    | ok ts =>
      have hintact : s'.IsIntact p ts.toList := (readPage_eq_ok_iff hrules).mp hpage
      have hlt : j < ts.size := by
        rw [← Array.length_toList, hintact.length_eq]
        exact hj
      simp only [hpage, Array.getElem?_eq_getElem hlt]
      exact .inl ⟨ts[j], rfl, p, hp, ts.toList, hintact, Array.getElem_mem_toList hlt⟩

end PagedStore

end HingeLoss
