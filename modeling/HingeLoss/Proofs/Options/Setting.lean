import HingeLoss.Options.Descent
import HingeLoss.Proofs.Options.Words

/-!
# HingeLoss.Proofs.Options.Setting

What a list of options comes to.  Each option is seen as a field with a name: `value` looks it up,
`DescentKey.read` is what a text may put there, and two sets of options with the same fields are the
same.

1. a call that sets an option changes the field of that option only, and a call that fails or does
   not know the name changes nothing (`set_cases`, `assignsOnly_assign`);
2. after all pairs, each field has its last value or the one from before (`setAll_eq_ok_iff`);
3. the check lets options pass whose numbers are in their ranges, so none of them is no number
   (`check_eq_ok_iff_inRange`).
-/

namespace HingeLoss

/-- The value of an option of the optimizer. -/
inductive OptionValue where
  | number (x : Single)
  | count (n : Nat)
  | boolean (b : Bool)
  | schedule (s : Schedule)
  | extension (e : Extension)
deriving DecidableEq, Repr

namespace DescentKey

/-- The value that a text stands for, as the type of the option has it. -/
def read (key : DescentKey) (text : String) : Except OptionFault OptionValue :=
  match key with
  | .learningSchedule => (Options.schedule text).map .schedule
  | .extension => (Options.extension text).map .extension
  | .maxIterations | .nonconvexPeriod | .nonconvexRounds => (Options.count text).map .count
  | .watchMovement | .objectiveBreak | .runFullIterations | .coordinateStep =>
    (Options.boolean text).map .boolean
  | .learningRate | .decayExponent | .beta1 | .beta2 | .budget | .movementThreshold | .tolerance
  | .firstOrderNorm | .firstOrderThreshold => (Options.number text).map .number

theorem map_eq_ok_iff {ε α β : Type} {x : Except ε α} {f : α → β} {b : β} :
    x.map f = .ok b ↔ ∃ a, x = .ok a ∧ f a = b := by
  cases x with
  | error e => exact ⟨fun h => by contradiction, fun ⟨_, h, _⟩ => by contradiction⟩
  | ok a => exact ⟨fun h => ⟨a, rfl, Except.ok.inj h⟩, fun ⟨_, h, hb⟩ => by cases h; rw [← hb]; rfl⟩

/-- **Which texts an option is read from.**  A boolean is read from its words and a choice from its
name, between blanks and in any case; a number or a count is read from a numeral. -/
theorem read_eq_ok_iff {key : DescentKey} {text : String} {v : OptionValue} :
    key.read text = .ok v ↔ match v with
      | .number x => Options.number text = .ok x ∧
          key ∈ [learningRate, decayExponent, beta1, beta2, budget, movementThreshold, tolerance,
            firstOrderNorm, firstOrderThreshold]
      | .count n => Options.count text = .ok n ∧
          key ∈ [maxIterations, nonconvexPeriod, nonconvexRounds]
      | .boolean b => (∃ word ∈ Options.booleanWords b, Options.Spells Char.toLower text word) ∧
          key ∈ [watchMovement, objectiveBreak, runFullIterations, coordinateStep]
      | .schedule s => Options.Spells Char.toUpper text s.text ∧ key = learningSchedule
      | .extension e => Options.Spells Char.toUpper text e.text ∧ key = extension := by
  simp only [← Options.boolean_eq_ok_iff, ← Options.extension_eq_ok_iff,
    ← Options.schedule_eq_ok_iff]
  cases key <;> cases v <;> simp [read, map_eq_ok_iff]

theorem text_inj {k k' : DescentKey} (h : k.text = k'.text) : k = k' := by
  have hk := ofText?_text k
  rw [h, ofText?_text] at hk
  exact (Option.some.inj hk).symm

theorem ofText?_eq_some_iff {s : String} {k : DescentKey} : ofText? s = some k ↔ s = k.text := by
  constructor
  · intro h
    have htext : k.text = s := by simpa using List.find?_some h
    exact htext.symm
  · rintro rfl
    exact ofText?_text k

theorem ofText?_eq_none_iff {s : String} : ofText? s = none ↔ ∀ k : DescentKey, s ≠ k.text := by
  simp only [Option.eq_none_iff_forall_ne_some, ne_eq, ofText?_eq_some_iff]

end DescentKey

namespace DescentOptions

variable {o o' : DescentOptions} {key : DescentKey} {name text : String}
  {p : String × String} {pairs pairs' : List (String × String)}

/-! ## Options by name -/

/-- The value of an option. -/
def value (o : DescentOptions) : DescentKey → OptionValue
  | .learningRate => .number o.learningRate
  | .learningSchedule => .schedule o.schedule
  | .decayExponent => .number o.decayExponent
  | .extension => .extension o.extension
  | .beta1 => .number o.beta1
  | .beta2 => .number o.beta2
  | .maxIterations => .count o.maxIterations
  | .budget => .number o.budget
  | .watchMovement => .boolean o.watchMovement
  | .movementThreshold => .number o.movementThreshold
  | .objectiveBreak => .boolean o.objectiveBreak
  | .tolerance => .number o.tolerance
  | .runFullIterations => .boolean o.runFullIterations
  | .firstOrderNorm => .number o.firstOrderNorm
  | .firstOrderThreshold => .number o.firstOrderThreshold
  | .coordinateStep => .boolean o.coordinateStep
  | .nonconvexPeriod => .count o.nonconvexPeriod
  | .nonconvexRounds => .count o.nonconvexRounds

/-- Options are their values. -/
theorem eq_of_value (h : ∀ key, o.value key = o'.value key) : o = o' := by
  obtain ⟨⟩ := o
  obtain ⟨⟩ := o'
  simp only [mk.injEq]
  refine ⟨?_, ?_, ?_, ?_, ?_, ?_, ?_, ?_, ?_, ?_, ?_, ?_, ?_, ?_, ?_, ?_, ?_, ?_⟩
  · exact OptionValue.number.inj (h .learningRate)
  · exact OptionValue.schedule.inj (h .learningSchedule)
  · exact OptionValue.number.inj (h .decayExponent)
  · exact OptionValue.extension.inj (h .extension)
  · exact OptionValue.number.inj (h .beta1)
  · exact OptionValue.number.inj (h .beta2)
  · exact OptionValue.count.inj (h .maxIterations)
  · exact OptionValue.number.inj (h .budget)
  · exact OptionValue.boolean.inj (h .watchMovement)
  · exact OptionValue.number.inj (h .movementThreshold)
  · exact OptionValue.boolean.inj (h .objectiveBreak)
  · exact OptionValue.number.inj (h .tolerance)
  · exact OptionValue.boolean.inj (h .runFullIterations)
  · exact OptionValue.number.inj (h .firstOrderNorm)
  · exact OptionValue.number.inj (h .firstOrderThreshold)
  · exact OptionValue.boolean.inj (h .coordinateStep)
  · exact OptionValue.count.inj (h .nonconvexPeriod)
  · exact OptionValue.count.inj (h .nonconvexRounds)

/-- One option of `o'` has the given value, and the others are as in `o`. -/
structure IsSetTo (o : DescentOptions) (key : DescentKey) (v : OptionValue) (o' : DescentOptions) :
    Prop where
  value_self : o'.value key = v
  value_of_ne : ∀ k, k ≠ key → o'.value k = o.value k

/-- An option whose text is read first and whose field is set then. -/
private theorem read_then_put {α : Type} (read : Except OptionFault α) {wrap : α → OptionValue}
    {put : α → DescentOptions} (hput : ∀ a, o.IsSetTo key (wrap a) (put a)) :
    (∃ why, read.map wrap = .error why ∧ (do return put (← read)) = .error why) ∨
    (∃ v o', read.map wrap = .ok v ∧ (do return put (← read)) = .ok o' ∧ o.IsSetTo key v o') := by
  cases read with
  | error why => exact .inl ⟨why, rfl, rfl⟩
  | ok a => exact .inr ⟨wrap a, put a, rfl, rfl, hput a⟩

/-- Setting an option fails as reading its text does, or else puts what is read into the field of
that option. -/
theorem set_cases (o : DescentOptions) (key : DescentKey) (text : String) :
    (∃ why, key.read text = .error why ∧ o.set key text = .error why) ∨
    (∃ v o', key.read text = .ok v ∧ o.set key text = .ok o' ∧ o.IsSetTo key v o') := by
  cases key <;> simp only [set, DescentKey.read] <;> apply read_then_put <;>
    refine fun a => ⟨rfl, fun k hk => ?_⟩ <;> cases k <;> first | rfl | exact absurd rfl hk

/-- The name of a pair is unknown, or it is that of an option. -/
theorem setNamed_cases (o : DescentOptions) (name text : String) :
    ((∀ k : DescentKey, name ≠ k.text) ∧ o.setNamed name text = .ok none) ∨
    (∃ key : DescentKey, name = key.text ∧
      ((∃ why, key.read text = .error why ∧
          o.setNamed name text = .error (.descentOption key why)) ∨
        (∃ v o', key.read text = .ok v ∧ o.setNamed name text = .ok (some o') ∧
          o.IsSetTo key v o'))) := by
  cases hkey : DescentKey.ofText? name with
  | none =>
    exact .inl ⟨DescentKey.ofText?_eq_none_iff.mp hkey, by simp [setNamed, hkey]⟩
  | some key =>
    refine .inr ⟨key, DescentKey.ofText?_eq_some_iff.mp hkey, ?_⟩
    obtain ⟨why, hread, hset⟩ | ⟨v, o', hread, hset, hto⟩ := o.set_cases key text
    · exact .inl ⟨why, hread, by simp only [setNamed, hkey, hset]; rfl⟩
    · exact .inr ⟨v, o', hread, by simp only [setNamed, hkey, hset]; rfl, hto⟩

/-! ## Calls -/

/-- What a call that sets the option of a name may answer, and what it may leave behind: one that
knows the name and can read the text changes the field of that option, and any other changes
nothing. -/
def AssignsOnly (o : DescentOptions) (name text : String) :
    EStateM.Result Fault DescentOptions Bool → Prop
  | .ok true o' => ∃ (key : DescentKey) (v : OptionValue),
      name = key.text ∧ key.read text = .ok v ∧ o.IsSetTo key v o'
  | .ok false o' => (∀ key : DescentKey, name ≠ key.text) ∧ o' = o
  | .error e o' => o' = o ∧ ∃ (key : DescentKey) (why : OptionFault),
      name = key.text ∧ key.read text = .error why ∧ e = .descentOption key why

theorem assignsOnly_assign (o : DescentOptions) (name text : String) :
    AssignsOnly o name text ((assign name text).run o) := by
  obtain ⟨hunknown, h⟩ | ⟨key, hname, ⟨why, hread, h⟩ | ⟨v, o', hread, h, hto⟩⟩ :=
    o.setNamed_cases name text
  · have hrun : (assign name text).run o = .ok false o := by simp [EStateM.run, assign, h]
    rw [hrun]
    exact ⟨hunknown, rfl⟩
  · have hrun : (assign name text).run o = .error (.descentOption key why) o := by
      simp [EStateM.run, assign, h]
    rw [hrun]
    exact ⟨rfl, key, why, hname, hread, rfl⟩
  · have hrun : (assign name text).run o = .ok true o' := by simp [EStateM.run, assign, h]
    rw [hrun]
    exact ⟨key, v, hname, hread, hto⟩

theorem setAll_cons : o.setAll (p :: pairs) =
    o.setNamed p.1 p.2 >>= fun r => (r.getD o).setAll pairs := by
  simp only [setAll, List.foldlM_cons]
  cases o.setNamed p.1 p.2 <;> rfl

/-- Pairs are set by one call after the other, up to the first that fails. -/
theorem setAll_eq_ok_iff_run : o.setAll pairs = .ok o' ↔
    (forM pairs fun p => discard (assign p.1 p.2)).run o = .ok ⟨⟩ o' := by
  induction pairs generalizing o with
  | nil => simp [setAll, EStateM.run, pure, Except.pure, EStateM.pure]
  | cons p pairs ih =>
    rw [setAll_cons, List.forM_cons]
    cases h : o.setNamed p.1 p.2 with
    | error e =>
      simp [EStateM.run, bind, EStateM.bind, Except.bind, discard, Functor.mapConst, EStateM.map,
        assign, h]
    | ok r =>
      cases r <;>
        simpa [EStateM.run, bind, EStateM.bind, Except.bind, discard, Functor.mapConst,
        Functor.map, EStateM.map, assign, h] using ih

/-! ## Last values -/

/-- The text that an option is given last. -/
def lastText? (pairs : List (String × String)) (key : DescentKey) : Option String :=
  (pairs.filter (·.1 = key.text)).getLast?.map (·.2)

/-- Every text that is given to an option reads, also one that is overridden later. -/
def AllRead (pairs : List (String × String)) : Prop :=
  ∀ (key : DescentKey) (text : String), (key.text, text) ∈ pairs → ∃ v, key.read text = .ok v

/-- The options `o'` hold, for each key, its last value in the pairs, or else that of `o`. -/
structure HoldsLast (pairs : List (String × String)) (o o' : DescentOptions) : Prop where
  value_of_some : ∀ {key text}, lastText? pairs key = some text →
    key.read text = .ok (o'.value key)
  value_of_none : ∀ {key}, lastText? pairs key = none → o'.value key = o.value key

theorem lastText?_cons : lastText? (p :: pairs) key =
    (lastText? pairs key).or (if p.1 = key.text then some p.2 else none) := by
  unfold lastText?
  by_cases h : p.1 = key.text
  · rw [List.filter_cons_of_pos (by simpa using h), List.getLast?_cons]
    cases (pairs.filter (·.1 = key.text)).getLast? <;> simp [h]
  · rw [List.filter_cons_of_neg (by simpa using h)]
    simp [h]

theorem mem_of_lastText? (h : lastText? pairs key = some text) : (key.text, text) ∈ pairs := by
  obtain ⟨q, hq, rfl⟩ := Option.map_eq_some_iff.mp h
  obtain ⟨hmem, hname⟩ := List.mem_filter.mp (List.mem_of_getLast? hq)
  have hname : q.1 = key.text := by simpa using hname
  rw [← hname]
  exact hmem

/-- The options that hold the last values are determined by the pairs. -/
theorem HoldsLast.unique {o₁ o₂ : DescentOptions} (h₁ : HoldsLast pairs o o₁)
    (h₂ : HoldsLast pairs o o₂) : o₁ = o₂ := by
  refine eq_of_value fun key => ?_
  cases hlast : lastText? pairs key with
  | none => rw [h₁.value_of_none hlast, h₂.value_of_none hlast]
  | some text =>
    exact Except.ok.inj ((h₁.value_of_some hlast).symm.trans (h₂.value_of_some hlast))

/-- What the rest of the pairs holds last, the first pair of a name that is unknown put before. -/
theorem HoldsLast.cons_of_unknown (h : HoldsLast pairs o o')
    (hp : ∀ key : DescentKey, p.1 ≠ key.text) : HoldsLast (p :: pairs) o o' where
  value_of_some := fun {key text} hlast =>
    h.value_of_some (by simpa [lastText?_cons, hp key] using hlast)
  value_of_none := fun {key} hlast =>
    h.value_of_none (by simpa [lastText?_cons, hp key] using hlast)

/-- What the rest of the pairs makes of options in which the first pair has been set. -/
theorem HoldsLast.cons_of_isSetTo {o₁ : DescentOptions} {v : OptionValue}
    (h : HoldsLast pairs o₁ o') (hp : p.1 = key.text) (hread : key.read p.2 = .ok v)
    (hto : o.IsSetTo key v o₁) : HoldsLast (p :: pairs) o o' where
  value_of_some := fun {k text} hlast => by
    rw [lastText?_cons, Option.or_eq_some_iff] at hlast
    obtain hlast | ⟨hnone, hlast⟩ := hlast
    · exact h.value_of_some hlast
    · obtain ⟨hname, rfl⟩ : p.1 = k.text ∧ p.2 = text := by simpa using hlast
      obtain rfl := DescentKey.text_inj (hp.symm.trans hname)
      rw [h.value_of_none hnone, hto.value_self, hread]
  value_of_none := fun {k} hlast => by
    obtain ⟨hnone, hname⟩ : lastText? pairs k = none ∧ p.1 ≠ k.text := by
      simpa [lastText?_cons, Option.or_eq_none_iff] using hlast
    have hk : k ≠ key := fun h => hname (by rw [hp, h])
    rw [h.value_of_none hnone, hto.value_of_ne k hk]

/-- Setting all pairs leaves the last values, and has read every text. -/
theorem holdsLast_of_setAll (h : o.setAll pairs = .ok o') :
    AllRead pairs ∧ HoldsLast pairs o o' := by
  induction pairs generalizing o with
  | nil =>
    obtain rfl : o = o' := Except.ok.inj h
    exact ⟨fun _ _ hmem => absurd hmem (by simp), ⟨fun h => by simp [lastText?] at h, fun _ => rfl⟩⟩
  | cons p pairs ih =>
    rw [setAll_cons] at h
    obtain ⟨hunknown, hset⟩ | ⟨key, hname, ⟨why, hread, hset⟩ | ⟨v, o₁, hread, hset, hto⟩⟩ :=
      o.setNamed_cases p.1 p.2
    · rw [hset] at h
      obtain ⟨hreads, hlast⟩ := ih h
      refine ⟨fun key text hmem => ?_, hlast.cons_of_unknown hunknown⟩
      obtain rfl | hmem := List.mem_cons.mp hmem
      · exact absurd rfl (hunknown key)
      · exact hreads key text hmem
    · rw [hset] at h
      contradiction
    · rw [hset] at h
      obtain ⟨hreads, hlast⟩ := ih h
      refine ⟨fun k text hmem => ?_, hlast.cons_of_isSetTo hname hread hto⟩
      obtain rfl | hmem := List.mem_cons.mp hmem
      · obtain rfl := DescentKey.text_inj hname
        exact ⟨v, hread⟩
      · exact hreads k text hmem

/-- Pairs whose texts read can be set. -/
theorem exists_setAll (h : AllRead pairs) (o : DescentOptions) : ∃ o', o.setAll pairs = .ok o' := by
  induction pairs generalizing o with
  | nil => exact ⟨o, rfl⟩
  | cons p pairs ih =>
    have ih := ih fun key text hmem => h key text (List.mem_cons_of_mem p hmem)
    simp only [setAll_cons]
    obtain ⟨_, hset⟩ | ⟨key, hname, ⟨why, hread, _⟩ | ⟨v, o₁, _, hset, _⟩⟩ :=
      o.setNamed_cases p.1 p.2
    · rw [hset]
      exact ih o
    · obtain ⟨v, hv⟩ := h key p.2 (by rw [← hname]; exact List.mem_cons_self)
      rw [hread] at hv
      contradiction
    · rw [hset]
      exact ih o₁

/-- **What pairs are set to**: the last values, if every text reads. -/
theorem setAll_eq_ok_iff : o.setAll pairs = .ok o' ↔ AllRead pairs ∧ HoldsLast pairs o o' := by
  refine ⟨holdsLast_of_setAll, fun ⟨hreads, hlast⟩ => ?_⟩
  obtain ⟨o₁, h⟩ := exists_setAll hreads o
  rw [h, (holdsLast_of_setAll h).2.unique hlast]

/-- If every text reads, there are options with the last values, and no others. -/
theorem exists_holdsLast (h : AllRead pairs) (o : DescentOptions) :
    ∃ o', HoldsLast pairs o o' ∧ ∀ o₁, HoldsLast pairs o o₁ → o₁ = o' := by
  obtain ⟨o', hset⟩ := exists_setAll h o
  have hlast := (holdsLast_of_setAll hset).2
  exact ⟨o', hlast, fun o₁ hlast₁ => hlast₁.unique hlast⟩

/-- Options are made of pairs whose texts all read and whose last values pass the check. -/
theorem ofPairs_eq_ok_iff :
    ofPairs pairs = .ok o ↔ AllRead pairs ∧ HoldsLast pairs {} o ∧ o.check = .ok () := by
  have hset : ofPairs pairs = .ok o ↔ setAll {} pairs = .ok o ∧ o.check = .ok () := by
    unfold ofPairs
    cases setAll {} pairs with
    | error e => simp [bind, Except.bind]
    | ok o₁ =>
      simp only [bind, Except.bind, pure, Except.pure, Except.ok.injEq]
      constructor
      · intro h
        split at h
        · contradiction
        · next hcheck =>
          obtain rfl := Except.ok.inj h
          exact ⟨rfl, hcheck⟩
      · rintro ⟨rfl, hcheck⟩
        rw [hcheck]
  rw [hset, setAll_eq_ok_iff, and_assoc]

/-! ## Unknown names -/

theorem setAll_append : o.setAll (pairs ++ pairs') = o.setAll pairs >>= (setAll · pairs') := by
  simp only [setAll, List.foldlM_append]

/-- A pair of an unknown name can be left out. -/
theorem setAll_cons_of_unknown (h : ∀ key : DescentKey, name ≠ key.text) :
    o.setAll ((name, text) :: pairs) = o.setAll pairs := by
  rw [setAll_cons]
  simp only [setNamed, DescentKey.ofText?_eq_none_iff.mpr h]
  rfl

theorem ofPairs_of_unknown (h : ∀ key : DescentKey, name ≠ key.text) :
    ofPairs (pairs ++ (name, text) :: pairs') = ofPairs (pairs ++ pairs') := by
  simp only [ofPairs, setAll_append, setAll_cons_of_unknown h]

/-! ## Ranges -/

/-- The numbers of the options are in the ranges that are promised for them.  What is above or below
a bound is a number. -/
structure InRange (o : DescentOptions) : Prop where
  learningRate : 0 < o.learningRate ∧ o.learningRate.isFinite = true
  decayExponent : 0 < o.decayExponent
  beta1 : 0 < o.beta1 ∧ o.beta1 < 1
  beta2 : 0 < o.beta2 ∧ o.beta2 < 1
  maxIterations : 0 < o.maxIterations
  budget : 0 < o.budget ∧ o.budget ≤ 1
  movementThreshold : 0 ≤ o.movementThreshold
  tolerance : 0 ≤ o.tolerance
  firstOrderNorm : 0 ≤ o.firstOrderNorm
  firstOrderThreshold : 0 ≤ o.firstOrderThreshold
  nonconvexPeriod : 0 < o.nonconvexPeriod
  nonconvexRounds : 0 < o.nonconvexRounds

theorem check_eq_ok_iff_inRange : o.check = .ok () ↔ o.InRange := by
  rw [check_eq_ok_iff]
  constructor
  · intro h
    simp only [conditions, Requirement.holds, List.forall_mem_cons, Bool.and_eq_true,
      decide_eq_true_eq] at h
    obtain ⟨h₁, h₂, h₃, h₄, h₅, h₆, h₇, h₈, h₉, h₁₀, h₁₁, h₁₂, -⟩ := h
    exact ⟨h₁, h₂, h₃, h₄, h₅, h₆, h₇, h₈, h₉, h₁₀, h₁₁, h₁₂⟩
  · intro h
    simp only [conditions, Requirement.holds, List.forall_mem_cons, Bool.and_eq_true,
      decide_eq_true_eq]
    exact ⟨h.learningRate, h.decayExponent, h.beta1, h.beta2, h.maxIterations, h.budget,
      h.movementThreshold, h.tolerance, h.firstOrderNorm, h.firstOrderThreshold,
      h.nonconvexPeriod, h.nonconvexRounds, by simp⟩

/-- Options in their ranges hold numbers. -/
theorem InRange.isNaN_eq_false {x : Single} (h : o.InRange) (hx : o.value key = .number x) :
    x.isNaN = false := by
  cases key <;> simp only [value, reduceCtorEq, OptionValue.number.injEq] at hx <;> subst hx
  case learningRate => exact h.learningRate.1.2.1
  case decayExponent => exact h.decayExponent.2.1
  case beta1 => exact h.beta1.1.2.1
  case beta2 => exact h.beta2.1.2.1
  case budget => exact h.budget.1.2.1
  case movementThreshold => exact h.movementThreshold.2.1
  case tolerance => exact h.tolerance.2.1
  case firstOrderNorm => exact h.firstOrderNorm.2.1
  case firstOrderThreshold => exact h.firstOrderThreshold.2.1

/-! ## Pairs in another order -/

theorem lastText?_eq_some_iff (hnames : (pairs.map (·.1)).Nodup) :
    lastText? pairs key = some text ↔ (key.text, text) ∈ pairs := by
  refine ⟨mem_of_lastText?, fun hmem => ?_⟩
  induction pairs with
  | nil => contradiction
  | cons p pairs ih =>
    obtain ⟨hp, hnames⟩ := List.nodup_cons.mp hnames
    rw [lastText?_cons]
    obtain rfl | hmem := List.mem_cons.mp hmem
    · have hnone : lastText? pairs key = none := by
        cases h : lastText? pairs key with
        | none => rfl
        | some t => exact absurd (List.mem_map_of_mem (mem_of_lastText? h)) hp
      simp [hnone]
    · rw [ih hnames hmem]
      rfl

/-- Pairs of different names have the same last values in each order. -/
theorem lastText?_perm (hnames : (pairs.map (·.1)).Nodup) (hperm : pairs.Perm pairs')
    (key : DescentKey) : lastText? pairs' key = lastText? pairs key := by
  refine Option.ext fun text => ?_
  rw [lastText?_eq_some_iff hnames,
    lastText?_eq_some_iff ((hperm.map _).nodup_iff.mp hnames), hperm.mem_iff]

theorem AllRead.perm (h : AllRead pairs) (hperm : pairs.Perm pairs') : AllRead pairs' :=
  fun key text hmem => h key text (hperm.mem_iff.mpr hmem)

theorem HoldsLast.perm (h : HoldsLast pairs o o') (hnames : (pairs.map (·.1)).Nodup)
    (hperm : pairs.Perm pairs') : HoldsLast pairs' o o' where
  value_of_some := fun {key text} hlast =>
    h.value_of_some (by rw [← lastText?_perm hnames hperm, hlast])
  value_of_none := fun {key} hlast =>
    h.value_of_none (by rw [← lastText?_perm hnames hperm, hlast])

theorem ofPairs_perm (hnames : (pairs.map (·.1)).Nodup) (hperm : pairs.Perm pairs')
    (h : ofPairs pairs = .ok o) : ofPairs pairs' = .ok o := by
  obtain ⟨hreads, hlast, hcheck⟩ := ofPairs_eq_ok_iff.mp h
  exact ofPairs_eq_ok_iff.mpr ⟨hreads.perm hperm, hlast.perm hnames hperm, hcheck⟩

theorem toOption_ofPairs_perm (hnames : (pairs.map (·.1)).Nodup) (hperm : pairs.Perm pairs') :
    (ofPairs pairs').toOption = (ofPairs pairs).toOption := by
  have hnames' : (pairs'.map (·.1)).Nodup := (hperm.map _).nodup_iff.mp hnames
  cases h : ofPairs pairs with
  | ok o => rw [ofPairs_perm hnames hperm h]
  | error e =>
    cases h' : ofPairs pairs' with
    | error e' => rfl
    | ok o =>
      rw [ofPairs_perm hnames' hperm.symm h'] at h
      contradiction

/-! ## What options are made of pairs -/

/-- **Options are made of pairs field by field.**  There are options exactly if every text that is
given to an option reads, also one that is overridden, and the last values, with the defaults for
the rest, pass the check; and then the options are these.  All their numbers are in range, and none
is no number.  A pair of an unknown name can be left out, a call that sets one option changes its
field or nothing, and pairs of different names come to the same in each order. -/
theorem ofPairs_by_field (pairs : List (String × String)) :
    (∀ o, ofPairs pairs = .ok o ↔ AllRead pairs ∧ HoldsLast pairs {} o ∧ o.check = .ok ()) ∧
    (AllRead pairs → ∃ o, HoldsLast pairs {} o ∧ ∀ o', HoldsLast pairs {} o' → o' = o) ∧
    (∀ o, ofPairs pairs = .ok o →
      o.InRange ∧ ∀ key x, o.value key = .number x → x.isNaN = false) ∧
    (∀ before after name text, pairs = before ++ (name, text) :: after →
      (∀ key : DescentKey, name ≠ key.text) → ofPairs pairs = ofPairs (before ++ after)) ∧
    (∀ o name text, AssignsOnly o name text ((assign name text).run o)) ∧
    ((pairs.map (·.1)).Nodup → ∀ pairs', pairs.Perm pairs' →
      (ofPairs pairs').toOption = (ofPairs pairs).toOption) := by
  refine ⟨fun o => ofPairs_eq_ok_iff, fun hreads => exists_holdsLast hreads {},
    fun o hok => ?range, ?unknown, assignsOnly_assign,
    fun hnames _ hperm => toOption_ofPairs_perm hnames hperm⟩
  case range =>
    have hrange := check_eq_ok_iff_inRange.mp (ofPairs_eq_ok_iff.mp hok).2.2
    exact ⟨hrange, fun key x hx => hrange.isNaN_eq_false hx⟩
  case unknown =>
    rintro before after name text rfl hname
    exact ofPairs_of_unknown hname

/-- Two options and a name that belongs to someone else, in two orders. -/
theorem ofPairs_by_field_swapped :
    (ofPairs [("reasoner.budget", "0.5"), ("sgd.maxiterations", "7"), ("admm.rho", "x")]).toOption =
      some { maxIterations := 7, budget := 0.5 } := by
  have h := (ofPairs_by_field
    [("sgd.maxiterations", "7"), ("admm.rho", "x"), ("reasoner.budget", "0.5")]).2.2.2.2.2
    (by decide) [("reasoner.budget", "0.5"), ("sgd.maxiterations", "7"), ("admm.rho", "x")]
    (by decide)
  rw [h]
  decide +kernel

end DescentOptions

end HingeLoss
