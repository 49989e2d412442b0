import HingeLoss.Proofs.Descent.Slots
import HingeLoss.Proofs.Program

/-!
# HingeLoss.Proofs.Descent.Accumulating

The accumulators of adaptive steps, seen as one tally for each variable.

1. `Tally` is what one variable has accumulated, and `Tally.step` is the step of a variable that
   keeps a tally of its own; `Accumulators.tally` reads the tally of a variable out of the shared
   accumulators.
2. A step reads the tally of its own variable, and writes no other (`Accumulators.Fits.step_eq`).
3. So the steps of any calls are those of variables with tallies of their own
   (`Accumulators.steps_start`), and those of one variable do not depend on the calls for others
   (`Tally.steps_filter`).
-/

namespace HingeLoss

/-- What one variable has accumulated. -/
structure Tally where
  square : Single := 0
  mean : Single := 0
  variance : Single := 0

/-- The step of a variable that is asked for. -/
structure StepCall where
  v : Variable
  iteration : Nat
  rate : Single
  /-- The partial of the variable. -/
  p : Single

namespace Tally

/-- The step of a variable for a partial, which goes into the tally of the variable.  This is what
the steps of the accumulators are held against, so all of it is written out here. -/
def step (extension : Extension) (o : DescentOptions) (c : StepCall) (a : Tally) :
    Single × Tally :=
  match extension with
  | .none => (c.p * c.rate, a)
  | .adaGrad =>
    let square := a.square + c.p * c.p
    (c.p * c.rate / (square + 0.00000001).sqrt, { a with square })
  | .adam =>
    let t := min c.iteration 2147483647
    let mean := o.beta1 * a.mean + (1 - o.beta1) * c.p
    let variance := o.beta2 * a.variance + (1 - o.beta2) * c.p * c.p
    let root := (variance / (1 - o.beta2.powNat t)).sqrt
    (mean / (1 - o.beta1.powNat t) * c.rate / (root + 0.00000001), { a with mean, variance })

/-- The steps of calls that are made in order, when each variable has a tally of its own. -/
def steps (extension : Extension) (o : DescentOptions) :
    List StepCall → (Nat → Tally) → List Single × (Nat → Tally)
  | [], tallies => ([], tallies)
  | c :: cs, tallies =>
    let own := (tallies c.v.toNat).step extension o c
    let rest := steps extension o cs (Function.update tallies c.v.toNat own.2)
    (own.1 :: rest.1, rest.2)

/-- The steps that were asked for a variable, among the steps of all calls. -/
def stepsOf (v : Variable) (cs : List StepCall) (steps : List Single) : List Single :=
  ((cs.zip steps).filter (·.1.v = v)).map (·.2)

end Tally

namespace Accumulators

/-! ## One step -/

/-- Accumulators that have a place for each unobserved atom. -/
def Fits (kinds : Array AtomKind) : Accumulators → Prop
  | none => True
  | adaGrad slots squares =>
    slots.toList = slotsOf kinds.toList 0 ∧ squares.size = kinds.countP (!·.isObserved)
  | adam slots means variances =>
    slots.toList = slotsOf kinds.toList 0 ∧ means.size = kinds.countP (!·.isObserved) ∧
      variances.size = kinds.countP (!·.isObserved)

theorem fits_start (extension : Extension) (kinds : Array AtomKind) :
    (start extension kinds).Fits kinds := by
  cases extension with
  | none => trivial
  | adaGrad => exact ⟨rfl, Array.size_replicate⟩
  | adam => exact ⟨rfl, Array.size_replicate, Array.size_replicate⟩

def extension : Accumulators → Extension
  | none => .none
  | adaGrad _ _ => .adaGrad
  | adam _ _ _ => .adam

/-- The slot of each atom. -/
def slots : Accumulators → Array (Option Nat)
  | none => #[]
  | adaGrad slots _ | adam slots _ _ => slots

/-- What is accumulated at the slot of an atom. -/
def heldAt (slots : Array (Option Nat)) (xs : Array Single) (i : Nat) : Single :=
  (slots[i]?.join.bind (xs[·]?)).getD 0

/-- The tally of the variable of an atom. -/
def tally (i : Nat) : Accumulators → Tally
  | none => {}
  | adaGrad slots squares => { square := heldAt slots squares i }
  | adam slots means variances =>
    { mean := heldAt slots means i, variance := heldAt slots variances i }

section Slots

variable {kinds : Array AtomKind} {slots : Array (Option Nat)} {xs : Array Single} {i j : Nat}

/-- The slot of an unobserved atom is its rank. -/
theorem getElem?_slots (hslots : slots.toList = slotsOf kinds.toList 0)
    (hi : kinds[i]? = some .unobserved) : slots[i]? = some (some (rank kinds.toList i)) := by
  rw [← Array.getElem?_toList, hslots, getElem?_slotsOf, Array.getElem?_toList, hi]
  simp

theorem rank_lt_size (hsize : xs.size = kinds.countP (!·.isObserved))
    (hi : kinds[i]? = some .unobserved) : rank kinds.toList i < xs.size := by
  rw [hsize, ← Array.countP_toList]
  exact rank_lt_countP (by simpa using hi)

theorem heldAt_eq (hslots : slots.toList = slotsOf kinds.toList 0)
    (hi : kinds[i]? = some .unobserved) :
    heldAt slots xs i = xs.getD (rank kinds.toList i) 0 := by
  simp [heldAt, getElem?_slots hslots hi, Array.getD_eq_getD_getElem?]

/-- What is written at the slot of an atom is held there, and at no slot of another. -/
theorem heldAt_set (hslots : slots.toList = slotsOf kinds.toList 0)
    (hsize : xs.size = kinds.countP (!·.isObserved)) (hi : kinds[i]? = some .unobserved)
    (hj : kinds[j]? = some .unobserved) (x : Single) :
    heldAt slots (xs.setIfInBounds (rank kinds.toList j) x) i =
      if i = j then x else heldAt slots xs i := by
  have hlt := rank_lt_size hsize hj
  have hinj : rank kinds.toList i = rank kinds.toList j ↔ i = j :=
    (bijOn_rank kinds.toList).injOn.eq_iff (by simpa using hi) (by simpa using hj)
  rw [heldAt_eq hslots hi, heldAt_eq hslots hi, Array.getD_eq_getD_getElem?,
    Array.getD_eq_getD_getElem?, Array.getElem?_setIfInBounds]
  by_cases hij : i = j
  · simp [hij, hlt]
  · have hne : rank kinds.toList j ≠ rank kinds.toList i := fun h => hij (hinj.mp h.symm)
    simp [hij, hne]

theorem slotOf_eq {v : Variable} {size : Nat} (hslots : slots.toList = slotsOf kinds.toList 0)
    (hsize : size = kinds.countP (!·.isObserved)) (hv : kinds[v.toNat]? = some .unobserved) :
    slotOf slots size v = .ok (rank kinds.toList v.toNat) := by
  have hlt : rank kinds.toList v.toNat < size := by
    rw [hsize, ← Array.countP_toList]
    exact rank_lt_countP (by simpa using hv)
  simp only [slotOf, getElem?_slots hslots hv, if_pos hlt]

end Slots

/-- What a step leaves of the accumulators: the tally of one variable has become another. -/
structure Updates (kinds : Array AtomKind) (a a' : Accumulators) (i : Nat) (own : Tally) : Prop
    where
  fits : a'.Fits kinds
  extension_eq : a'.extension = a.extension
  slots_eq : a'.slots = a.slots
  tally_eq : ∀ j, kinds[j]? = some .unobserved → a'.tally j = if j = i then own else a.tally j

/-- **A step is the one of a variable with its own tally**, and the other tallies stay. -/
theorem Fits.step_eq {kinds : Array AtomKind} {a : Accumulators} (h : a.Fits kinds)
    (o : DescentOptions) {c : StepCall} (hv : kinds[c.v.toNat]? = some .unobserved) :
    ∃ a', a.step o c.iteration c.rate c.v c.p =
        .ok (((a.tally c.v.toNat).step a.extension o c).1, a') ∧
      a.Updates kinds a' c.v.toNat ((a.tally c.v.toNat).step a.extension o c).2 := by
  cases a with
  | none => exact ⟨none, rfl, trivial, rfl, rfl, fun j _ => by simp [tally, Tally.step, extension]⟩
  | adaGrad slots squares =>
    obtain ⟨hslots, hsize⟩ := h
    let sum := addSquare (heldAt slots squares c.v.toNat) c.p
    refine ⟨adaGrad slots (squares.setIfInBounds (rank kinds.toList c.v.toNat) sum), ?_,
      ⟨hslots, by simpa using hsize⟩, rfl, rfl, fun j hj => ?_⟩
    · simp only [step, slotOf_eq hslots hsize hv, extension, tally, Tally.step, sum,
        heldAt_eq hslots hv]
      rfl
    · simp only [tally, heldAt_set hslots hsize hj hv]
      split <;> rfl
  | adam slots means variances =>
    obtain ⟨hslots, hmeans, hvariances⟩ := h
    have hsize : min means.size variances.size = kinds.countP (!·.isObserved) := by omega
    let mean := decayMean o.beta1 (heldAt slots means c.v.toNat) c.p
    let variance := decayVariance o.beta2 (heldAt slots variances c.v.toNat) c.p
    refine ⟨adam slots (means.setIfInBounds (rank kinds.toList c.v.toNat) mean)
      (variances.setIfInBounds (rank kinds.toList c.v.toNat) variance), ?_,
      ⟨hslots, by simpa using hmeans, by simpa using hvariances⟩, rfl, rfl, fun j hj => ?_⟩
    · simp only [step, slotOf_eq hslots hsize hv, extension, tally, Tally.step, mean, variance,
        heldAt_eq hslots hv]
      rfl
    · simp only [tally, heldAt_set hslots hmeans hj hv, heldAt_set hslots hvariances hj hv]
      split <;> rfl

/-! ## Any number of steps -/

/-- The steps of calls that are made in order. -/
def steps (o : DescentOptions) :
    List StepCall → Accumulators → Except Fault (List Single × Accumulators)
  | [], a => .ok ([], a)
  | c :: cs, a => do
    let (s, a) ← a.step o c.iteration c.rate c.v c.p
    let (ss, a) ← steps o cs a
    return (s :: ss, a)

/-- Accumulators that hold the tallies of all variables. -/
structure Holds (kinds : Array AtomKind) (a : Accumulators) (tallies : Nat → Tally) : Prop where
  fits : a.Fits kinds
  tally_eq : ∀ i : Nat, kinds[i]? = some .unobserved → a.tally i = tallies i

variable {kinds : Array AtomKind} {a : Accumulators} {tallies : Nat → Tally} {cs : List StepCall}

/-- Adaptive accumulators have slots. -/
theorem slots_start {extension : Extension} (hadaptive : extension ≠ .none)
    (kinds : Array AtomKind) :
    (start extension kinds).slots = (slotsOf kinds.toList 0).toArray := by
  cases extension with
  | none => contradiction
  | adaGrad | adam => rfl

/-- The tallies are empty at the start. -/
theorem holds_start (extension : Extension) (kinds : Array AtomKind) :
    Holds kinds (start extension kinds) fun _ => {} := by
  refine ⟨fits_start extension kinds, fun i hi => ?_⟩
  have hzero (slots : Array (Option Nat)) (n : Nat) :
      heldAt slots (Array.replicate n (0 : Single)) i = 0 := by
    unfold heldAt
    cases slots[i]?.join <;> grind
  cases extension <;> simp [start, tally, hzero]

/-- A step leaves the tallies in which that of its variable has been replaced. -/
theorem Holds.step (h : Holds kinds a tallies) (o : DescentOptions) {c : StepCall}
    (hv : kinds[c.v.toNat]? = some .unobserved) :
    ∃ a', a.step o c.iteration c.rate c.v c.p =
        .ok (((tallies c.v.toNat).step a.extension o c).1, a') ∧
      Holds kinds a' (Function.update tallies c.v.toNat
        ((tallies c.v.toNat).step a.extension o c).2) ∧
      a'.extension = a.extension ∧ a'.slots = a.slots := by
  obtain ⟨a', hstep, hfits, hextension, hslots, htally⟩ := h.fits.step_eq o hv
  rw [h.tally_eq _ hv] at hstep htally
  refine ⟨a', hstep, ⟨hfits, fun i hi => ?_⟩, hextension, hslots⟩
  rw [htally i hi, Function.update_apply, h.tally_eq i hi]

/-- The steps of calls are those of variables that have the tallies, and what they leave holds the
tallies that these leave. -/
theorem Holds.steps (h : Holds kinds a tallies) (o : DescentOptions)
    (hcs : ∀ c ∈ cs, kinds[c.v.toNat]? = some .unobserved) :
    ∃ a', a.steps o cs = .ok ((Tally.steps a.extension o cs tallies).1, a') ∧
      Holds kinds a' (Tally.steps a.extension o cs tallies).2 ∧
      a'.extension = a.extension ∧ a'.slots = a.slots := by
  induction cs generalizing a tallies with
  | nil => exact ⟨a, rfl, h, rfl, rfl⟩
  | cons c cs ih =>
    obtain ⟨b, hstep, hb, hextension, hslots⟩ := h.step o (hcs c List.mem_cons_self)
    obtain ⟨a', hsteps, ha', hextension', hslots'⟩ :=
      ih hb fun c hc => hcs c (List.mem_cons_of_mem _ hc)
    rw [hextension] at hsteps ha'
    refine ⟨a', ?_, ha', hextension'.trans hextension, hslots'.trans hslots⟩
    simp only [Accumulators.steps, hstep, except_bind_ok, hsteps]
    rfl

end Accumulators

/-- **The steps of a variable do not depend on the calls for others**: they are those that it makes
when no other variable is asked for. -/
theorem Tally.steps_filter (extension : Extension) (o : DescentOptions) (v : Variable)
    (cs : List StepCall) {tallies tallies' : Nat → Tally}
    (h : tallies v.toNat = tallies' v.toNat) :
    stepsOf v cs (steps extension o cs tallies).1 =
      (steps extension o (cs.filter (·.v = v)) tallies').1 := by
  induction cs generalizing tallies tallies' with
  | nil => rfl
  | cons c cs ih =>
    by_cases hv : c.v = v
    · subst hv
      simpa [steps, stepsOf, h] using ih (by simp)
    · have hne : v.toNat ≠ c.v.toNat := fun heq => hv (Variable.toNat_inj.mp heq).symm
      simpa [steps, stepsOf, hv] using ih (by simpa [Function.update_of_ne hne] using h)

namespace Accumulators

/-- What numbers the unobserved atoms without gaps, and leaves out the observed ones. -/
structure Numbers (slots : Array (Option Nat)) (kinds : Array AtomKind) (slot : Nat → Nat) : Prop
    where
  size_eq : slots.size = kinds.size
  observed : ∀ i : Nat, kinds[i]? = some .observed → slots[i]? = some Option.none
  unobserved : ∀ i : Nat, kinds[i]? = some .unobserved → slots[i]? = some (some (slot i))
  bijOn : Set.BijOn slot {i | kinds[i]? = some .unobserved}
    {slot | slot < kinds.countP (!·.isObserved)}

theorem numbers_slotsOf (kinds : Array AtomKind) :
    Numbers (slotsOf kinds.toList 0).toArray kinds (rank kinds.toList) := by
  refine ⟨?_, fun i hi => ?_, fun i hi => getElem?_slots rfl hi, ?_⟩
  · simp [length_slotsOf]
  · rw [← Array.getElem?_toList, getElem?_slotsOf, Array.getElem?_toList, hi]
    simp
  · simpa [Array.getElem?_toList, Array.countP_toList] using bijOn_rank kinds.toList

/-- **Each variable accumulates on its own.**  Adaptive accumulators of a table with these kinds,
and any calls for unobserved atoms:

1. the slots number the unobserved atoms without gaps, and stay where they are;
2. all steps succeed, and they are those of variables with tallies of their own, as are the tallies
   that are left;
3. one more step is the one of the tally of its variable, and leaves the other tallies as they are;
4. the steps of a variable are those that it makes when no other is asked for. -/
theorem steps_start {kinds : Array AtomKind} {extension : Extension} (hadaptive : extension ≠ .none)
    (o : DescentOptions) {cs : List StepCall}
    (hcs : ∀ c ∈ cs, kinds[c.v.toNat]? = some .unobserved) :
    ∃ a, (start extension kinds).steps o cs = .ok ((Tally.steps extension o cs fun _ => {}).1, a) ∧
      (∃ slot, Numbers a.slots kinds slot) ∧ a.slots = (start extension kinds).slots ∧
      (∀ i : Nat, kinds[i]? = some .unobserved →
        a.tally i = (Tally.steps extension o cs fun _ => {}).2 i) ∧
      (∀ c : StepCall, kinds[c.v.toNat]? = some .unobserved →
        ∃ a', a.step o c.iteration c.rate c.v c.p =
            .ok (((a.tally c.v.toNat).step extension o c).1, a') ∧
          ∀ i : Nat, kinds[i]? = some .unobserved → a'.tally i =
            if i = c.v.toNat then ((a.tally c.v.toNat).step extension o c).2 else a.tally i) ∧
      ∀ v, ∃ b, (start extension kinds).steps o (cs.filter (·.v = v)) =
        .ok (Tally.stepsOf v cs (Tally.steps extension o cs fun _ => {}).1, b) := by
  have hstart : (start extension kinds).extension = extension := by cases extension <;> rfl
  obtain ⟨a, hsteps, ha, hextension, hslots⟩ := (holds_start extension kinds).steps o hcs
  rw [hstart] at hsteps ha hextension
  refine ⟨a, hsteps, ⟨rank kinds.toList, ?_⟩, hslots, ha.tally_eq, fun c hc => ?_, fun v => ?_⟩
  · rw [hslots, slots_start hadaptive]
    exact numbers_slotsOf kinds
  · obtain ⟨a', hstep, ha'⟩ := ha.fits.step_eq o hc
    rw [hextension] at hstep ha'
    exact ⟨a', hstep, ha'.tally_eq⟩
  · have hcs' : ∀ c ∈ cs.filter (·.v = v), kinds[c.v.toNat]? = some .unobserved :=
      fun c hc => hcs c (List.mem_filter.mp hc).1
    obtain ⟨b, hown, -⟩ := (holds_start extension kinds).steps o hcs'
    rw [hstart, ← Tally.steps_filter extension o v cs rfl] at hown
    exact ⟨b, hown⟩

/-- Two variables among observed atoms. -/
def mixedKinds : Array AtomKind := #[.observed, .unobserved, .observed, .unobserved]

/-- Two calls for one of them, with a call for the other in between. -/
def mixedCalls : List StepCall := [⟨⟨1⟩, 1, 1, 1⟩, ⟨⟨3⟩, 1, 1, 1⟩, ⟨⟨1⟩, 2, 1, 1⟩]

/-- The variables have neighbouring slots, and each has the squares of its own partials. -/
theorem steps_start_mixed : Extension.adaGrad ≠ .none ∧
    (∀ c ∈ mixedCalls, mixedKinds[c.v.toNat]? = some .unobserved) ∧
    ∃ steps a, (start .adaGrad mixedKinds).steps {} mixedCalls = .ok (steps, a) ∧
      a.slots = #[Option.none, some 0, Option.none, some 1] ∧
      (a.tally 1).square = ⟨0x40000000⟩ ∧ (a.tally 3).square = 1 := by
  have hadaptive : Extension.adaGrad ≠ .none := by decide
  have hcs : ∀ c ∈ mixedCalls, mixedKinds[c.v.toNat]? = some .unobserved := by decide
  obtain ⟨a, hsteps, -, hslots, htally, -⟩ := steps_start hadaptive {} hcs
  refine ⟨hadaptive, hcs, _, a, hsteps, hslots.trans rfl, ?_, ?_⟩
  · rw [htally 1 rfl]
    decide
  · rw [htally 3 rfl]
    decide

end Accumulators

end HingeLoss
