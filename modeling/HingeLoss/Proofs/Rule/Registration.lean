import Mathlib.Algebra.Ring.Nat
import HingeLoss.Proofs.Program
import HingeLoss.Rule.Registry

/-!
# HingeLoss.Proofs.Rule.Registration

What registration makes of a registry.

1. The rules of a registry stand at the positions that their ids name, whatever has been registered
   and even when ids have started over, so a registry has a rule under an id exactly if the rule is
   one of its rules and has that id (`IsNumbered.get?_eq_some_iff`), and two of its rules count as
   equal only if they are the same (`IsNumbered.beq_iff_eq`).
2. As long as there are ids left, each call that is accepted adds a rule behind the others, and no
   rule is ever moved; so calls in order make the rules of those that are accepted, in that order
   (`RuleCall.stateAfter_run`).
-/

namespace HingeLoss

namespace Registry

/-- A registry that registration has made: it was empty once, and then rules were accepted.  A call
that is refused returns no registry and leaves the old one. -/
inductive IsBuilt : Registry → Prop where
  | empty (origin : Nat) : IsBuilt { origin }
  | register {r r' : Registry} {name : String} {weight : Weight Single} {potential : Potential}
      {rule : Rule Single} (built : IsBuilt r)
      (accepted : r.register name weight potential = .ok (rule, r')) : IsBuilt r'

/-- Every rule stands at the position that its id names. -/
def IsNumbered (r : Registry) : Prop :=
  ∀ (i : Nat) (rule : Rule Single), r.rules[i]? = some rule → rule.id.toNat = i

/-- A rule that is accepted gets the next id, and is put in its place. -/
theorem register_eq_ok {r r' : Registry} {name : String} {weight : Weight Single}
    {potential : Potential} {rule : Rule Single}
    (h : r.register name weight potential = .ok (rule, r')) :
    rule = ⟨r.origin, .ofNat r.size, name, weight, potential⟩ ∧ r' = r.put rule := by
  cases weight with
  | hard =>
    cases h
    exact ⟨rfl, rfl⟩
  | soft w =>
    simp only [register] at h
    split at h
    · cases h
      exact ⟨rfl, rfl⟩
    · contradiction

/-- A rule may be put under the id of another one, or under the id that comes next. -/
theorem IsNumbered.put {r : Registry} (h : r.IsNumbered) {rule : Rule Single}
    (hid : rule.id.toNat ≤ r.size) : (r.put rule).IsNumbered := by
  intro i other hother
  by_cases hlt : rule.id.toNat < r.size
  · simp only [Registry.put, if_pos hlt] at hother
    rw [Array.getElem?_setIfInBounds] at hother
    split at hother
    · next heq =>
      split at hother
      · cases hother
        exact heq
      · contradiction
    · exact h i other hother
  · simp only [Registry.put, if_neg hlt] at hother
    simp only [size] at hid hlt
    rw [Array.getElem?_push] at hother
    split at hother
    · next heq =>
      cases hother
      omega
    · exact h i other hother

/-- The number that comes next is an id, or else ids start over. -/
theorem toNat_ofNat_le (n : Nat) : (RuleId.ofNat n).toNat ≤ n := by
  simp only [RuleId.ofNat, RuleId.toNat, UInt32.toNat_ofNat']
  exact Nat.mod_le n _

theorem IsBuilt.isNumbered {r : Registry} (h : r.IsBuilt) : r.IsNumbered := by
  induction h with
  | empty origin =>
    intro i rule hrule
    simp at hrule
  | register _ accepted ih =>
    obtain ⟨rfl, rfl⟩ := register_eq_ok accepted
    exact ih.put (toNat_ofNat_le _)

theorem resolve_eq_ok_iff {r : Registry} {id : RuleId} {rule : Rule Single} :
    r.resolve id = .ok rule ↔ r.get? id = some rule := by
  unfold resolve
  cases r.get? id <;> simp

theorem owns_iff {r : Registry} {rule : Rule Single} :
    r.owns rule = true ↔ r.get? rule.id = some rule := by
  simp only [owns, decide_eq_true_eq]

/-- A numbered registry finds under an id the rule of that id. -/
theorem IsNumbered.get?_eq_some_iff {r : Registry} (h : r.IsNumbered) {id : RuleId}
    {rule : Rule Single} : r.get? id = some rule ↔ rule ∈ r.rules ∧ rule.id = id := by
  constructor
  · intro hget
    have hid : rule.id.toNat = id.toNat := h _ _ hget
    have hnumber : rule.id.number = id.number := UInt32.toNat_inj.mp hid
    exact ⟨Array.mem_of_getElem? hget, congrArg RuleId.mk hnumber⟩
  · rintro ⟨hmem, rfl⟩
    obtain ⟨i, hi⟩ := Array.mem_iff_getElem?.mp hmem
    have hid : rule.id.toNat = i := h _ _ hi
    rw [get?, hid, hi]

/-- Rules of one numbered registry are the same if they count as equal. -/
theorem IsNumbered.beq_iff_eq {r : Registry} (h : r.IsNumbered) {rule rule' : Rule Single}
    (hrule : rule ∈ r.rules) (hrule' : rule' ∈ r.rules) :
    (rule == rule') = true ↔ rule = rule' := by
  rw [Rule.beq_iff]
  constructor
  · intro hid
    have hget := h.get?_eq_some_iff.mpr ⟨hrule, hid⟩
    rw [h.get?_eq_some_iff.mpr ⟨hrule', rfl⟩] at hget
    exact (Option.some.inj hget).symm
  · rintro rfl
    rfl

end Registry

/-! ## Calls -/

theorem Single.not_lt_zero_iff {w : Single} (hfinite : w.isFinite = true) : ¬ w < 0 ↔ 0 ≤ w := by
  have hnumber : w.isNaN = false := by
    simp only [isFinite, isNaN, decide_eq_true_eq, decide_eq_false_iff_not] at hfinite ⊢
    grind
  have hzero : (0 : Single).isNaN = false := by decide
  simp only [LT.lt, LE.le, hnumber, hzero, true_and]
  exact Int.not_lt

/-- Which weights a rule can have. -/
theorem Registry.acceptsWeight_iff {weight : Weight Single} :
    acceptsWeight weight = true ↔
      weight = .hard ∨ ∃ w, weight = .soft w ∧ w.isFinite = true ∧ 0 ≤ w := by
  cases weight with
  | hard => simp [acceptsWeight]
  | soft w =>
    simp only [acceptsWeight, Bool.and_eq_true, Bool.not_eq_true', decide_eq_false_iff_not,
      reduceCtorEq, false_or, Weight.soft.injEq, exists_eq_left']
    exact and_congr_right Single.not_lt_zero_iff

/-- What a rule is registered with. -/
structure RuleCall where
  name : String
  weight : Weight Single
  potential : Potential

namespace RuleCall

/-- Registers a rule; the registry is as before if the weight is refused. -/
def run (c : RuleCall) : EStateM Fault Registry (Rule Single) := fun r =>
  match r.register c.name c.weight c.potential with
  | .ok (rule, r) => .ok rule r
  | .error e => .error e r

/-- The rule that a call makes when so many have been accepted before. -/
def rule (c : RuleCall) (origin count : Nat) : Rule Single :=
  ⟨origin, .ofNat count, c.name, c.weight, c.potential⟩

/-- The calls that are accepted. -/
def accepted (cs : List RuleCall) : List RuleCall :=
  cs.filter fun c => Registry.acceptsWeight c.weight

/-- The rules that calls make, the first of which has this number. -/
def rules (origin first : Nat) (cs : List RuleCall) : List (Rule Single) :=
  (accepted cs).mapIdx fun k c => c.rule origin (first + k)

variable {c : RuleCall} {cs : List RuleCall} {r : Registry}

theorem toNat_ofNat {n : Nat} (h : n < 2 ^ 32) : (RuleId.ofNat n).toNat = n :=
  UInt32.toNat_ofNat_of_lt' h

/-- A call that is accepted puts its rule behind the others. -/
theorem run_of_accepts (hroom : r.size < 2 ^ 32) (h : Registry.acceptsWeight c.weight = true) :
    c.run r = .ok (c.rule r.origin r.size)
      { r with rules := r.rules.push (c.rule r.origin r.size) } := by
  have hput : r.put (c.rule r.origin r.size) =
      { r with rules := r.rules.push (c.rule r.origin r.size) } := by
    simp [Registry.put, rule, toNat_ofNat hroom]
  rw [← hput]
  obtain ⟨name, weight, potential⟩ := c
  cases weight with
  | hard => rfl
  | soft w =>
    simp only [run, Registry.register, if_pos h]
    rfl

/-- A call that is refused leaves the registry as it is. -/
theorem run_of_refuses (h : Registry.acceptsWeight c.weight = false) (r : Registry) :
    ∃ w, c.weight = .soft w ∧ c.run r = .error (.invalidWeight c.name w) r := by
  obtain ⟨name, weight, potential⟩ := c
  cases weight with
  | hard => contradiction
  | soft w => exact ⟨w, rfl, by simp [run, Registry.register, h]⟩

/-- **Calls in order make the rules of those that are accepted, in that order.** -/
theorem stateAfter_run (hroom : r.size + (accepted cs).length ≤ 2 ^ 32) :
    stateAfter run cs r = { r with rules := r.rules ++ (rules r.origin r.size cs).toArray } := by
  induction cs generalizing r with
  | nil => simp [rules, accepted]
  | cons c cs ih =>
    rw [stateAfter_cons]
    cases h : Registry.acceptsWeight c.weight with
    | true =>
      have haccepted : accepted (c :: cs) = c :: accepted cs := by simp [accepted, h]
      rw [haccepted, List.length_cons] at hroom
      rw [run_of_accepts (by omega) h, finalState_ok,
        ih (by simpa [Registry.size, Nat.add_assoc, Nat.add_comm 1] using hroom)]
      simp [rules, haccepted, Registry.size, List.mapIdx_cons, Nat.add_assoc, Nat.add_comm 1]
    | false =>
      obtain ⟨w, -, hrun⟩ := run_of_refuses h r
      have haccepted : accepted (c :: cs) = accepted cs := by simp [accepted, h]
      rw [haccepted] at hroom
      rw [hrun, rules, haccepted]
      exact ih hroom

end RuleCall

/-! ## Registries that calls have made -/

namespace Registry

open RuleCall

/-- What calls make of an empty registry. -/
def ofCalls (origin : Nat) (cs : List RuleCall) : Registry := stateAfter run cs { origin }

variable {origin : Nat} {cs : List RuleCall}

theorem ofCalls_eq (hfew : (accepted cs).length < 2 ^ 32) :
    ofCalls origin cs = { origin, rules := (RuleCall.rules origin 0 cs).toArray } := by
  have hroom : ({ origin } : Registry).size + (accepted cs).length ≤ 2 ^ 32 := by
    simpa [size] using Nat.le_of_lt hfew
  have hrun := stateAfter_run hroom
  simpa [ofCalls, size] using hrun

theorem size_ofCalls (hfew : (accepted cs).length < 2 ^ 32) :
    (ofCalls origin cs).size = (accepted cs).length := by
  simp [ofCalls_eq hfew, size, RuleCall.rules]

/-- Under a number is the rule of the call that was the one of this number to be accepted. -/
theorem get?_ofCalls (hfew : (accepted cs).length < 2 ^ 32) (id : RuleId) :
    (ofCalls origin cs).get? id = (accepted cs)[id.toNat]?.map fun c => c.rule origin id.toNat := by
  simp [ofCalls_eq hfew, get?, RuleCall.rules]

theorem exists_of_mem_ofCalls (hfew : (accepted cs).length < 2 ^ 32) {rule : Rule Single}
    (h : rule ∈ (ofCalls origin cs).rules) : ∃ k, ∃ c ∈ accepted cs, rule = c.rule origin k := by
  rw [ofCalls_eq hfew] at h
  obtain ⟨k, hk⟩ := List.mem_iff_getElem?.mp (by simpa using h)
  rw [RuleCall.rules, List.getElem?_mapIdx, Option.map_eq_some_iff] at hk
  obtain ⟨c, hc, rfl⟩ := hk
  exact ⟨_, c, List.mem_of_getElem? hc, rfl⟩

theorem resolve_eq_error_iff {r : Registry} {id : RuleId} :
    r.resolve id = .error (.unknownRule id) ↔ r.get? id = none := by
  unfold resolve
  cases r.get? id <;> simp

end Registry

/-- A soft rule and a hard one. -/
def sampleRules : Registry where
  rules := #[⟨0, ⟨0⟩, "prior", .soft 1, .squaredHinge⟩, ⟨0, ⟨1⟩, "limit", .hard, .hinge⟩]

theorem sampleRules_isBuilt : sampleRules.IsBuilt := by
  have hfirst := Registry.IsBuilt.register (.empty 0)
    (show Registry.register { origin := 0 } "prior" (.soft 1) .squaredHinge = .ok (_, _) from rfl)
  exact hfirst.register
    (show Registry.register _ "limit" .hard .hinge = .ok (_, sampleRules) from rfl)

end HingeLoss
