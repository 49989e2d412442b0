import HingeLoss.Fault

/-!
# HingeLoss.Proofs.Program

Programs that change a state and may fail, as the library writes them, are functions from a state
to an outcome.  Four ways to reason about them are set up here once:

1. `bind_ok` and `bind_error` run the first part of a program on a state;
2. `Keeps` says what a program keeps of a state, whether it succeeds or fails, and `Preserves` says
   so where its answers do not matter;
3. `EndsIn` says how a program ends that starts in a given state;
4. `Simulates` says that two programs on different kinds of states give the same answers and keep
   their states related.

Each of the last three has one lemma for a value, one for a failure and one for a sequence, so a
program is judged by walking along its text.

What a caller does to a state is a list of such programs, of which the next one runs whether the one
before has succeeded or failed; `stateAfter` is the state at the end, `answersTo` are the answers, and
`successful` are the programs that have succeeded.
-/

namespace HingeLoss

/-! ## Outcomes -/

section Outcomes

variable {ε σ α β : Type}

/-- The state that an outcome leaves. -/
def finalState : EStateM.Result ε σ α → σ
  | .ok _ s | .error _ s => s

/-- Whether an outcome is a success. -/
def succeeds : EStateM.Result ε σ α → Bool
  | .ok _ _ => true
  | .error _ _ => false

theorem eq_ok_of_succeeds {x : EStateM.Result ε σ α} (h : succeeds x = true) :
    ∃ a, x = .ok a (finalState x) := by
  cases x with
  | ok a s => exact ⟨a, rfl⟩
  | error e s => contradiction

/-- What an outcome comes to, if it is a success. -/
def onSuccess (f : α → σ → β) : EStateM.Result ε σ α → Option β
  | .ok a s => some (f a s)
  | .error _ _ => none

theorem exists_of_onSuccess {f : α → σ → β} {x : EStateM.Result ε σ α} {b : β}
    (h : onSuccess f x = some b) : ∃ a s, x = .ok a s ∧ f a s = b := by
  cases x with
  | ok a s =>
    injection h with h
    exact ⟨a, s, rfl, h⟩
  | error e s => contradiction

/-- What an outcome comes to, if it is a failure. -/
def onFailure (f : ε → σ → β) : EStateM.Result ε σ α → Option β
  | .ok _ _ => none
  | .error e s => some (f e s)

theorem exists_of_onFailure {f : ε → σ → β} {x : EStateM.Result ε σ α} {b : β}
    (h : onFailure f x = some b) : ∃ e s, x = .error e s ∧ f e s = b := by
  cases x with
  | ok a s => contradiction
  | error e s =>
    injection h with h
    exact ⟨e, s, rfl, h⟩

/-- A sequence goes on with what its first part returns. -/
theorem bind_ok {x : EStateM ε σ α} {f : α → EStateM ε σ β} {s s' : σ} {a : α}
    (h : x s = .ok a s') : (x >>= f) s = f a s' := by
  simp only [bind, EStateM.bind, h]

/-- A sequence ends where its first part fails. -/
theorem bind_error {x : EStateM ε σ α} {f : α → EStateM ε σ β} {s s' : σ} {e : ε}
    (h : x s = .error e s') : (x >>= f) s = .error e s' := by
  simp only [bind, EStateM.bind, h]

/-- A sequence that succeeds has succeeded in both parts. -/
theorem bind_eq_ok {x : EStateM ε σ α} {f : α → EStateM ε σ β} {s s'' : σ} {b : β}
    (h : (x >>= f) s = .ok b s'') : ∃ a s', x s = .ok a s' ∧ f a s' = .ok b s'' := by
  cases hx : x s with
  | ok a s' => exact ⟨a, s', rfl, by rwa [bind_ok hx] at h⟩
  | error e s' => rw [bind_error hx] at h; contradiction

/-- A sequence that fails has failed in its first part, or after it. -/
theorem bind_eq_error {x : EStateM ε σ α} {f : α → EStateM ε σ β} {s s'' : σ} {e : ε}
    (h : (x >>= f) s = .error e s'') :
    x s = .error e s'' ∨ ∃ a s', x s = .ok a s' ∧ f a s' = .error e s'' := by
  cases hx : x s with
  | ok a s' => exact .inr ⟨a, s', rfl, by rwa [bind_ok hx] at h⟩
  | error e' s' =>
    rw [bind_error hx] at h
    injection h with he hs
    exact .inl (by rw [he, hs])

/-- What is made of a result does not matter to the state. -/
theorem finalState_map (x : EStateM ε σ α) (f : α → β) (s : σ) :
    finalState ((x >>= fun a => pure (f a)) s) = finalState (x s) := by
  cases hx : x s with
  | ok a s' => rw [bind_ok hx]; rfl
  | error e s' => rw [bind_error hx]; rfl

/-- Sequences agree whose first parts agree, and whose second parts agree on what these leave. -/
theorem bind_apply_congr {x y : EStateM ε σ α} {f g : α → EStateM ε σ β} {s : σ} (hxy : y s = x s)
    (hfg : ∀ a s', x s = .ok a s' → g a s' = f a s') : (y >>= g) s = (x >>= f) s := by
  cases hx : x s with
  | ok a s' => rw [bind_ok hx, bind_ok (hxy.trans hx), hfg a s' hx]
  | error e s' => rw [bind_error hx, bind_error (hxy.trans hx)]

/-- A sequence goes on from the outcome of its first part, wherever that has come from. -/
theorem bind_congr_outcome {x y : EStateM ε σ α} {f : α → EStateM ε σ β} {s t : σ}
    (h : x s = y t) : (x >>= f) s = (y >>= f) t := by
  simp only [bind, EStateM.bind, h]

theorem except_bind_ok (a : α) (f : α → Except ε β) : (.ok a >>= f) = f a := rfl

/-- A sequence of computations that succeeds has succeeded in both parts. -/
theorem except_bind_eq_ok {x : Except ε α} {f : α → Except ε β} {b : β} (h : x >>= f = .ok b) :
    ∃ a, x = .ok a ∧ f a = .ok b := by
  cases x with
  | ok a => exact ⟨a, rfl, h⟩
  | error e => contradiction

@[simp] theorem pure_apply (a : α) (s : σ) : (pure a : EStateM ε σ α) s = .ok a s := rfl

@[simp] theorem get_apply (s : σ) : (get : EStateM ε σ σ) s = .ok s s := rfl

@[simp] theorem modify_apply (f : σ → σ) (s : σ) :
    (modify f : EStateM ε σ PUnit) s = .ok ⟨⟩ (f s) := rfl

@[simp] theorem modifyGet_apply (f : σ → α × σ) (s : σ) :
    (modifyGet f : EStateM ε σ α) s = .ok (f s).1 (f s).2 := rfl

@[simp] theorem finalState_ok (a : α) (s : σ) :
    finalState (.ok a s : EStateM.Result ε σ α) = s := rfl

end Outcomes

/-! ## What a program keeps -/

/-- From a state with `I`, a program leaves a state with `I`; what it returns has `Q`, and what it
fails with has `E`. -/
def Keeps {ε σ α : Type} (I : σ → Prop) (Q : α → Prop) (E : ε → Prop) (x : EStateM ε σ α) : Prop :=
  ∀ s, I s → match x s with
    | .ok a s' => Q a ∧ I s'
    | .error e s' => E e ∧ I s'

/-- From a state with `I`, a program leaves a state with `I`, whatever its outcome. -/
abbrev Preserves {ε σ α : Type} (I : σ → Prop) (x : EStateM ε σ α) : Prop :=
  Keeps I (fun _ => True) (fun _ => True) x

namespace Keeps

variable {ε σ α β : Type} {I : σ → Prop} {Q : α → Prop} {P : β → Prop} {E : ε → Prop}

/-- The state at the end, whatever the outcome. -/
theorem finalState {x : EStateM ε σ α} (h : Keeps I Q E x) {s : σ} (hs : I s) :
    I (finalState (x s)) := by
  have := h s hs
  cases hx : x s <;> simp only [hx] at this
  · exact this.2
  · exact this.2

/-- What holds of the state at the end is kept. -/
theorem of_finalState {x : EStateM ε σ α} (h : ∀ s, I s → I (HingeLoss.finalState (x s))) :
    Preserves I x := by
  intro s hs
  have hs' := h s hs
  cases hx : x s <;> rw [hx] at hs'
  · exact ⟨trivial, hs'⟩
  · exact ⟨trivial, hs'⟩

/-- What is returned, and the state, on success. -/
theorem ok {x : EStateM ε σ α} (h : Keeps I Q E x) {s s' : σ} {a : α} (hs : I s)
    (hx : x s = .ok a s') : Q a ∧ I s' := by
  have := h s hs
  simpa only [hx] using this

/-- What it fails with, and the state, on failure. -/
theorem error {x : EStateM ε σ α} (h : Keeps I Q E x) {s s' : σ} {e : ε} (hs : I s)
    (hx : x s = .error e s') : E e ∧ I s' := by
  have := h s hs
  simpa only [hx] using this

/-- What is kept whatever the outcome is, together with what the outcomes are. -/
theorem of_outcomes {x : EStateM ε σ α} (h : Preserves I x)
    (hok : ∀ s a s', I s → x s = .ok a s' → Q a) (herror : ∀ s e s', I s → x s = .error e s' → E e) :
    Keeps I Q E x := by
  intro s hs
  cases hx : x s with
  | ok a s' => exact ⟨hok s a s' hs hx, (h.ok hs hx).2⟩
  | error e s' => exact ⟨herror s e s' hs hx, (h.error hs hx).2⟩

theorem pure {a : α} (h : Q a) : Keeps I Q E (pure a : EStateM ε σ α) := fun _ hs => ⟨h, hs⟩

theorem throw {e : ε} (h : E e) : Keeps I Q E (throw e : EStateM ε σ α) := fun _ hs => ⟨h, hs⟩

theorem get : Keeps I I E (get : EStateM ε σ σ) := fun _ hs => ⟨hs, hs⟩

theorem modify {f : σ → σ} (h : ∀ s, I s → I (f s)) :
    Keeps I (fun _ => True) E (modify f : EStateM ε σ PUnit) := fun s hs => ⟨trivial, h s hs⟩

theorem bind {x : EStateM ε σ α} {f : α → EStateM ε σ β} (hx : Keeps I Q E x)
    (hf : ∀ a, Q a → Keeps I P E (f a)) : Keeps I P E (x >>= f) := by
  intro s hs
  cases hxs : x s with
  | ok a s' =>
    obtain ⟨ha, hs'⟩ := hx.ok hs hxs
    rw [bind_ok hxs]
    exact hf a ha s' hs'
  | error e s' =>
    rw [bind_error hxs]
    exact hx.error hs hxs

theorem mono {Q' : α → Prop} {E' : ε → Prop} {x : EStateM ε σ α} (hx : Keeps I Q E x)
    (hQ : ∀ a, Q a → Q' a) (hE : ∀ e, E e → E' e) : Keeps I Q' E' x := by
  intro s hs
  cases hxs : x s with
  | ok a s' => exact (hx.ok hs hxs).imp_left (hQ a)
  | error e s' => exact (hx.error hs hxs).imp_left (hE e)

/-- A loop keeps what each round keeps. -/
theorem forM {γ : Type} {f : γ → EStateM ε σ PUnit} {l : List γ}
    (h : ∀ a ∈ l, Keeps I (fun _ => True) E (f a)) : Keeps I (fun _ => True) E (l.forM f) := by
  induction l with
  | nil => exact fun _ hs => ⟨trivial, hs⟩
  | cons a l ih =>
    change Keeps I (fun _ => True) E (f a >>= fun _ => l.forM f)
    refine bind (h a List.mem_cons_self) fun _ _ => ?_
    exact ih fun b hb => h b (List.mem_cons_of_mem a hb)

/-- A fold keeps what each round keeps. -/
theorem foldlM {γ : Type} {f : β → γ → EStateM ε σ β} {l : List γ}
    (h : ∀ b, P b → ∀ a ∈ l, Keeps I P E (f b a)) {b : β} (hb : P b) :
    Keeps I P E (l.foldlM f b) := by
  induction l generalizing b with
  | nil => exact pure hb
  | cons a l ih =>
    rw [List.foldlM_cons]
    refine bind (h b hb a List.mem_cons_self) fun c hc => ?_
    exact ih (fun b hb a ha => h b hb a (List.mem_cons_of_mem _ ha)) hc

end Keeps

/-! ## How a program ends -/

/-- The outcome of a program from a state has `P`. -/
def EndsIn {ε σ α : Type} (P : EStateM.Result ε σ α → Prop) (x : EStateM ε σ α) (s : σ) : Prop :=
  P (x s)

namespace EndsIn

variable {ε σ α β : Type} {P : EStateM.Result ε σ β → Prop} {s s' : σ}

theorem throw_bind {e : ε} {f : α → EStateM ε σ β} (h : P (.error e s)) :
    EndsIn P (throw e >>= f) s := h

theorem set {Q : EStateM.Result ε σ PUnit → Prop} (h : Q (.ok ⟨⟩ s')) :
    EndsIn Q (set s' : EStateM ε σ PUnit) s := h

theorem set_bind {f : PUnit → EStateM ε σ β} (h : EndsIn P (f ⟨⟩) s') :
    EndsIn P (MonadStateOf.set s' >>= f) s := h

theorem get_bind {f : σ → EStateM ε σ β} (h : EndsIn P (f s) s) :
    EndsIn P (MonadState.get >>= f) s := h

theorem ite {c : Prop} [Decidable c] {x y : EStateM ε σ β} (hx : c → EndsIn P x s)
    (hy : ¬ c → EndsIn P y s) : EndsIn P (if c then x else y) s := by
  split
  · next h => exact hx h
  · next h => exact hy h

end EndsIn

/-! ## Programs with the same answers -/

/-- Two outcomes with the same answer or the same failure, and related states. -/
def Agree {ε σ τ α : Type} (R : σ → τ → Prop) :
    EStateM.Result ε σ α → EStateM.Result ε τ α → Prop
  | .ok a s, .ok b t => a = b ∧ R s t
  | .error e s, .error f t => e = f ∧ R s t
  | _, _ => False

theorem Agree.mono {ε σ τ α : Type} {R R' : σ → τ → Prop} {x : EStateM.Result ε σ α}
    {y : EStateM.Result ε τ α} (h : Agree R x y) (hR : ∀ s t, R s t → R' s t) : Agree R' x y := by
  cases x <;> cases y
  · exact ⟨h.1, hR _ _ h.2⟩
  · exact h.elim
  · exact h.elim
  · exact ⟨h.1, hR _ _ h.2⟩

theorem Agree.finalState {ε σ τ α : Type} {R : σ → τ → Prop} {x : EStateM.Result ε σ α}
    {y : EStateM.Result ε τ α} (h : Agree R x y) :
    R (HingeLoss.finalState x) (HingeLoss.finalState y) := by
  cases x <;> cases y
  · exact h.2
  · exact h.elim
  · exact h.elim
  · exact h.2

/-- Sequences agree whose first parts agree, and whose second parts agree on what these leave. -/
theorem Agree.bind {ε σ τ α β : Type} {R : σ → τ → Prop} {x : EStateM ε σ α} {y : EStateM ε τ α}
    {f : α → EStateM ε σ β} {g : α → EStateM ε τ β} {s : σ} {t : τ} (hxy : Agree R (x s) (y t))
    (hfg : ∀ a s' t', x s = .ok a s' → y t = .ok a t' → R s' t' → Agree R (f a s') (g a t')) :
    Agree R ((x >>= f) s) ((y >>= g) t) := by
  cases hx : x s with
  | ok a s' =>
    cases hy : y t with
    | ok b t' =>
      rw [hx, hy] at hxy
      obtain ⟨rfl, hR⟩ := hxy
      rw [bind_ok hx, bind_ok hy]
      exact hfg a s' t' hx hy hR
    | error e t' => rw [hx, hy] at hxy; exact hxy.elim
  | error e s' =>
    cases hy : y t with
    | ok b t' => rw [hx, hy] at hxy; exact hxy.elim
    | error f t' =>
      rw [hx, hy] at hxy
      rw [bind_error hx, bind_error hy]
      exact hxy

/-- From related states, two programs have outcomes that agree. -/
def Simulates {ε σ τ α : Type} (R : σ → τ → Prop) (x : EStateM ε σ α) (y : EStateM ε τ α) : Prop :=
  ∀ s t, R s t → Agree R (x s) (y t)

namespace Simulates

variable {ε σ τ α β : Type} {R : σ → τ → Prop}

theorem pure (a : α) : Simulates R (pure a : EStateM ε σ α) (pure a) :=
  fun _ _ h => ⟨rfl, h⟩

theorem throw (e : ε) : Simulates R (throw e : EStateM ε σ α) (throw e) :=
  fun _ _ h => ⟨rfl, h⟩

theorem modify {f : σ → σ} {g : τ → τ} (h : ∀ s t, R s t → R (f s) (g t)) :
    Simulates R (modify f : EStateM ε σ PUnit) (modify g) :=
  fun s t hst => ⟨rfl, h s t hst⟩

theorem bind {x : EStateM ε σ α} {y : EStateM ε τ α} {f : α → EStateM ε σ β}
    {g : α → EStateM ε τ β} (hxy : Simulates R x y) (hfg : ∀ a, Simulates R (f a) (g a)) :
    Simulates R (x >>= f) (y >>= g) :=
  fun s t hst => (hxy s t hst).bind fun a s' t' _ _ hR => hfg a s' t' hR

/-- Loops agree when their rounds do. -/
theorem forM {γ : Type} {f : γ → EStateM ε σ PUnit} {g : γ → EStateM ε τ PUnit} {l : List γ}
    (h : ∀ a ∈ l, Simulates R (f a) (g a)) : Simulates R (l.forM f) (l.forM g) := by
  induction l with
  | nil => exact fun _ _ hst => ⟨rfl, hst⟩
  | cons a l ih =>
    change Simulates R (f a >>= fun _ => l.forM f) (g a >>= fun _ => l.forM g)
    refine bind (h a List.mem_cons_self) fun _ => ?_
    exact ih fun b hb => h b (List.mem_cons_of_mem a hb)

/-- Folds agree when their rounds do. -/
theorem foldlM {γ : Type} {f : β → γ → EStateM ε σ β} {g : β → γ → EStateM ε τ β} {l : List γ}
    (h : ∀ b, ∀ a ∈ l, Simulates R (f b a) (g b a)) (b : β) :
    Simulates R (l.foldlM f b) (l.foldlM g b) := by
  induction l generalizing b with
  | nil => exact pure b
  | cons a l ih =>
    rw [List.foldlM_cons, List.foldlM_cons]
    refine bind (h b a List.mem_cons_self) fun c => ?_
    exact ih (fun b a ha => h b a (List.mem_cons_of_mem _ ha)) c

end Simulates

/-! ## Programs one after the other -/

section Sequences

variable {ε σ τ α ι : Type} {I : σ → Prop} {R : σ → τ → Prop} {ops : List ι}

/-- The state that programs leave which are run in order, whether they succeed or fail. -/
def stateAfter (run : ι → EStateM ε σ α) (ops : List ι) (s : σ) : σ :=
  ops.foldl (fun s op => finalState (run op s)) s

/-- The answers of programs that are run in order, whether they succeed or fail. -/
def answersTo (run : ι → EStateM ε σ α) : List ι → σ → List (Except ε α)
  | [], _ => []
  | op :: ops, s => match run op s with
    | .ok a s => .ok a :: answersTo run ops s
    | .error e s => .error e :: answersTo run ops s

/-- The programs that succeed among those that are run in order, whether they succeed or fail. -/
def successful (run : ι → EStateM ε σ α) : List ι → σ → List ι
  | [], _ => []
  | op :: ops, s => match run op s with
    | .ok _ s => op :: successful run ops s
    | .error _ s => successful run ops s

@[simp] theorem stateAfter_nil (run : ι → EStateM ε σ α) (s : σ) : stateAfter run [] s = s := rfl

@[simp] theorem stateAfter_cons (run : ι → EStateM ε σ α) (op : ι) (ops : List ι) (s : σ) :
    stateAfter run (op :: ops) s = stateAfter run ops (finalState (run op s)) := rfl

theorem successful_cons_of_ok {run : ι → EStateM ε σ α} {op : ι} {s s' : σ} {a : α}
    (h : run op s = .ok a s') (ops : List ι) :
    successful run (op :: ops) s = op :: successful run ops s' := by
  simp only [successful, h]

theorem successful_cons_of_error {run : ι → EStateM ε σ α} {op : ι} {s s' : σ} {e : ε}
    (h : run op s = .error e s') (ops : List ι) :
    successful run (op :: ops) s = successful run ops s' := by
  simp only [successful, h]

/-- Programs that leave the state as it is when they fail can be left out where they fail. -/
theorem forM_successful {run : ι → EStateM ε σ PUnit}
    (h : ∀ op s e s', run op s = .error e s' → s' = s) (ops : List ι) (s : σ) :
    (successful run ops s).forM run s = .ok ⟨⟩ (HingeLoss.stateAfter run ops s) := by
  induction ops generalizing s with
  | nil => rfl
  | cons op ops ih =>
    rw [stateAfter_cons]
    cases hop : run op s with
    | ok u s' =>
      rw [successful_cons_of_ok hop]
      change (run op >>= fun _ => (successful run ops s').forM run) s = _
      rw [bind_ok hop]
      exact ih s'
    | error e s' =>
      -- the failure has left the state, so the others run from the same one
      obtain rfl := h op s e s' hop
      rw [successful_cons_of_error hop]
      exact ih s'

/-- What each program keeps is kept by all of them. -/
theorem Keeps.stateAfter {run : ι → EStateM ε σ α} (h : ∀ op ∈ ops, Preserves I (run op)) {s : σ}
    (hs : I s) : I (HingeLoss.stateAfter run ops s) := by
  induction ops generalizing s with
  | nil => exact hs
  | cons op ops ih =>
    have hop := (h op List.mem_cons_self).finalState hs
    exact ih (fun op hop => h op (List.mem_cons_of_mem _ hop)) hop

/-- Programs that simulate each other leave related states. -/
theorem Simulates.stateAfter {run : ι → EStateM ε σ α} {run' : ι → EStateM ε τ α}
    (h : ∀ op ∈ ops, Simulates R (run op) (run' op)) {s : σ} {t : τ} (hst : R s t) :
    R (HingeLoss.stateAfter run ops s) (HingeLoss.stateAfter run' ops t) := by
  induction ops generalizing s t with
  | nil => exact hst
  | cons op ops ih =>
    have hop := (h op List.mem_cons_self s t hst).finalState
    exact ih (fun op hop => h op (List.mem_cons_of_mem _ hop)) hop

/-- Programs that simulate each other give the same answers. -/
theorem Simulates.answersTo {run : ι → EStateM ε σ α} {run' : ι → EStateM ε τ α}
    (h : ∀ op ∈ ops, Simulates R (run op) (run' op)) {s : σ} {t : τ} (hst : R s t) :
    HingeLoss.answersTo run ops s = HingeLoss.answersTo run' ops t := by
  induction ops generalizing s t with
  | nil => rfl
  | cons op ops ih =>
    have hop := h op List.mem_cons_self s t hst
    have hrest {s t} := ih (fun op hop => h op (List.mem_cons_of_mem _ hop)) (s := s) (t := t)
    cases hs : run op s <;> cases ht : run' op t <;> simp only [hs, ht, Agree] at hop
    · simp only [HingeLoss.answersTo, hs, ht, hop.1, hrest hop.2]
    · simp only [HingeLoss.answersTo, hs, ht, hop.1, hrest hop.2]

end Sequences

end HingeLoss
