import Mathlib.Data.List.Forall2
import Mathlib.Data.List.Induction
import PaintOrder.Error

/-!
# Outcomes of steps

A chain of steps gives a value exactly when every step of it does.  These lemmas take such
a chain apart, for plain outcomes and for steps that also carry a state, so that no proof
about the library has to unfold how steps are chained.
-/

namespace PaintOrder

variable {ε ε' σ α β : Type}

theorem bind_eq_ok {step : Except ε α} {next : α → Except ε β} {value : β} :
    step >>= next = .ok value ↔ ∃ middle, step = .ok middle ∧ next middle = .ok value := by
  cases step <;> simp [bind, Except.bind]

theorem bind_eq_error {step : Except ε α} {next : α → Except ε β} {cause : ε} :
    step >>= next = .error cause ↔
      step = .error cause ∨ ∃ middle, step = .ok middle ∧ next middle = .error cause := by
  cases step <;> simp [bind, Except.bind]

theorem ok_bind (value : α) (next : α → Except ε β) : (.ok value >>= next) = next value :=
  rfl

theorem pure_eq_ok {given value : α} :
    (pure given : Except ε α) = .ok value ↔ given = value := by
  simp [pure, Except.pure]

theorem throw_ne_ok {cause : ε} {value : α} :
    (throw cause : Except ε α) ≠ .ok value := by
  simp [throw, throwThe, MonadExceptOf.throw]

theorem mapError_eq_ok {relabel : ε → ε'} {step : Except ε α} {value : α} :
    step.mapError relabel = .ok value ↔ step = .ok value := by
  cases step <;> simp [Except.mapError]

theorem mapError_eq_error {relabel : ε → ε'} {step : Except ε α} {cause : ε'} :
    step.mapError relabel = .error cause ↔ ∃ inner, step = .error inner ∧ relabel inner = cause := by
  cases step <;> simp [Except.mapError]

/-- Where something is seen of a value, there is the value. -/
theorem exists_of_map_toOption {step : Except ε α} {view : α → β} {seen : β}
    (known : step.toOption.map view = some seen) :
    ∃ value, step = .ok value ∧ view value = seen := by
  cases step with
  | error cause => cases known
  | ok value => exact ⟨value, rfl, Option.some.inj known⟩

/-- Steps give a list of values if each of them gives its value. -/
theorem mapM_eq_ok {step : α → Except ε β} {elements : List α} {values : List β} :
    elements.mapM step = .ok values ↔
      List.Forall₂ (fun element value => step element = .ok value) elements values := by
  induction elements generalizing values with
  | nil => rw [List.mapM_nil, pure_eq_ok, List.forall₂_nil_left_iff, eq_comm]
  | cons element rest ih =>
      simp only [List.mapM_cons, bind_eq_ok, pure_eq_ok, ih, List.forall₂_cons_left_iff]
      constructor
      · rintro ⟨value, head, others, tail, rfl⟩
        exact ⟨value, others, head, tail, rfl⟩
      · rintro ⟨value, others, head, tail, rfl⟩
        exact ⟨value, head, others, tail, rfl⟩

/-- Steps for all numbers below a bound give a list of as many values. -/
theorem mapM_range_eq_ok {step : Nat → Except ε β} {count : Nat} {values : List β} :
    (List.range count).mapM step = .ok values ↔
      values.length = count ∧
        ∀ index (inRange : index < values.length), step index = .ok values[index] := by
  rw [mapM_eq_ok, List.forall₂_iff_get]
  constructor
  · rintro ⟨sameLength, related⟩
    refine ⟨by simpa using sameLength.symm, ?_⟩
    intro index inRange
    simpa using related index (sameLength ▸ inRange) inRange
  · rintro ⟨rfl, related⟩
    refine ⟨List.length_range, ?_⟩
    intro index _ inRange
    simpa using related index inRange

/-- Steps that never fail give a list of values. -/
theorem exists_mapM_range_eq_ok {step : Nat → Except ε β} {count : Nat}
    (each : ∀ index, index < count → ∃ value, step index = .ok value) :
    ∃ values, (List.range count).mapM step = .ok values := by
  choose value isValue using each
  refine ⟨List.ofFn fun index : Fin count => value index index.isLt,
    mapM_range_eq_ok.mpr ⟨List.length_ofFn, ?_⟩⟩
  intro index inRange
  rw [List.getElem_ofFn]
  exact isValue index _

/-- Steps that fail to give a list of values fail at one of the elements. -/
theorem exists_of_mapM_eq_error {step : α → Except ε β} {elements : List α} {cause : ε}
    (failed : elements.mapM step = .error cause) :
    ∃ element ∈ elements, step element = .error cause := by
  induction elements with
  | nil => cases failed
  | cons element rest ih =>
      rw [List.mapM_cons] at failed
      cases head : step element with
      | error first =>
          rw [head] at failed
          cases failed
          exact ⟨element, List.mem_cons_self, head⟩
      | ok value =>
          rw [head, ok_bind] at failed
          cases tail : rest.mapM step with
          | error later =>
              rw [tail] at failed
              cases failed
              obtain ⟨other, member, otherFailed⟩ := ih tail
              exact ⟨other, List.mem_cons_of_mem _ member, otherFailed⟩
          | ok values =>
              rw [tail] at failed
              cases failed

/-- A check of all elements passes if it passes for each of them. -/
theorem forM_eq_ok {check : α → Except ε Unit} {elements : List α} :
    elements.forM check = .ok () ↔ ∀ element ∈ elements, check element = .ok () := by
  induction elements with
  | nil => simp [List.forM_nil, pure_eq_ok]
  | cons element rest ih =>
      rw [List.forM_eq_forM] at ih ⊢
      rw [List.forM_cons, bind_eq_ok, List.forall_mem_cons, ih]
      constructor
      · rintro ⟨⟨⟩, passes, restPasses⟩
        exact ⟨passes, restPasses⟩
      · rintro ⟨passes, restPasses⟩
        exact ⟨(), passes, restPasses⟩

/-- A check of all elements that fails does so at one of them. -/
theorem exists_of_forM_eq_error {check : α → Except ε Unit} {elements : List α} {cause : ε}
    (failed : elements.forM check = .error cause) :
    ∃ element ∈ elements, check element = .error cause := by
  induction elements with
  | nil => cases failed
  | cons element rest ih =>
      rw [List.forM_eq_forM] at ih failed
      rw [List.forM_cons, bind_eq_error] at failed
      rcases failed with here | ⟨⟨⟩, _, later⟩
      · exact ⟨element, List.mem_cons_self, here⟩
      · obtain ⟨other, member, otherFailed⟩ := ih later
        exact ⟨other, List.mem_cons_of_mem _ member, otherFailed⟩

/-- A loop over a list with its indices that takes every state to the next one. -/
theorem foldlM_zipIdx_eq_ok {step : β → α × Nat → Except ε β} {elements : List α}
    (states : Nat → β)
    (steps : ∀ index (inRange : index < elements.length),
      step (states index) (elements[index], index) = .ok (states (index + 1))) :
    elements.zipIdx.foldlM step (states 0) = .ok (states elements.length) := by
  induction elements using List.reverseRecOn with
  | nil => rfl
  | append_singleton elements last ih =>
      have earlier : elements.zipIdx.foldlM step (states 0) = .ok (states elements.length) := by
        apply ih
        intro index inRange
        have inside : index < (elements ++ [last]).length := by
          rw [List.length_append]
          omega
        rw [← steps index inside, List.getElem_append_left inRange]
      have final := steps elements.length (by simp)
      rw [List.getElem_concat_length rfl] at final
      rw [List.zipIdx_append, List.foldlM_append, earlier, ok_bind, List.length_append]
      simp [final, bind, Except.bind, pure, Except.pure]

theorem liftM_structural {α : Type} (step : Except StructuralError α) :
    (liftM step : Except Error α) = step.mapError .structural :=
  rfl

theorem liftM_capacity {α : Type} (step : Except CapacityError α) :
    (liftM step : Except Error α) = step.mapError .capacity :=
  rfl

theorem liftM_format {α : Type} (step : Except FormatError α) :
    (liftM step : Except Error α) = step.mapError .format :=
  rfl

section States

/-- The state that steps leave, whether they give a value or not. -/
def leftover : EStateM.Result ε σ α → σ
  | .ok _ state => state
  | .error _ state => state

variable {state state' : σ}

theorem run_bind_eq_ok {step : EStateM ε σ α} {next : α → EStateM ε σ β} {value : β} :
    (step >>= next).run state = .ok value state' ↔
      ∃ middle between, step.run state = .ok middle between ∧
        (next middle).run between = .ok value state' := by
  simp only [EStateM.run, bind, EStateM.bind]
  cases step state <;> simp

theorem run_bind_eq_error {step : EStateM ε σ α} {next : α → EStateM ε σ β} {cause : ε} :
    (step >>= next).run state = .error cause state' ↔
      step.run state = .error cause state' ∨
        ∃ middle between, step.run state = .ok middle between ∧
          (next middle).run between = .error cause state' := by
  simp only [EStateM.run, bind, EStateM.bind]
  cases step state <;> simp

theorem run_bind_of_ok {step : EStateM ε σ α} {next : α → EStateM ε σ β} {value : α}
    (ran : step.run state = .ok value state') :
    (step >>= next).run state = (next value).run state' := by
  simp only [EStateM.run] at ran
  simp only [EStateM.run, bind, EStateM.bind, ran]

theorem run_get_bind (next : σ → EStateM ε σ β) :
    (get >>= next).run state = (next state).run state :=
  rfl

theorem run_modify_bind (change : σ → σ) (next : Unit → EStateM ε σ β) :
    (modify change >>= next).run state = (next ()).run (change state) :=
  rfl

theorem run_modify_eq_ok {change : σ → σ} {value : Unit} :
    (modify change : EStateM ε σ Unit).run state = .ok value state' ↔ state' = change state := by
  constructor
  · rintro ⟨⟩
    rfl
  · rintro rfl
    rfl

theorem run_throw_ne_ok {cause : ε} {value : α} :
    (throw cause : EStateM ε σ α).run state ≠ .ok value state' := by
  rintro ⟨⟩

theorem run_bind_of_error {step : EStateM ε σ α} {next : α → EStateM ε σ β} {cause : ε}
    (failed : step.run state = .error cause state') :
    (step >>= next).run state = .error cause state' := by
  simp only [EStateM.run] at failed
  simp only [EStateM.run, bind, EStateM.bind, failed]

end States

end PaintOrder
