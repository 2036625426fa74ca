import Mathlib.Logic.Function.Iterate
import Mathlib.Tactic.Choose
import PaintOrder.Proofs.Partition.Construction

/-!
# Which lists are built on the way to a tree

Building a tree of one list means building trees of the two sides of its division, the
front first.  How deeply splits may nest only decides whether building finishes, never what
it gives.  So building does not finish for any limit exactly when there is an endless
sequence of lists, each built as part of the one before.
-/

namespace PaintOrder

/-- A list of faces is built as part of another: as the front of its division, or as the
back once the front is finished. -/
inductive BuildStep (select : Selector) : List Face → List Face → Prop
  | front {faces : List Face} {splitter : Fin faces.length} {division : Division}
      (selected : select faces = some splitter)
      (divided : Division.onSplitter faces splitter = .ok division)
      (twoSided : division.back ≠ []) :
      BuildStep select faces division.front
  | back {faces : List Face} {splitter : Fin faces.length} {division : Division}
      {limit : Nat} {tree : Tree}
      (selected : select faces = some splitter)
      (divided : Division.onSplitter faces splitter = .ok division)
      (twoSided : division.back ≠ [])
      (finished : Tree.build select limit division.front = .ok tree) :
      BuildStep select faces division.back

namespace Tree

variable {select : Selector} {faces : List Face}

/-- Whatever the limit, building runs into it. -/
def Endless (select : Selector) (faces : List Face) : Prop :=
  ∀ limit, build select limit faces = .error .unfinished

theorem build_of_division {splitter : Fin faces.length} {division : Division}
    (selected : select faces = some splitter)
    (divided : Division.onSplitter faces splitter = .ok division)
    (twoSided : division.back ≠ []) (limit : Nat) :
    build select (limit + 1) faces = (do
      let front ← build select limit division.front
      let back ← build select limit division.back
      return .split (faces.get splitter).plane front back) := by
  have notEmpty : division.back.isEmpty = false := by simpa using twoSided
  rw [build, selected]
  simp [liftM_structural, divided, notEmpty, Except.mapError, bind, Except.bind]

/-- What does not depend on the limit: a list without a splitter, and one whose division
fails or has nothing behind. -/
theorem build_eq_of_not_divided
    (undivided : ∀ splitter division, select faces = some splitter →
      Division.onSplitter faces splitter = .ok division → division.back = [])
    (limit larger : Nat) :
    build select (limit + 1) faces = build select (larger + 1) faces ∧
      build select (limit + 1) faces ≠ .error .unfinished := by
  rw [build, build]
  cases selected : select faces with
  | none => simp
  | some splitter =>
      cases divided : Division.onSplitter faces splitter with
      | error cause =>
          simp [liftM_structural, divided, Except.mapError, bind, Except.bind]
      | ok division =>
          have oneSided := undivided splitter division selected divided
          simp [liftM_structural, divided, oneSided, Except.mapError, bind, Except.bind,
            throw, throwThe, MonadExceptOf.throw]

theorem divided_or_undivided (select : Selector) (faces : List Face) :
    (∃ splitter division, select faces = some splitter ∧
      Division.onSplitter faces splitter = .ok division ∧ division.back ≠ []) ∨
    ∀ splitter division, select faces = some splitter →
      Division.onSplitter faces splitter = .ok division → division.back = [] := by
  by_contra neither
  rw [not_or] at neither
  apply neither.2
  intro splitter division selected divided
  by_contra twoSided
  exact neither.1 ⟨splitter, division, selected, divided, twoSided⟩

theorem build_mono {limit larger : Nat}
    (finished : build select limit faces ≠ .error .unfinished) (enough : limit ≤ larger) :
    build select larger faces = build select limit faces := by
  induction limit generalizing faces larger with
  | zero => exact absurd rfl finished
  | succ limit ih =>
      obtain ⟨larger, rfl⟩ : ∃ inner, larger = inner + 1 := ⟨larger - 1, by omega⟩
      rcases divided_or_undivided select faces with
        ⟨splitter, division, selected, divided, twoSided⟩ | undivided
      · rw [build_of_division selected divided twoSided] at finished ⊢
        rw [build_of_division selected divided twoSided]
        have frontFinished : build select limit division.front ≠ .error .unfinished := by
          intro unfinished
          simp [unfinished, bind, Except.bind] at finished
        rw [ih frontFinished (by omega)]
        cases frontBuilt : build select limit division.front with
        | error cause => rfl
        | ok front =>
            have backFinished : build select limit division.back ≠ .error .unfinished := by
              intro unfinished
              simp [frontBuilt, unfinished, bind, Except.bind] at finished
            rw [ih backFinished (by omega)]
      · exact (build_eq_of_not_divided undivided larger limit).1

/-- An endless construction contains another one. -/
theorem Endless.exists_step (endless : Endless select faces) :
    ∃ next, BuildStep select faces next ∧ Endless select next := by
  rcases divided_or_undivided select faces with
    ⟨splitter, division, selected, divided, twoSided⟩ | undivided
  · by_cases frontEndless : Endless select division.front
    · exact ⟨_, .front selected divided twoSided, frontEndless⟩
    · -- The front ends within some limit, and it must end well for the back to be reached.
      obtain ⟨enough, frontFinished⟩ := not_forall.mp frontEndless
      cases frontBuilt : build select enough division.front with
      | error cause =>
          have whole := endless (enough + 1)
          rw [build_of_division selected divided twoSided, frontBuilt] at whole
          cases whole
          exact absurd frontBuilt frontFinished
      | ok front =>
          refine ⟨_, .back selected divided twoSided frontBuilt, ?_⟩
          intro limit
          by_contra backFinished
          have whole := endless (max limit enough + 1)
          rw [build_of_division selected divided twoSided,
            build_mono frontFinished (Nat.le_max_right _ _),
            build_mono backFinished (Nat.le_max_left _ _), frontBuilt] at whole
          cases backBuilt : build select limit division.back with
          | error cause =>
              rw [backBuilt] at whole
              cases whole
              exact backFinished backBuilt
          | ok back =>
              rw [backBuilt] at whole
              cases whole
  · exact absurd (endless 1) (build_eq_of_not_divided undivided 0 0).2

/-- A list runs into a limit when a list built as part of it runs into the one below. -/
theorem unfinished_of_step {next : List Face} {limit : Nat}
    (step : BuildStep select faces next)
    (later : build select limit next = .error .unfinished) :
    build select (limit + 1) faces = .error .unfinished := by
  cases step with
  | front selected divided twoSided =>
      rw [build_of_division selected divided twoSided, later]
      rfl
  | @back splitter division enough tree selected divided twoSided finished =>
      rw [build_of_division selected divided twoSided]
      by_cases stopped : build select limit division.front = .error .unfinished
      · rw [stopped]
        rfl
      · have frontBuilt : build select limit division.front = .ok tree := by
          rcases Nat.le_total limit enough with less | more
          · rw [← build_mono stopped less, finished]
          · rw [build_mono (by simp [finished]) more, finished]
        rw [frontBuilt, later]
        rfl

theorem endless_of_steps {lists : Nat → List Face}
    (steps : ∀ index, BuildStep select (lists index) (lists (index + 1))) (index : Nat) :
    Endless select (lists index) := by
  intro limit
  induction limit generalizing index with
  | zero => rfl
  | succ limit ih => exact unfinished_of_step (steps index) (ih (index + 1))

/-- A construction is endless exactly when lists are built as part of each other without
end. -/
theorem endless_iff_exists_steps :
    Endless select faces ↔ ∃ lists : Nat → List Face,
      lists 0 = faces ∧ ∀ index, BuildStep select (lists index) (lists (index + 1)) := by
  constructor
  · intro endless
    choose! next step later using
      fun list (listEndless : Endless select list) => listEndless.exists_step
    let lists : Nat → List Face := fun index => next^[index] faces
    have listsEndless : ∀ index, Endless select (lists index) := by
      intro index
      induction index with
      | zero => exact endless
      | succ index ih =>
          simpa only [lists, Function.iterate_succ_apply'] using later _ ih
    refine ⟨lists, rfl, ?_⟩
    intro index
    simpa only [lists, Function.iterate_succ_apply'] using step _ (listsEndless index)
  · rintro ⟨lists, rfl, steps⟩
    exact endless_of_steps steps 0

end Tree

end PaintOrder
