import PaintOrder.Proofs.Partition.Scoring

/-!
# The chosen splitter

The selector of least cost takes the first of the cheapest faces.  What a face costs depends on
the face itself and on how often every face is in the list, but not on where they are.  The order
of a list therefore decides which of equally cheap faces is chosen, and nothing else: neither
whether there is a choice nor what it costs.
-/

namespace PaintOrder

namespace Splitter

variable {spanWeight : Nat} {faces shuffled : List Face}

section Choice

/-- A candidate that is not rejected is as cheap as any other, and none before it is. -/
structure FirstCheapest (spanWeight : Nat) (faces : List Face) (candidate : Fin faces.length)
    (cost : Nat) : Prop where
  scored : cost? spanWeight faces candidate = some cost
  least : ∀ other otherCost, cost? spanWeight faces other = some otherCost → cost ≤ otherCost
  first : ∀ other, cost? spanWeight faces other = some cost → candidate ≤ other

/-- The candidates that are not rejected keep their order. -/
theorem pairwise_accepted (spanWeight : Nat) (faces : List Face) :
    (accepted spanWeight faces).Pairwise fun left right => left.1 < right.1 := by
  refine List.Pairwise.filterMap _ ?_ (List.pairwise_lt_finRange faces.length)
  intro candidate other before scored isScored otherScored isOtherScored
  obtain ⟨_, _, rfl⟩ := Option.map_eq_some_iff.mp isScored
  obtain ⟨_, _, rfl⟩ := Option.map_eq_some_iff.mp isOtherScored
  exact before

theorem firstCheapest_of_leastCost {splitter : Fin faces.length}
    (selected : leastCost spanWeight faces = some splitter) :
    ∃ cost, FirstCheapest spanWeight faces splitter cost := by
  obtain ⟨⟨candidate, cost⟩, found, rfl⟩ := Option.map_eq_some_iff.mp selected
  obtain ⟨before, after, parts, dearer, notCheaper⟩ := exists_split_of_minOn? found
  have ordered := pairwise_accepted spanWeight faces
  rw [parts, List.pairwise_append, List.pairwise_cons] at ordered
  have member (other : Fin faces.length) (otherCost : Nat) :
      cost? spanWeight faces other = some otherCost ↔
        (other, otherCost) ∈ before ∨ (other, otherCost) = (candidate, cost) ∨
          (other, otherCost) ∈ after := by
    rw [← mem_accepted_iff, parts, List.mem_append, List.mem_cons]
  refine ⟨cost, (member candidate cost).mpr (.inr (.inl rfl)), ?_, ?_⟩
  · intro other otherCost scored
    rcases (member other otherCost).mp scored with earlier | same | later
    · exact (dearer _ earlier).le
    · cases same
      exact le_rfl
    · exact notCheaper _ later
  · intro other scored
    rcases (member other cost).mp scored with earlier | same | later
    · exact absurd (dearer _ earlier) (lt_irrefl cost)
    · cases same
      exact le_rfl
    · exact (ordered.2.1.1 _ later).le

theorem FirstCheapest.unique {candidate other : Fin faces.length} {cost otherCost : Nat}
    (cheapest : FirstCheapest spanWeight faces candidate cost)
    (otherCheapest : FirstCheapest spanWeight faces other otherCost) : candidate = other := by
  obtain rfl : cost = otherCost :=
    le_antisymm (cheapest.least _ _ otherCheapest.scored) (otherCheapest.least _ _ cheapest.scored)
  exact le_antisymm (cheapest.first _ otherCheapest.scored) (otherCheapest.first _ cheapest.scored)

/-- The choice is the first of the cheapest candidates. -/
theorem leastCost_eq_some_iff {splitter : Fin faces.length} :
    leastCost spanWeight faces = some splitter ↔
      ∃ cost, FirstCheapest spanWeight faces splitter cost := by
  refine ⟨firstCheapest_of_leastCost, ?_⟩
  rintro ⟨cost, cheapest⟩
  cases selected : leastCost spanWeight faces with
  | none =>
      have rejected := cost?_of_leastCost_eq_none selected splitter
      rw [cheapest.scored] at rejected
      cases rejected
  | some chosen =>
      obtain ⟨_, chosenCheapest⟩ := firstCheapest_of_leastCost selected
      rw [chosenCheapest.unique cheapest]

end Choice

section Order

/-- Without a certain face, two lists with the same faces still have the same faces. -/
theorem others_perm (perm : faces.Perm shuffled) {candidate : Fin faces.length}
    {place : Fin shuffled.length} (same : faces.get candidate = shuffled.get place) :
    (faces.eraseIdx candidate).Perm (shuffled.eraseIdx place) := by
  have whole : (faces.get candidate :: faces.eraseIdx candidate).Perm
      (shuffled.get place :: shuffled.eraseIdx place) :=
    ((List.getElem_cons_eraseIdx_perm candidate.isLt).trans perm).trans
      (List.getElem_cons_eraseIdx_perm place.isLt).symm
  rw [same] at whole
  exact whole.cons_inv

/-- A face costs the same wherever it is in a list. -/
theorem cost?_eq_of_perm (spanWeight : Nat) (perm : faces.Perm shuffled)
    {candidate : Fin faces.length} {place : Fin shuffled.length}
    (same : faces.get candidate = shuffled.get place) :
    cost? spanWeight faces candidate = cost? spanWeight shuffled place := by
  have alike : (placements faces candidate).Perm (placements shuffled place) := by
    unfold placements
    rw [same]
    exact (others_perm perm same).map _
  unfold cost? costOfPlacements
  rw [alike.count_eq, alike.count_eq, alike.count_eq]

/-- Every cost of a list is one of the shuffled list. -/
theorem exists_cost?_of_perm (spanWeight : Nat) (perm : faces.Perm shuffled)
    (candidate : Fin faces.length) :
    ∃ place, cost? spanWeight shuffled place = cost? spanWeight faces candidate := by
  have member : faces.get candidate ∈ shuffled := perm.mem_iff.mp (List.get_mem faces candidate)
  obtain ⟨place, isPlace⟩ := List.mem_iff_get.mp member
  exact ⟨place, (cost?_eq_of_perm spanWeight perm isPlace.symm).symm⟩

theorem leastCost_eq_none_of_perm (perm : faces.Perm shuffled)
    (unsplit : leastCost spanWeight shuffled = none) : leastCost spanWeight faces = none := by
  refine leastCost_eq_none_iff.mpr fun candidate => ?_
  obtain ⟨place, sameCost⟩ := exists_cost?_of_perm spanWeight perm candidate
  rw [← sameCost, cost?_of_leastCost_eq_none unsplit place]

/-- The cheapest faces of a list are not dearer than those of the shuffled list. -/
theorem FirstCheapest.le_of_perm (perm : faces.Perm shuffled) {candidate : Fin faces.length}
    {place : Fin shuffled.length} {cost otherCost : Nat}
    (cheapest : FirstCheapest spanWeight faces candidate cost)
    (otherCheapest : FirstCheapest spanWeight shuffled place otherCost) : cost ≤ otherCost := by
  obtain ⟨other, sameCost⟩ := exists_cost?_of_perm spanWeight perm.symm place
  rw [otherCheapest.scored] at sameCost
  exact cheapest.least other otherCost sameCost

/-- What the chosen face costs, if there is a choice. -/
def leastPrice? (spanWeight : Nat) (faces : List Face) : Option Nat :=
  (leastCost spanWeight faces).bind (cost? spanWeight faces)

theorem FirstCheapest.leastPrice? {splitter : Fin faces.length} {cost : Nat}
    (cheapest : FirstCheapest spanWeight faces splitter cost) :
    leastPrice? spanWeight faces = some cost := by
  unfold Splitter.leastPrice?
  rw [leastCost_eq_some_iff.mpr ⟨cost, cheapest⟩]
  exact cheapest.scored

theorem leastPrice?_eq_of_perm (spanWeight : Nat) (perm : faces.Perm shuffled) :
    leastPrice? spanWeight faces = leastPrice? spanWeight shuffled := by
  cases selected : leastCost spanWeight faces with
  | none =>
      unfold leastPrice?
      rw [selected, leastCost_eq_none_of_perm perm.symm selected]
      rfl
  | some splitter =>
      obtain ⟨cost, cheapest⟩ := firstCheapest_of_leastCost selected
      cases otherSelected : leastCost spanWeight shuffled with
      | none =>
          rw [leastCost_eq_none_of_perm perm otherSelected] at selected
          cases selected
      | some otherSplitter =>
          obtain ⟨otherCost, otherCheapest⟩ := firstCheapest_of_leastCost otherSelected
          rw [cheapest.leastPrice?, otherCheapest.leastPrice?, le_antisymm
            (cheapest.le_of_perm perm otherCheapest) (otherCheapest.le_of_perm perm.symm cheapest)]

end Order

end Splitter

/-- A list becomes a leaf exactly if there is no choice of a splitter. -/
theorem Tree.build_eq_leaf_iff {select : Selector} {limit : Nat} {faces : List Face} :
    build select limit faces = .ok (.leaf faces) ↔ limit ≠ 0 ∧ select faces = none := by
  constructor
  · intro built
    rcases build_eq_ok built with ⟨unsplit, _⟩ | ⟨_, _, _, _, _, _, _, _, _, _, _, isSplit⟩
    · refine ⟨?_, unsplit⟩
      rintro rfl
      cases built
    · cases isSplit
  · rintro ⟨notZero, unsplit⟩
    obtain ⟨inner, rfl⟩ := Nat.exists_eq_succ_of_ne_zero notZero
    rw [build, unsplit]

/-- The first of the cheapest faces is chosen, and there is no choice exactly if all are rejected.
In any other order of the list every face keeps its cost or stays rejected, also if it is there more
than once.  So the order changes neither the least cost nor whether the list becomes a leaf. -/
theorem splitter_choice_up_to_order (spanWeight : Nat) (faces : List Face) :
    (∀ splitter, Splitter.leastCost spanWeight faces = some splitter ↔
        ∃ cost, Splitter.FirstCheapest spanWeight faces splitter cost) ∧
      (Splitter.leastCost spanWeight faces = none ↔
        ∀ candidate, Splitter.cost? spanWeight faces candidate = none) ∧
      ∀ shuffled, faces.Perm shuffled →
        (∀ candidate place, faces.get candidate = shuffled.get place →
          Splitter.cost? spanWeight faces candidate = Splitter.cost? spanWeight shuffled place) ∧
        Splitter.leastPrice? spanWeight faces = Splitter.leastPrice? spanWeight shuffled ∧
        (Splitter.leastCost spanWeight faces = none ↔
          Splitter.leastCost spanWeight shuffled = none) ∧
        ∀ limit,
          Tree.build (Splitter.leastCost spanWeight) limit faces = .ok (.leaf faces) ↔
            Tree.build (Splitter.leastCost spanWeight) limit shuffled = .ok (.leaf shuffled) := by
  refine ⟨fun _ => Splitter.leastCost_eq_some_iff, Splitter.leastCost_eq_none_iff, ?_⟩
  intro shuffled perm
  have unsplit : Splitter.leastCost spanWeight faces = none ↔
      Splitter.leastCost spanWeight shuffled = none :=
    ⟨Splitter.leastCost_eq_none_of_perm perm.symm, Splitter.leastCost_eq_none_of_perm perm⟩
  refine ⟨fun _ _ => Splitter.cost?_eq_of_perm spanWeight perm,
    Splitter.leastPrice?_eq_of_perm spanWeight perm, unsplit, ?_⟩
  intro limit
  rw [Tree.build_eq_leaf_iff, Tree.build_eq_leaf_iff, unsplit]

section Example

/-- A triangle at some height that faces up. -/
def sheetAt (height : Fixed) : Face :=
  .plainTriangle ⟨.zero, .zero, height⟩ ⟨.one, .zero, height⟩ ⟨.zero, .one, height⟩
    ⟨.zero, .zero, .one⟩ (.flat 1)

/-- Sheets at four heights, at one of which there are two. -/
def stackedSheets : List Face :=
  [⟨0⟩, ⟨131072⟩, ⟨65536⟩, ⟨65536⟩, ⟨196608⟩].map sheetAt

def restackedSheets : List Face :=
  [⟨65536⟩, ⟨0⟩, ⟨65536⟩, ⟨196608⟩, ⟨131072⟩].map sheetAt

/-- The sheets in the middle are equally cheap, and the order decides which of them is chosen. -/
theorem restackedSheets_cost_the_same :
    stackedSheets.Perm restackedSheets ∧
      Splitter.leastCost 6 stackedSheets = some ⟨1, by decide⟩ ∧
      Splitter.leastCost 6 restackedSheets = some ⟨0, by decide⟩ ∧
      (∀ candidate place, stackedSheets.get candidate = restackedSheets.get place →
        Splitter.cost? 6 stackedSheets candidate = Splitter.cost? 6 restackedSheets place) ∧
      Splitter.leastPrice? 6 stackedSheets = Splitter.leastPrice? 6 restackedSheets ∧
      (Splitter.leastCost 6 stackedSheets = none ↔ Splitter.leastCost 6 restackedSheets = none) ∧
      ∀ limit, Tree.build (Splitter.leastCost 6) limit stackedSheets = .ok (.leaf stackedSheets) ↔
        Tree.build (Splitter.leastCost 6) limit restackedSheets = .ok (.leaf restackedSheets) := by
  have perm : stackedSheets.Perm restackedSheets := by decide
  exact ⟨perm, by decide +kernel, by decide +kernel,
    (splitter_choice_up_to_order 6 stackedSheets).2.2 restackedSheets perm⟩

end Example

end PaintOrder
