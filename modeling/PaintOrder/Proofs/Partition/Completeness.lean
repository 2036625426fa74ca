import Mathlib.Data.List.Perm.Basic
import PaintOrder.Proofs.Partition.Fragments

/-!
# Partitions lose and repeat nothing

A partition holds the fragments of the faces that it was built of, each exactly once.  This
is true at every node: its leaves hold the fragments of the node's own list of faces, and
those of the splitter, on whose plane the node splits, are all in front.
-/

namespace PaintOrder

open Fragmentation

/-- Every node of a tree is built of a list of faces and accounts for it.  A leaf holds its
list, which is not empty.  Below a split there are the fragments of the faces of its list,
the splitter's among those in front. -/
inductive Tree.Accounts (select : Selector) : List Face → Tree → Prop
  | leaf {faces : List Face} (nonempty : faces ≠ []) (unsplit : select faces = none) :
      Accounts select faces (.leaf faces)
  | split {faces : List Face} {splitter : Fin faces.length} {division : Division}
      {front back : Tree} (selected : select faces = some splitter)
      (divided : Division.onSplitter faces splitter = .ok division)
      (inFront : Accounts select division.front front)
      (behind : Accounts select division.back back)
      (accounts : List (Fragmentation (Tree.split (faces.get splitter).plane front back).planes))
      (sources : accounts.map source = faces)
      (complete : (front.faces ++ back.faces).Perm (accounts.flatMap fragments))
      (account : Fragmentation (Tree.split (faces.get splitter).plane front back).planes)
      (own : accounts[splitter.val]? = some account)
      (kept : account.fragments.Subperm front.faces) :
      Accounts select faces (.split (faces.get splitter).plane front back)

namespace Tree

/-- The leaves of a tree that accounts for a list hold the fragments of the list. -/
theorem Accounts.exists_accounts {select : Selector} {faces : List Face} {tree : Tree}
    (accounted : Accounts select faces tree) :
    ∃ accounts : List (Fragmentation tree.planes),
      accounts.map source = faces ∧ tree.faces.Perm (accounts.flatMap fragments) := by
  cases accounted with
  | leaf =>
      refine ⟨faces.map (Fragmentation.whole _), map_source_whole _ faces, ?_⟩
      rw [flatMap_whole]
      exact .refl faces
  | split selected divided inFront behind accounts sources complete =>
      exact ⟨accounts, sources, complete⟩

theorem Accounts.leaf_ne_nil {select : Selector} {faces : List Face} {tree : Tree}
    (accounted : Accounts select faces tree) : ∀ leaf ∈ tree.leaves, leaf ≠ [] := by
  induction accounted with
  | leaf nonempty => simpa [leaves] using nonempty
  | split _ _ _ _ _ _ _ _ _ _ frontIH backIH =>
      intro leaf member
      rcases List.mem_append.mp member with inFront | behind
      · exact frontIH leaf inFront
      · exact backIH leaf behind

theorem accounts_of_build {select : Selector} {limit : Nat} {faces : List Face}
    {tree : Tree} (nonempty : faces ≠ []) (built : build select limit faces = .ok tree) :
    Accounts select faces tree := by
  induction limit generalizing faces tree with
  | zero => simp [build] at built
  | succ limit ih =>
      rcases build_eq_ok built with ⟨unsplit, rfl⟩ |
        ⟨inner, splitter, division, front, back, sameLimit, selected, divided,
          backNonempty, frontBuilt, backBuilt, rfl⟩
      · exact .leaf nonempty unsplit
      · obtain rfl : limit = inner := by omega
        have frontNonempty : division.front ≠ [] :=
          List.ne_nil_of_mem (Division.splitter_mem_front divided)
        have frontAccounts := ih frontNonempty frontBuilt
        have backAccounts := ih backNonempty backBuilt
        obtain ⟨inFront, frontSources, frontPerm⟩ := frontAccounts.exists_accounts
        obtain ⟨behind, backSources, backPerm⟩ := backAccounts.exists_accounts
        obtain ⟨pieces, yields, atSplitter, rfl⟩ :=
          Division.exists_pieces_of_onSplitter divided
        have known : (faces.get splitter).plane ∈
            (Tree.split (faces.get splitter).plane front back).planes := by
          simp [planes]
        have frontSubset : front.planes ⊆
            (Tree.split (faces.get splitter).plane front back).planes := by
          simp [planes]
        have backSubset : back.planes ⊆
            (Tree.split (faces.get splitter).plane front back).planes := by
          simp [planes]
        obtain ⟨accounts, sources, perm, keptInFront⟩ :=
          combine known frontSubset backSubset yields frontSources backSources
        obtain ⟨account, own, kept, member, equal⟩ :=
          keptInFront splitter (faces.get splitter) (by simp) atSplitter
        refine .split selected divided frontAccounts backAccounts accounts sources
          ((frontPerm.append backPerm).trans perm) account own ?_
        rw [equal]
        exact (List.sublist_flatten_of_mem (List.mem_map_of_mem member)).subperm.trans
          frontPerm.symm.subperm

end Tree

namespace Partition

variable {limit : Nat} {select : Selector} {faces : List Face} {partition : Partition}

/-- A partition holds the fragments of the faces of which it is built. -/
theorem exists_accounts_of_build (built : build limit select faces = .ok partition) :
    ∃ (planes : List Plane) (accounts : List (Fragmentation planes)),
      accounts.map source = faces ∧ partition.faces.Perm (accounts.flatMap fragments) := by
  rw [Partition.faces]
  rcases build_eq_ok built with ⟨rfl, unrooted⟩ | ⟨nonempty, _, tree, treeBuilt, rooted⟩
  · rw [unrooted]
    exact ⟨[], [], rfl, .nil⟩
  · rw [rooted]
    exact ⟨tree.planes, (Tree.accounts_of_build nonempty treeBuilt).exists_accounts⟩

end Partition

/-- A partition accounts for the faces of which it is built.  Its leaves, in the order of a
walk, hold a permutation of all fragments of all faces; so it has as many faces as were
given and cuts were made, each with the normal and the surface of the face it comes from.
The same holds at every node, and no leaf is empty. -/
theorem partition_accounts_for_faces {limit : Nat} {select : Selector} {faces : List Face}
    {partition : Partition} {tree : Tree}
    (built : Partition.build limit select faces = .ok partition)
    (rooted : partition.root? = some tree) :
    (∃ accounts : List (Fragmentation tree.planes),
      accounts.map source = faces ∧
      partition.faces.Perm (accounts.flatMap fragments) ∧
      partition.faceCount = faces.length + (accounts.map cuts).sum ∧
      ∀ account ∈ accounts, ∀ fragment ∈ account.fragments,
        fragment.normal = account.source.normal ∧
        fragment.surface = account.source.surface) ∧
    Tree.Accounts select faces tree ∧
    ∀ leaf ∈ tree.leaves, leaf ≠ [] := by
  rcases Partition.build_eq_ok built with ⟨_, unrooted⟩ | ⟨nonempty, _, same, treeBuilt, sameRoot⟩
  · rw [unrooted] at rooted
    cases rooted
  · obtain rfl : same = tree := by
      rw [sameRoot] at rooted
      exact Option.some.inj rooted
    have accounted := Tree.accounts_of_build nonempty treeBuilt
    obtain ⟨accounts, sources, perm⟩ := accounted.exists_accounts
    refine ⟨⟨accounts, sources, ?_, ?_, ?_⟩, accounted, accounted.leaf_ne_nil⟩
    · simpa [Partition.faces, rooted] using perm
    · have count : partition.faceCount = same.faces.length := by
        simp [Partition.faceCount, rooted, Tree.faceCount_eq_length_faces]
      rw [count, perm.length_eq, length_flatMap, ← sources, List.length_map]
    · intro account _
      exact account.derived.keeps_paint

section Example

def floorTriangle : Face :=
  .plainTriangle ⟨⟨-65536⟩, ⟨0⟩, ⟨-65536⟩⟩ ⟨⟨0⟩, ⟨0⟩, ⟨65536⟩⟩ ⟨⟨65536⟩, ⟨0⟩, ⟨-65536⟩⟩
    ⟨⟨0⟩, ⟨65536⟩, ⟨0⟩⟩ (.flat 1)

def crossingTriangle : Face :=
  .plainTriangle ⟨⟨0⟩, ⟨-65536⟩, ⟨0⟩⟩ ⟨⟨65536⟩, ⟨-65536⟩, ⟨0⟩⟩ ⟨⟨0⟩, ⟨65536⟩, ⟨0⟩⟩
    ⟨⟨0⟩, ⟨0⟩, ⟨65536⟩⟩ (.flat 2)

/-- The partition of a floor and a wall that runs through it has both halves of each. -/
theorem partition_accounts_for_floor_and_wall :
    ∃ partition tree,
      Partition.build 3 (Splitter.leastCost 6) [floorTriangle, crossingTriangle] =
        .ok partition ∧
      partition.root? = some tree ∧ partition.faceCount = 4 ∧
      Tree.Accounts (Splitter.leastCost 6) [floorTriangle, crossingTriangle] tree := by
  have counts : (Partition.build 3 (Splitter.leastCost 6)
      [floorTriangle, crossingTriangle]).toOption.map Partition.faceCount = some 4 := by
    decide +kernel
  cases built : Partition.build 3 (Splitter.leastCost 6) [floorTriangle, crossingTriangle] with
  | error cause =>
      rw [built] at counts
      cases counts
  | ok partition =>
      rw [built] at counts
      have count : partition.faceCount = 4 := Option.some.inj counts
      cases rooted : partition.root? with
      | none => simp [Partition.faceCount, rooted] at count
      | some tree =>
          exact ⟨partition, tree, rfl, rooted, count,
            (partition_accounts_for_faces built rooted).2.1⟩

end Example

end PaintOrder
