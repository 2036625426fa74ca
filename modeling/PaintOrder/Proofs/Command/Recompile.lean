import PaintOrder.Command.Basic
import PaintOrder.Proofs.Model.Recompilation

/-!
# Compiling a file again

Compiling the model in a file again writes a file exactly if it succeeds, and nothing at all
otherwise.  What is written holds the same submodels in the same places, painted in the same
way; faces can only have been cut.
-/

namespace PaintOrder

/-- A directory held in memory: everything that was ever written, the last file first. -/
abbrev Directory := List (String × Array UInt8)

/-- The files of a directory, any of which can be written. -/
def Directory.files : FileAccess (StateM Directory) where
  read path := do
    match (← get).lookup path with
    | some data => return .ok data
    | none => return .error "No such file or directory (os error 2)"
  write path data := do
    modify fun directory => (path, data) :: directory
    return .ok ()

namespace Command

variable {limit spanWeight : Nat} {input output : String} {data code : Array UInt8}

/-- Compiling a model again gives code exactly if it can be recovered, compiled and recovered
again. -/
theorem recompiled_eq_ok :
    recompiled limit input spanWeight data = .ok code ↔
      ∃ model compiled result, Model.decompile data = .ok model ∧
        model.compile limit { spanWeight := spanWeight } = .ok compiled ∧
        Model.decompile compiled.data = .ok result ∧ compiled.data = code := by
  simp only [recompiled, load, bind_eq_ok, mapError_eq_ok, pure_eq_ok]
  constructor
  · rintro ⟨model, decompiled, compiled, succeeds, result, checked, same⟩
    exact ⟨model, compiled, result, decompiled, succeeds, checked, same⟩
  · rintro ⟨model, compiled, result, decompiled, succeeds, checked, same⟩
    exact ⟨model, decompiled, compiled, succeeds, result, checked, same⟩

/-- Code that was compiled again holds the same model. -/
theorem holdsSameModel_of_recompiled
    (succeeds : recompiled limit input spanWeight data = .ok code) :
    Model.HoldsSameModel data code := by
  obtain ⟨model, compiled, result, decompiled, compiles, checked, rfl⟩ :=
    recompiled_eq_ok.mp succeeds
  have restores := Model.restores_of_decompile compiles checked
  exact ⟨model, result, decompiled, checked, restores.size_eq,
    fun index inRange => restores.sameButCut (Model.decompile_root_offset decompiled) inRange⟩

/-- What the command does with a file that can be read. -/
theorem recompile_run (limit spanWeight : Nat) {input : String} (output : String)
    {directory : Directory} (readable : directory.lookup input = some data) :
    ((Command.recompile input output spanWeight).run limit Directory.files).run directory =
      match recompiled limit input spanWeight data with
      | .ok code => (⟨0, "", ""⟩, (output, code) :: directory)
      | .error failure => (⟨1, "", failure.report⟩, directory) := by
  have read : (Directory.files.read input).run directory = pure (.ok data, directory) := by
    simp [Directory.files, readable]
  have written : ∀ code, (Directory.files.write output code).run directory =
      pure (.ok (), (output, code) :: directory) := fun _ => rfl
  cases isCode : recompiled limit input spanWeight data with
  | ok code =>
      simp [run, perform, read, written, isCode, ExceptT.run_bind, Except.mapError,
        Outcome.ofResult]
      rfl
  | error failure =>
      simp [run, perform, read, isCode, ExceptT.run_bind, Except.mapError, Outcome.ofResult]
      rfl

/-- The command succeeds exactly if the file holds a model that can be compiled and recovered
again.  Exactly then a file is written, and otherwise nothing is changed.  What is written is the
code of the model that was read, compiled again, and holds the same model but for cuts. -/
theorem recompile_keeps_model (limit spanWeight : Nat) {input : String} (output : String)
    {directory : Directory} {data : Array UInt8}
    (readable : directory.lookup input = some data) :
    let (outcome, after) :=
      ((Command.recompile input output spanWeight).run limit Directory.files).run directory
    (outcome.exitCode = 0 ↔ ∃ model compiled result, Model.decompile data = .ok model ∧
        model.compile limit { spanWeight := spanWeight } = .ok compiled ∧
        Model.decompile compiled.data = .ok result) ∧
      (outcome.exitCode = 0 ↔ ∃ code, after = (output, code) :: directory) ∧
      (outcome.exitCode ≠ 0 → outcome.exitCode = 1 ∧ after = directory) ∧
      ∀ code, after = (output, code) :: directory → Model.HoldsSameModel data code ∧
        ∃ model compiled result, Model.decompile data = .ok model ∧
          model.compile limit { spanWeight := spanWeight } = .ok compiled ∧
          Model.decompile compiled.data = .ok result ∧ compiled.data = code := by
  rw [recompile_run limit spanWeight output readable]
  cases isCode : recompiled limit input spanWeight data with
  | ok written =>
      obtain ⟨model, compiled, result, decompiles, compiles, checked, _⟩ :=
        recompiled_eq_ok.mp isCode
      refine ⟨iff_of_true rfl ⟨model, compiled, result, decompiles, compiles, checked⟩,
        iff_of_true rfl ⟨written, rfl⟩, fun failed => absurd rfl failed, ?_⟩
      intro code same
      obtain rfl : written = code := by simpa using same
      exact ⟨holdsSameModel_of_recompiled isCode, recompiled_eq_ok.mp isCode⟩
  | error failure =>
      have failed : (⟨1, "", failure.report⟩ : Outcome).exitCode ≠ 0 := by simp
      have unchanged : ∀ code, directory ≠ (output, code) :: directory := by
        intro code same
        exact absurd (congrArg List.length same) (by simp)
      refine ⟨iff_of_false failed ?_, iff_of_false failed ?_, fun _ => ⟨rfl, rfl⟩, ?_⟩
      · rintro ⟨model, compiled, result, decompiles, compiles, checked⟩
        have succeeds : recompiled limit input spanWeight data = .ok compiled.data :=
          recompiled_eq_ok.mpr ⟨model, compiled, result, decompiles, compiles, checked, rfl⟩
        rw [isCode] at succeeds
        cases succeeds
      · rintro ⟨code, same⟩
        exact unchanged code same
      · intro code same
        exact absurd same (unchanged code)

section Example

/-- Compiling the code of a wall, a sheet and a shelf again writes the code of what is recovered
from it, which is the same model though it has a face more. -/
theorem recompile_keeps_cut_sheet : ∃ data code : Array UInt8,
    ((Command.recompile "model.bin" "out.bin" Splitter.defaultSpanWeight).run 4
      Directory.files).run [("model.bin", data)] =
        (⟨0, "", ""⟩, [("out.bin", code), ("model.bin", data)]) ∧
      Model.HoldsSameModel data code ∧
      ∃ model compiled result, Model.decompile data = .ok model ∧
        model.compile 4 { spanWeight := Splitter.defaultSpanWeight } = .ok compiled ∧
        Model.decompile compiled.data = .ok result ∧ compiled.data = code := by
  obtain ⟨compiled, first, rebuilt, second, _, decompiles, compilesAgain, decompilesAgain, _⟩ :=
    Model.sheet_is_cut_twice
  have succeeds : recompiled 4 "model.bin" Splitter.defaultSpanWeight compiled.data =
      .ok rebuilt.data :=
    recompiled_eq_ok.mpr ⟨first, rebuilt, second, decompiles, compilesAgain, decompilesAgain, rfl⟩
  have readable : List.lookup "model.bin" [("model.bin", compiled.data)] = some compiled.data :=
    rfl
  have run := recompile_run 4 Splitter.defaultSpanWeight "out.bin" readable
  rw [succeeds] at run
  have keeps := recompile_keeps_model 4 Splitter.defaultSpanWeight "out.bin" readable
  rw [run] at keeps
  exact ⟨compiled.data, rebuilt.data, run, keeps.2.2.2 rebuilt.data rfl⟩

end Example

end Command

end PaintOrder
