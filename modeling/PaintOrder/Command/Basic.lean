import PaintOrder.Model.Compile
import PaintOrder.Model.Listing
import PaintOrder.Model.Recover

/-!
# Commands on model files

A command lists a model file, or recovers its model and compiles it again into another file.
Files are reached through two functions that a caller provides, so that a command can be
run on real files as well as on a directory held in memory.  Nothing is written unless all
else has succeeded.
-/

namespace PaintOrder

inductive Command where
  /-- Lists the model in a file. -/
  | dump (input : String) (showFaces : Bool)
  /-- Compiles the model in a file again and writes it to a file. -/
  | recompile (input output : String) (spanWeight : Nat)
  deriving DecidableEq, Repr

/-- Why a command has failed.  A refused access to a file has a reason in words. -/
inductive Failure where
  | reading (path reason : String)
  | decompiling (path : String) (cause : Error)
  | compiling (path : String) (cause : Error)
  /-- The new code is not well formed. -/
  | checking (cause : Error)
  | writing (path reason : String)
  deriving DecidableEq, Repr

/-- How files are read and written; an access that is refused gives a reason. -/
structure FileAccess (m : Type → Type) where
  read : (path : String) → m (Except String (Array UInt8))
  write : (path : String) → Array UInt8 → m (Except String Unit)

structure Outcome where
  exitCode : UInt32
  output : String
  errors : String
  deriving DecidableEq, Repr

namespace Failure

def context : Failure → String
  | .reading path _ => s!"reading {path}"
  | .decompiling path _ => s!"decompiling {path}"
  | .compiling path _ => s!"compiling {path}"
  | .checking _ => "reading back compiled model"
  | .writing path _ => s!"writing {path}"

def reason : Failure → String
  | .reading _ reason => reason
  | .decompiling _ cause => cause.message
  | .compiling _ cause => cause.message
  | .checking cause => cause.message
  | .writing _ reason => reason

def report (failure : Failure) : String :=
  s!"Error: {failure.context}\n\nCaused by:\n    {failure.reason}\n"

end Failure

/-- What is shown of a command: its output, or a report with exit code 1. -/
def Outcome.ofResult : Except Failure String → Outcome
  | .ok output => ⟨0, output, ""⟩
  | .error failure => ⟨1, "", failure.report⟩

namespace Command

def load (path : String) (data : Array UInt8) : Except Failure Model :=
  (Model.decompile data).mapError (.decompiling path)

/-- The code of the model that some code holds, compiled again and checked. -/
def recompiled (limit : Nat) (path : String) (spanWeight : Nat) (data : Array UInt8) :
    Except Failure (Array UInt8) := do
  let model ← load path data
  let compiled ← (model.compile limit { spanWeight := spanWeight }).mapError (.compiling path)
  let _ ← (Model.decompile compiled.data).mapError .checking
  return compiled.data

/-- Carries out a command and gives its output.  Splits may nest less than `limit` deep. -/
def perform [Monad m] (limit : Nat) (files : FileAccess m) : Command → ExceptT Failure m String
  | .dump input showFaces => do
      let data ← ExceptT.mk <| (Except.mapError (.reading input)) <$> files.read input
      let model ← ExceptT.mk <| pure (load input data)
      return model.listing showFaces
  | .recompile input output spanWeight => do
      let data ← ExceptT.mk <| (Except.mapError (.reading input)) <$> files.read input
      let code ← ExceptT.mk <| pure (recompiled limit input spanWeight data)
      ExceptT.mk <| (Except.mapError (.writing output)) <$> files.write output code
      return ""

def run [Monad m] (limit : Nat) (files : FileAccess m) (command : Command) : m Outcome :=
  Outcome.ofResult <$> (command.perform limit files).run

end Command

end PaintOrder
