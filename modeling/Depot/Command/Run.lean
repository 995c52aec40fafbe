import Depot.Command.Arguments
import Depot.Storage

/-!
# Running a command

A command takes the storage that its arguments name and does one operation. It ends with status 0,
with 1 and a text where the operation failed, and with 2 where its arguments make no sense.

`run` is the whole of `gz-storage` behind its arguments; out of scope is what is logged.
-/

namespace Depot.Command

/-- How a command ended. -/
structure Outcome where
  status : Nat
  output : Content
  failure : Option String

/-- Why a command failed. -/
inductive Failure where
  | storage (e : StorageError)
  | output (kind : IoKind)

/-- The text of a failure. -/
def Failure.message : Failure → String
  | .storage e => e.message
  | .output kind => kind.text

/-- Writes a file that was fetched. -/
def writeOutput (path : Path) (content : Content) : Procedure (Except IoKind Unit) := do
  match ← Procedure.ofCall (.create path) with
  | .error k => return .error k
  | .ok file => Procedure.ofCall (.write file content)

/-- Does an operation and gives what it prints. -/
def perform (storage : Storage) (r : Resource) :
    Operation → ExceptT Failure Procedure Content
  | .uploadDir dir => do
    let () ← (storage.uploadDir r dir).adapt .storage
    return .empty
  | .uploadZip bundle => do
    let () ← (storage.uploadZip r bundle).adapt .storage
    return .empty
  | .download => do
    let link ← (storage.download r).adapt .storage
    return .plain (Text.encode (link.display ++ "\n"))
  | .getFile path out => do
    let content ← (storage.getFile r path).adapt .storage
    match out with
    | none => return content
    | some file => do
      let () ← ExceptT.mk ((writeOutput file content).bind fun r => .done (r.mapError .output))
      return .empty

/-- Runs a command line. -/
def run (env : Environment) (args : List Bytes) : Procedure Outcome := do
  match Arguments.read? args with
  | none => return ⟨2, .empty, none⟩
  | some a =>
    let action : ExceptT Failure Procedure Content := do
      let storage ← (Storage.connect env a.config).adapt .storage
      perform storage a.resource a.operation
    match ← action.run with
    | .ok output => return ⟨0, output, none⟩
    | .error e => return ⟨1, .empty, some e.message⟩

end Depot.Command
