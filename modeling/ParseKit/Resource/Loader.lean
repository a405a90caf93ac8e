import ParseKit.Automaton.Decode
import ParseKit.Resource.FileTree

/-!
Loading the binary resources that a parser needs. A resource has a name and belongs to a module
of the program; its bytes come from a `Bundle`, in which names are global, or from a file in the
module's folder.
-/

namespace ParseKit

inductive LoadError where
  | notFound (owner name : String)
  | unreadable (path : Path) (failure : FileFailure)
  | malformed (name : String) (fault : Fault)
deriving DecidableEq

def LoadError.message : LoadError → String
  | notFound owner name => "resource `" ++ name ++ "` not found for module `" ++ owner ++ "`"
  | unreadable path failure => "cannot read resource " ++ path.text ++ ": " ++ failure.message
  | malformed name fault => "malformed automaton `" ++ name ++ "`: " ++ fault.message

/-- A source of resources: the bytes of a name, asked by the module that owns it. -/
class ResourceLoader (σ : Type) where
  load : σ → (owner name : String) → Except LoadError ByteArray

def loadAutomaton {σ : Type} [ResourceLoader σ] (loader : σ) (owner name : String) :
    Except LoadError Automaton := do
  let bytes ← ResourceLoader.load loader owner name
  (Automaton.decode bytes).mapError (.malformed name)

/-! ### Bundles -/

structure Bundle where
  blobs : List (String × ByteArray)

namespace Bundle

def empty : Bundle := ⟨[]⟩

def insert (b : Bundle) (name : String) (bytes : ByteArray) : Bundle :=
  ⟨(name, bytes) :: b.blobs.filter fun (other, _) => other != name⟩

def length (b : Bundle) : Nat := b.blobs.length

def isEmpty (b : Bundle) : Bool := b.blobs.isEmpty

instance : ResourceLoader Bundle where
  load b owner name :=
    match b.blobs.lookup name with
    | some bytes => .ok bytes
    | none => .error (.notFound owner name)

end Bundle

/-! ### Folders -/

/-- Resources in files next to the modules that own them; module paths count from `root` if
there is one. -/
structure ModuleFolders where
  root : Option Path
  files : FileTree

namespace ModuleFolders

def pathOf (f : ModuleFolders) (owner name : String) : Path :=
  let folder := (Path.mk owner).folder
  match f.root with
  | some root => (root.join folder).join ⟨name⟩
  | none => folder.join ⟨name⟩

instance : ResourceLoader ModuleFolders where
  load f owner name :=
    match f.files.read (f.pathOf owner name) with
    | .ok bytes => .ok bytes
    | .error .missing => .error (.notFound owner name)
    | .error failure => .error (.unreadable (f.pathOf owner name) failure)

end ModuleFolders

end ParseKit
