import Linewise.Path
import Linewise.Reading
import Linewise.Toml.Document

/-! Settings come from a file, and a file that cannot be used is as good as none. -/

namespace Linewise

structure Settings where
  /-- Says which events are worth showing. -/
  logFilter : Text := ['w', 'a', 'r', 'n']
  /-- Only files with this extension are checked, if one is set. -/
  extension? : Option Text := none
  deriving DecidableEq, Repr

namespace Settings

/-- The name of the settings file in a directory. -/
def fileName : Text :=
  ['s', 'j', 'a', 'v', 'a', 'c', '.', 't', 'o', 'm', 'l']

def logFilterKey : Text :=
  ['l', 'o', 'g', '_', 'f', 'i', 'l', 't', 'e', 'r']

def extensionKey : Text :=
  ['s', 'o', 'u', 'r', 'c', 'e', '_', 'e', 'x', 't', 'e', 'n', 's', 'i', 'o', 'n']

/-- The text under a key, which may be missing but may not be anything else. -/
def text? (table : Toml.Table) (key : Text) : Option (Option Text) :=
  match table.get? key with
  | none => some none
  | some (.value (.text t)) => some (some t)
  | some _ => none

/-- Keys that are not known do no harm. Dots before an extension are dropped. -/
def ofTable? (table : Toml.Table) : Option Settings := do
  let logFilter ← text? table logFilterKey
  let extension ← text? table extensionKey
  let defaults : Settings := {}
  some ⟨logFilter.getD defaults.logFilter, extension.map fun t => t.dropWhile (· == '.')⟩

def ofText? (t : Text) : Option Settings :=
  (Toml.document? t).bind ofTable?

/-- The path is one of a settings file or of the directory that holds one. -/
def load {m : Type → Type} [Monad m] (read : Reader m) (path : Text) : m Settings := do
  match ← read path with
  | .ok found => pure ((ofText? found).getD {})
  | .error .directory =>
    match ← read (Path.child path fileName) with
    | .ok found => pure ((ofText? found).getD {})
    | .error _ => pure {}
  | .error _ => pure {}

/-- The extension that is wanted of a file and that its path lacks. -/
def unmetExtension? (settings : Settings) (path : Text) : Option Text :=
  match settings.extension? with
  | none => none
  | some expected => if Path.extension? path = some expected then none else some expected

def accepts (settings : Settings) (path : Text) : Bool :=
  (settings.unmetExtension? path).isNone

end Settings
end Linewise
