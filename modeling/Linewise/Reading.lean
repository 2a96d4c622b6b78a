import Linewise.Text.Blank

/-! What reading a path can give. Whoever runs a check brings the reader: one reads from a
`FileTree`, the command line reads from the disk. -/

namespace Linewise

inductive ReadFault
  | missing
  | throughFile
  | directory
  | notUnicode
  | other (reason : String)
  deriving DecidableEq, Repr

def ReadFault.message : ReadFault → String
  | missing => "No such file or directory (os error 2)"
  | throughFile => "Not a directory (os error 20)"
  | directory => "Is a directory (os error 21)"
  | notUnicode => "stream did not contain valid UTF-8"
  | other reason => reason

abbrev Reader (m : Type → Type) :=
  Text → m (Except ReadFault Text)

def decode (bytes : ByteArray) : Except ReadFault Text :=
  match String.fromUTF8? bytes with
  | none => .error .notUnicode
  | some content => .ok content.toList

end Linewise
