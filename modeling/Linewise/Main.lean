import Linewise.CommandLine

/-! The command: reads from the disk, and prints what the command line answers. -/

namespace Linewise

def readFault : IO.Error → ReadFault
  | .noFileOrDirectory _ _ _ => .missing
  | .inappropriateType _ code _ => if code = 21 then .directory else .throughFile
  | error => .other (toString error)

def readDisk (path : Text) : IO (Except ReadFault Text) := do
  try
    let bytes ← IO.FS.readBinFile ⟨String.ofList path⟩
    pure (decode bytes)
  catch error => pure (.error (readFault error))

end Linewise

open Linewise in
def main (words : List String) : IO UInt32 := do
  let answer ← CommandLine.run readDisk (words.map String.toList)
  IO.print answer.output
  match answer.complaint? with
  | none => pure ()
  | some complaint => IO.eprintln complaint
  pure answer.status.toUInt32
