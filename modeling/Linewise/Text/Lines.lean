import Linewise.Text.Blank

/-! A text is cut into lines at line feeds. A carriage return belongs to the break only
directly before a line feed; anywhere else it is a character of its line. -/

namespace Linewise.Text

/-- A break at the very end opens no further line. -/
def lines : Text → List Text
  | [] => []
  | c :: rest =>
    if c = '\n' then [] :: lines rest
    else if c = '\r' && rest.head? == some '\n' then lines rest
    else match lines rest with
      | [] => [[c]]
      | line :: others => (c :: line) :: others

end Linewise.Text
