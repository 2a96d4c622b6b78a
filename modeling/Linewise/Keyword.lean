import Linewise.Text.Blank

/-! The words of the language that are not names, spelled out as text. -/

namespace Linewise.Keyword

def void : Text := ['v', 'o', 'i', 'd']

def final : Text := ['f', 'i', 'n', 'a', 'l']

def branch : Text := ['i', 'f']

def loop : Text := ['w', 'h', 'i', 'l', 'e']

def ret : Text := ['r', 'e', 't', 'u', 'r', 'n']

def truth : Text := ['t', 'r', 'u', 'e']

def falsity : Text := ['f', 'a', 'l', 's', 'e']

end Linewise.Keyword
