/-!
Texts inside texts.
-/

namespace Microcode.Text

def occursIn (wanted : List Char) : List Char → Bool
  | [] => wanted.isEmpty
  | c :: rest => wanted.isPrefixOf (c :: rest) || occursIn wanted rest

def mentions (text wanted : String) : Bool := occursIn wanted.toList text.toList

end Microcode.Text
