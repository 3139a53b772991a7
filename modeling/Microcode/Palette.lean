import Microcode.Text.Numeral

/-!
Colours of a terminal.  A palette that is not enabled leaves every text as it is.
-/

namespace Microcode

structure Palette where
  enabled : Bool
deriving DecidableEq, Repr

namespace Palette

def paint (p : Palette) (code text : String) : String :=
  if p.enabled then "\x1b[" ++ code ++ "m" ++ text ++ "\x1b[0m" else text

def bold (p : Palette) (text : String) : String := p.paint "1" text

def red (p : Palette) (text : String) : String := p.paint "31" text

def green (p : Palette) (text : String) : String := p.paint "32" text

def yellow (p : Palette) (text : String) : String := p.paint "33" text

def cyan (p : Palette) (text : String) : String := p.paint "36" text

def gray (p : Palette) (text : String) : String := p.paint "90" text

def status (p : Palette) (word : String) : String := p.paint "1;32" (Text.padLeft ' ' 12 word)

end Palette
end Microcode
