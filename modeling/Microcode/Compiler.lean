import Microcode.Lowering.Program
import Microcode.Optimizer
import Microcode.Overlay
import Microcode.Program.Plain

/-!
From a source text to the text of an overlay.
-/

namespace Microcode

structure Compiled where
  text : String
  warnings : List Warning

def Program.ofSource (source : String) (defines : Source.Defines) (loader : Source.Loader) :
    Except CompileError Program := do
  let text ← (Source.expand source defines loader).mapError .source
  let tokens ← (Token.ofText text).mapError .lex
  (Program.ofTokens tokens).mapError .parse

def compile (source : String) (options : Options) (defines : Source.Defines)
    (loader : Source.Loader) : Except CompileError Compiled := do
  let program ← Program.ofSource source defines loader
  let plain ← program.plain
  let (codes, warnings) ← plain.lower options
  let codes ← (optimizeAll options codes).mapError .internal
  pure ⟨if options.dispatchWrapper then overlayText plain codes else routinesText codes, warnings⟩

end Microcode
