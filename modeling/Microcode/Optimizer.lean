import Microcode.Options
import Microcode.Peephole.CommandAlias
import Microcode.Peephole.Immediate
import Microcode.Peephole.JumpChain
import Microcode.Peephole.Label
import Microcode.Peephole.Merge
import Microcode.Peephole.Reciprocal
import Microcode.Peephole.Tail
import Microcode.Schedule.DelaySlot

/-!
All passes over the code, in order: those that shorten it, then the scheduler, then the filling of delay
slots.  Up to there every branch is followed by an instruction without effect.
-/

namespace Microcode

def optimizeLines (rounds : Nat) (isCommand : Bool) (lines : List Line) : Except Defect (List Line) := do
  let merged ← mergeJumps isCommand (stripComments lines).lines
  let merged ← mergeAsserts merged.lines
  let chained := collapseJumps merged.lines
  let labelled := dedupeLabels chained.lines
  let loaded := dedupeImmediates labelled.lines
  let folded := foldReciprocals loaded.lines
  let called := if isCommand then tailCalls folded.lines else folded
  let cut := cutDeadTail called.lines
  let ordered := reorder rounds cut.lines
  let filled := fillDelaySlots ordered.lines
  checkDelaySlots filled.lines
  pure filled.lines

def Code.optimize (rounds : Nat) (c : Code) : Except Defect Code := do
  let lines ← optimizeLines rounds c.isCommand c.lines
  pure { c with lines }

def optimizeAll (o : Options) (codes : List Code) : Except Defect (List Code) := do
  if !o.optimize then return codes
  let codes ← codes.mapM (Code.optimize o.scheduleRounds)
  pure (aliasCommands codes)

end Microcode
