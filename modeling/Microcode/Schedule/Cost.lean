import Microcode.Dataflow.Effect

/-!
An estimate of the cycles that lines of code take.  A scalar and a vector instruction can start in one
cycle, unless the second reads what the first writes; a result is there after a fixed latency.
-/

namespace Microcode

structure Issue where
  cycle : Nat
  isVector : Bool
  isPaired : Bool
  writes : LocationSet

structure Pipeline where
  /-- When results are there, the latest first. -/
  results : List (LocationSet × Nat) := []
  /-- The cycle after the last. -/
  finish : Nat := 0
  last : Option Issue := none

def readyAt : List (LocationSet × Nat) → LocationSet → Nat
  | [], _ => 0
  | (written, cycle) :: earlier, wanted =>
    if wanted.isEmpty then 0
    else if written.intersects wanted then
      max cycle (readyAt earlier (wanted.without written))
    else readyAt earlier wanted

namespace Pipeline

def slot (p : Pipeline) (isVector : Bool) (reads : LocationSet) : Nat × Bool :=
  let ready := readyAt p.results reads
  match p.last with
  | none => (max ready p.finish, false)
  | some last =>
    if last.isVector != isVector && !last.isPaired && !last.writes.intersects reads && ready ≤ last.cycle then
      (last.cycle, true)
    else (max ready (last.cycle + 1), false)

/-- The state after a line.  What is no instruction ends the pairing. -/
def step (p : Pipeline) : Line → Pipeline
  | .op i =>
    let e := i.effect
    let isVector := i.opcode.isVectorUnit
    let (cycle, paired) := p.slot isVector e.reads
    { results := (e.writes, cycle + i.opcode.latency) :: p.results
      finish := max p.finish (cycle + 1)
      last := some ⟨cycle, isVector, paired, e.writes⟩ }
  | _ => { p with last := none }

end Pipeline

def estimateCycles (lines : List Line) : Nat := (lines.foldl Pipeline.step {}).finish

end Microcode
