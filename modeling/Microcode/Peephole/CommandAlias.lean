import Microcode.Machine.Code

/-!
Commands that only jump elsewhere.  Such a command needs no code: its entry in the dispatch table can
point at the target.
-/

namespace Microcode

def Code.symbols (c : Code) : List String := c.lines.flatMap fun l =>
    match l.instruction? with
    | some i => i.args.filterMap Arg.symbol?
    | none => []

def Code.forward? (c : Code) : Option String := match c.lines with
  | [.op jump, .op slot] =>
    if c.isCommand && jump.opcode == .j && slot.isNop then
      jump.target?.filter fun t => t ≠ c.name && t ≠ dispatchLoop
    else none
  | _ => none

/-- The commands that can do without code, with their targets.  A command that an instruction names keeps
its code, so the target of one is never another. -/
def forwards (codes : List Code) : List (String × String) := codes.filterMap fun c =>
    if (codes.any (·.symbols.contains c.name)) then none else c.forward?.map (c.name, ·)

def Code.forwarded (table : List (String × String)) (c : Code) : Code := match table.lookup c.name with
  | some target => { c with aliasOf := some target, lines := [] }
  | none => c

def aliasCommands (codes : List Code) : List Code := codes.map (·.forwarded (forwards codes).reverse)

end Microcode
