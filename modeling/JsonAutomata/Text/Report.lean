/-!
# Reports — what went wrong, and why

A report says what was being done and then, one after another, what went wrong and what that goes
back to. Every part is a single line.
-/

namespace JsonAutomata

structure Report where
  context : String
  /-- What went wrong, each cause followed by what it goes back to. -/
  causes : List String
  deriving DecidableEq, Repr

namespace Report

/-- The lines of causes: numbered if there are several. -/
def causeLines : List String → List String
  | [cause] => [s!"    {cause}"]
  | causes => causes.mapIdx fun i cause => s!"    {i}: {cause}"

def lines (r : Report) : List String :=
  s!"Error: {r.context}" :: match r.causes with
    -- A blank line sets the causes apart.
    | [] => []
    | causes => "" :: "Caused by:" :: causeLines causes

def display (r : Report) : String := String.join (r.lines.map (· ++ "\n"))

def summary (r : Report) : String := ": ".intercalate (r.context :: r.causes)

end Report

end JsonAutomata
