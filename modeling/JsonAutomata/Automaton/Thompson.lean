import JsonAutomata.Automaton.Basic

/-!
# Thompson's construction — compiling terms into automata

A term becomes a fragment that leads from an entry to an exit state:

```text
ε          (entry) --ε--> (exit)
c          (entry) --c--> (exit)
l r        (entry) --l--> (mid) --ε--> (mid') --r--> (exit)
l | r      (entry) --ε--> (in l) --l--> (out l) --ε--> (exit)
           (entry) --ε--> (in r) --r--> (out r) --ε--> (exit)
t*         (entry) --ε--> (in) --t--> (out) --ε--> (exit)
           (entry) --ε--> (exit),  (out) --ε--> (in)
t{n,m}     b0 = entry --t--> b1 --t--> ... --t--> bm = exit
           b(i) --ε--> exit  for every n ≤ i < m
```

The states between entry and exit are numbered depth-first: those that an operator needs itself
come first, then those of its operands from left to right. So the numbers that a fragment uses are
the `interior t` consecutive ones from its first, and terms compiled earlier have lower numbers.
-/

namespace JsonAutomata

namespace Thompson

/-- The number of states between the entry and the exit of a fragment. -/
def interior : Term → Nat
  | .epsilon => 0
  | .one _ => 0
  | .seq l r => 2 + interior l + interior r
  | .alt l r => 4 + interior l + interior r
  | .star t => 2 + interior t
  | .times t _ max _ => (max - 1) * (1 + interior t) + interior t
  | .labeled _ t => interior t

/-- The state after `i` of `max` repetitions that need `size` states each. The entry and the exit
are the outermost of them; the others precede the repetition that leads to them. -/
def boundary (next size max : Nat) (entry exit : State) (i : Nat) : State :=
  if i = 0 then entry
  else if i = max then exit
  else next + (i - 1) * (1 + size)

def innerFirst (next size max i : Nat) : State :=
  if i + 1 = max then next + i * (1 + size) else next + i * (1 + size) + 1

/-- The fragment of a term between two states, where `next` is the first free number. The exit of
a labelled term is final; where labelled terms share an exit, the outermost label stays. -/
def fragment : Term → (next : State) → (entry exit : State) → Automaton
  | .epsilon, _, entry, exit => (Automaton.ofEntry entry).addTransition entry exit .epsilon
  | .one cls, _, entry, exit => (Automaton.ofEntry entry).addTransition entry exit (.consuming cls)
  | .seq l r, next, entry, exit =>
    let left := fragment l (next + 2) entry next
    let right := fragment r (next + 2 + interior l) (next + 1) exit
    (((Automaton.ofEntry entry).absorb left).absorb right).addTransition next (next + 1) .epsilon
  | .alt l r, next, entry, exit =>
    let left := fragment l (next + 4) next (next + 1)
    let right := fragment r (next + 4 + interior l) (next + 2) (next + 3)
    (((Automaton.ofEntry entry).absorb left).absorb right)
      |>.addTransition entry next .epsilon
      |>.addTransition entry (next + 2) .epsilon
      |>.addTransition (next + 1) exit .epsilon
      |>.addTransition (next + 3) exit .epsilon
  | .star t, next, entry, exit =>
    ((Automaton.ofEntry entry).absorb (fragment t (next + 2) next (next + 1)))
      |>.addTransition entry next .epsilon
      |>.addTransition entry exit .epsilon
      |>.addTransition (next + 1) next .epsilon
      |>.addTransition (next + 1) exit .epsilon
  | .times t min max _, next, entry, exit =>
    let stop := boundary next (interior t) max entry exit
    let copy (i : Nat) := fragment t (innerFirst next (interior t) max i) (stop i) (stop (i + 1))
    -- The copies form a chain; each stop from the least number of copies on also leads to the exit.
    let chain := (List.range max).foldl (fun A i => A.absorb (copy i)) (Automaton.ofEntry entry)
    (List.range' min (max - min)).foldl (fun A i => A.addTransition (stop i) exit .epsilon) chain
  | .labeled label t, next, entry, exit => (fragment t next entry exit).markFinal exit label

end Thompson

/-- A source of fresh states. Automata compiled by one builder share no state, so they can be
merged. -/
structure Builder where
  /-- The number of states handed out; the next one has this number. -/
  allocated : Nat
  deriving DecidableEq

namespace Builder

def new : Builder := ⟨0⟩

def fresh (b : Builder) : State × Builder := (b.allocated, ⟨b.allocated + 1⟩)

def buildBetween (b : Builder) (t : Term) (entry exit : State) : Automaton × Builder :=
  (Thompson.fragment t b.allocated entry exit, ⟨b.allocated + Thompson.interior t⟩)

def build (b : Builder) (t : Term) : Automaton × Builder :=
  let (entry, b) := b.fresh
  let (exit, b) := b.fresh
  b.buildBetween t entry exit

def buildAll (b : Builder) : List Term → List Automaton × Builder
  | [] => ([], b)
  | t :: ts =>
    let (A, b) := b.build t
    let (As, b) := b.buildAll ts
    (A :: As, b)

end Builder

end JsonAutomata
