import MorphLex.Transducer.Basic

/-!
The AT&T text format: a line of five columns for each arc, state by state, then
a line of two columns for each final state. Columns are parted by tabs.
-/

namespace MorphLex

namespace Symbol

/-- The spelling of a symbol in a column: epsilon, space and tab have names. -/
def column (symbol : Symbol) : String :=
  if symbol.isEpsilon then "@0@"
  else if symbol == " " then "@_SPACE_@"
  else if symbol == "\t" then "@_TAB_@"
  else symbol

end Symbol

namespace Transducer

def arcLine (source : StateId) (arc : Arc) : String :=
  "\t".intercalate
    [toString source, toString arc.target, arc.input.column, arc.output.column,
      arc.weight.text] ++ "\n"

def finalLine (state : StateId) (weight : Weight) : String :=
  "\t".intercalate [toString state, weight.text] ++ "\n"

def attText (t : Transducer) : String :=
  let arcs := t.states.toList.zipIdx.flatMap fun (state, source) =>
    state.arcs.toList.map (arcLine source)
  let finals := t.finals.map fun (state, weight) => finalLine state weight
  String.join (arcs ++ finals)

end Transducer

end MorphLex
