import MorphLex.Pattern.Parse
import MorphLex.Transducer.Splice

/-!
Patterns as identity transducers. Every part is added between a given state and
a new end state; an atom has an entry state of its own, so that the arcs of its
quantifier repeat or skip this atom alone.
-/

namespace MorphLex

namespace Transducer

def addSilent (t : Transducer) (source target : StateId) : Transducer :=
  t.addArc source (Arc.silent target 0.0)

def addChoice (t : Transducer) (source : StateId) (characters : List Char) : Transducer :=
  let target := t.size
  characters.foldl
    (fun t character => t.addArc source (Arc.identity (Symbol.ofChar character) target))
    t.addState

end Transducer

namespace Pattern

/-- The arcs of a quantifier between entry and exit of its atom: back for a
repetition, then forward for an omission. -/
def Quantifier.link (t : Transducer) (entry exit : StateId) : Quantifier → Transducer
  | .once => t
  | .oneOrMore => t.addSilent exit entry
  | .zeroOrMore => (t.addSilent exit entry).addSilent entry exit
  | .atMostOnce => t.addSilent entry exit

mutual

def Atom.build (alphabet : CharSet) (t : Transducer) (entry : StateId) : Atom → Transducer × StateId
  | .literal character =>
      let exit := t.size
      (t.addChoice entry [character], exit)
  | .oneOf cls =>
      let exit := t.size
      (t.addChoice entry (cls.members alphabet).toList, exit)
  | .nested group => group.build alphabet t entry

def Sequence.build (alphabet : CharSet) (t : Transducer) (source : StateId) :
    Sequence → Transducer × StateId
  | .empty => (t, source)
  | .cons atom quantifier rest =>
      let entry := t.size
      let (t, exit) := atom.build alphabet (t.addState.addSilent source entry) entry
      rest.build alphabet (quantifier.link t entry exit) exit

/-- Adds the alternatives after a state and returns their common end state,
which is new once the first alternative is in place. -/
def Group.build (alphabet : CharSet) (t : Transducer) (source : StateId) :
    Group → Transducer × StateId
  | .only sequence =>
      let (t, last) := sequence.build alphabet t source
      let exit := t.size
      (t.addState.addSilent last exit, exit)
  | .either sequence others =>
      let (t, last) := sequence.build alphabet t source
      let exit := t.size
      (others.buildInto alphabet (t.addState.addSilent last exit) source exit, exit)

def Group.buildInto (alphabet : CharSet) (t : Transducer) (source target : StateId) :
    Group → Transducer
  | .only sequence =>
      let (t, last) := sequence.build alphabet t source
      t.addSilent last target
  | .either sequence others =>
      let (t, last) := sequence.build alphabet t source
      others.buildInto alphabet (t.addSilent last target) source target

end

/-- The transducer of a whole pattern; its end state is final without weight. -/
def Group.transducer (alphabet : CharSet) (group : Group) : Transducer :=
  let (t, last) := group.build alphabet Transducer.initial 0
  t.setFinal last 0.0

/-- The transducer that copies exactly the words of a pattern. -/
def compile (alphabet : CharSet) (text : String) : Except Fault Transducer := do
  let group ← parse alphabet text
  return group.transducer alphabet

end Pattern

end MorphLex
