import Blockwork.Network.Basic

/-!
# Star references

The text `@declaration.prefix*` stands for all outputs of a declaration whose names start
with the prefix. A parameter with a star reference is replaced by one copy for each such
output, in the order of the outputs, in which the star reference is a plain reference to the
output. Without such outputs the parameter is gone.
-/

namespace Blockwork

/-- Whether a text is a star reference. -/
def isStarText (s : String) : Bool :=
  s.toList.head? == some '@' && s.toList.getLast? == some '*'

/-- Whether the text of an attribute is a star reference. -/
def Slot.isStar (s : Slot) : Bool :=
  s.raw.any isStarText

/-- The declaration and the beginning of an output's name in a star reference. -/
def starParts? (star : String) : Option (String × List Char) :=
  match splitAt '.' (star.toList.drop 1).dropLast with
  | [name, start] => some (String.ofList name, start)
  | _ => none

/-- The attribute with one text replaced by another. -/
def Slot.substitute (s : Slot) (star reference : String) : Slot :=
  if s.raw = some star then { s with raw := some reference } else s

namespace Parameter

/-- The star references of a parameter. -/
def stars (p : Parameter) : List String :=
  (p.slots.filter Slot.isStar).filterMap Slot.raw

/-- The parameter with one text replaced by another in all its attributes. -/
def substitute (p : Parameter) (star reference : String) : Parameter :=
  { p with slots := p.slots.map fun s => s.substitute star reference }

end Parameter

/-- How the outputs whose names start in a certain way are referred to. -/
def Declaration.referencesTo (d : Declaration) (start : List Char) : List String :=
  (d.outputs.filter fun o => start.isPrefixOf o.name.toList).map Output.referenceName

namespace Network

variable (n : Network)

/-- The declaration of a name, the last one if there are several. -/
def declarationNamed? (name : String) : Option Declaration :=
  n.declarations.reverse.find? fun d => d.name == name

/-- The references a star reference stands for. -/
def starReferences (d : Declaration) (star : String) : Except Fault (List String) :=
  match starParts? star with
  | none => reject (.illegalStar star) d.location
  | some (name, start) =>
    match n.declarationNamed? name with
    | none => reject (.unknownStarDeclaration star name) d.location
    | some target => .ok (target.referencesTo start)

/-- The parameters that replace a parameter. All its star references have to be the same. -/
def expandParameter (d : Declaration) (p : Parameter) : Except Fault (List Parameter) :=
  match p.stars with
  | [] => .ok [p]
  | star :: stars =>
    if stars.all (· == star) then do
      let references ← n.starReferences d star
      return references.map (p.substitute star)
    else reject (.severalStars p.name d.name) d.location

/-- The declaration with its star references expanded. One without any stays as it is. -/
def expandDeclaration (d : Declaration) : Except Fault Declaration :=
  if d.parameters.all fun p => p.stars.isEmpty then .ok d
  else do
    let parameters ← d.parameters.mapM (n.expandParameter d)
    return { d with parameters := parameters.flatten }.indexPipelines

/-- The network with all star references expanded. The names and outputs of declarations do
not change, so each is expanded by itself. -/
def expandStars : Except Fault Network := do
  let declarations ← n.declarations.mapM n.expandDeclaration
  return { n with declarations }

end Network

end Blockwork
