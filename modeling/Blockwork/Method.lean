/-!
# Methods

A method is called on an object. It may change the object and it may fail, and the object is there
in both cases: what a method has changed before it fails is not taken back.
-/

namespace Blockwork

/-- A method of objects `σ` that fails with an `ε`. -/
abbrev Method (σ ε : Type) := ExceptT ε (StateM σ)

namespace Method

variable {σ ε α : Type}

/-- What the method answers when it is called on an object. -/
def answer (m : Method σ ε α) (s : σ) : Except ε α :=
  (m.run.run s).1

/-- The object after the call. -/
def after (m : Method σ ε α) (s : σ) : σ :=
  (m.run.run s).2

/-- The object after the call, if it succeeds. -/
def result (m : Method σ ε α) (s : σ) : Except ε σ :=
  (m.answer s).map fun _ => m.after s

end Method

end Blockwork
