/-!
# Outcomes

A value that is there at once, or that comes after a number of polls. Work put behind an outcome is
done at once while the value is there, and otherwise in the poll that brings the value.
* `Outcome.map` and `Outcome.andThen` put work behind an outcome; the result is immediate just when
  everything before it was.
* Work leaves notes, so that the order in which it was done can be seen.
-/

namespace TreeEdit

/-- The result of some work with the notes that it left. -/
abbrev Noted (ω α : Type) := List ω × α

/-- A value to come, poll by poll, with the notes of each poll. -/
inductive Later (ω α : Type) where
  /-- The next poll brings the value. -/
  | ready (notes : List ω) (value : α)
  /-- The next `polls` polls bring nothing yet. The notes are those of the next poll, whichever it
  is. -/
  | pending (notes : List ω) (polls : Nat) (next : Later ω α)

/-- A value that is there at once or comes later. -/
inductive Outcome (ω α : Type) where
  | immediate (value : α)
  | deferred (later : Later ω α)

namespace Later

variable {ω α β : Type}

/-- Puts notes before those of the next poll. -/
def noteFirst (notes : List ω) : Later ω α → Later ω α
  | ready own a => ready (notes ++ own) a
  | pending own n l => pending (notes ++ own) n l

/-- Waits for a number of polls first. -/
def after (l : Later ω α) (n : Nat) : Later ω α := pending [] n l

/-- Does more work in the poll that brings the value. -/
def map (work : α → Noted ω β) : Later ω α → Later ω β
  | ready notes a =>
    let (more, b) := work a
    ready (notes ++ more) b
  | pending notes n l => pending notes n (l.map work)

/-- Goes on with another outcome in the poll that brings the value. -/
def andThen (work : α → Noted ω (Outcome ω β)) : Later ω α → Later ω β
  | ready notes a =>
    match work a with
    | (more, .immediate b) => ready (notes ++ more) b
    | (more, .deferred l) => l.noteFirst (notes ++ more)
  | pending notes n l => pending notes n (l.andThen work)

/-- All notes in order. -/
def notes : Later ω α → List ω
  | ready own _ => own
  | pending own _ l => own ++ l.notes

/-- The number of polls up to the value. -/
def polls : Later ω α → Nat
  | ready _ _ => 1
  | pending _ n l => n + l.polls

def value : Later ω α → α
  | ready _ a => a
  | pending _ _ l => l.value

end Later

namespace Outcome

variable {ω α β : Type}

def isDeferred : Outcome ω α → Bool
  | immediate _ => false
  | deferred _ => true

def immediate? : Outcome ω α → Option α
  | immediate a => some a
  | deferred _ => none

/-- Works on the value and leaves it as it was, there or to come. -/
def map (work : α → Noted ω β) : Outcome ω α → Noted ω (Outcome ω β)
  | immediate a =>
    let (notes, b) := work a
    (notes, immediate b)
  | deferred l => ([], deferred (l.map work))

/-- Goes on with the outcome that the work on the value gives. -/
def andThen (work : α → Noted ω (Outcome ω β)) : Outcome ω α → Noted ω (Outcome ω β)
  | immediate a => work a
  | deferred l => ([], deferred (l.andThen work))

/-- The wait for the value. A value that is there comes with the first poll. -/
def toLater : Outcome ω α → Later ω α
  | immediate a => .ready [] a
  | deferred l => l

/-- The text of an outcome, given the text of its value. -/
def debug (text : α → String) : Outcome ω α → String
  | immediate a => "Immediate(" ++ text a ++ ")"
  | deferred _ => "Deferred(..)"

end Outcome

end TreeEdit
