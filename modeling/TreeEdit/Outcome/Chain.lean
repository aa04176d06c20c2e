import TreeEdit.Outcome.Basic

/-!
# Chains of work on a number

A number, there at once or after some polls, with stages of work put behind it one by one. Numbers
are 64 bits wide and wrap.
-/

namespace TreeEdit

/-- A number with the notes of the work on it. -/
abbrev NumberOutcome := Outcome String Int64

/-- A number under a label: there at once, or pending for a number of polls and then noted as ready. -/
def NumberOutcome.source (label : String) (value : Int64) : Option Nat → NumberOutcome
  | none => .immediate value
  | some n => .deferred ((Later.ready [label ++ " ready"] value).after n)

inductive Stage where
  | add (n : Int64)
  /-- Multiplies, and gives the product as a source of its own. -/
  | multiplyThen (n : Int64) (polls : Option Nat)

/-- Puts a stage with the given index behind an outcome. -/
def Stage.appendTo (index : Nat) (o : NumberOutcome) : Stage → Noted String NumberOutcome
  | add n => o.map fun v => (["map " ++ toString index], v + n)
  | multiplyThen n polls =>
    let label := "then " ++ toString index
    o.andThen fun v => ([label], NumberOutcome.source label (v * n) polls)

/-- A finished chain: the outcome after each stage but the last, the outcome after the last, and the
notes that were left while the stages were put together. -/
structure Chain where
  earlier : List NumberOutcome
  last : NumberOutcome
  notes : List String

namespace Chain

/-- Puts stages behind an outcome, the first of them under the given index. -/
def build (o : NumberOutcome) (index : Nat) : List Stage → Chain
  | [] => { earlier := [], last := o, notes := [] }
  | stage :: stages =>
    let (notes, next) := stage.appendTo index o
    let chain := build next (index + 1) stages
    { chain with earlier := o :: chain.earlier, notes := notes ++ chain.notes }

/-- The outcomes from the start on. -/
def outcomes (c : Chain) : List NumberOutcome := c.earlier ++ [c.last]

end Chain

end TreeEdit
