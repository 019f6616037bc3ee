import FourFunction.Expression.Token

/-!
# Chains

A well-formed expression without brackets is a chain: a number, then any number of links, each an
operator with a number. Its value is defined here without a stack: the runs of multiplicative links are
worked out first, and then the terms are added up, both from left to right.
-/

namespace FourFunction

/-- A number with its spelling. -/
structure Operand (α : Type) where
  text : Text
  value : α
  deriving DecidableEq

structure Chain (α : Type) where
  first : Operand α
  links : List (Operator × Operand α)
  deriving DecidableEq

namespace Operand

def token {α : Type} (operand : Operand α) : Token α :=
  .number operand.text operand.value

end Operand

namespace Chain

variable {α : Type}

/-! ### As a list of tokens -/

def linkTokens : List (Operator × Operand α) → List (Token α)
  | [] => []
  | (op, operand) :: links => .operator op :: operand.token :: linkTokens links

def tokens (chain : Chain α) : List (Token α) :=
  chain.first.token :: linkTokens chain.links

/-! ### Value in two tiers -/

/-- A term after the first: the operator that adds it, its first factor, and the links of its run. -/
structure Term (α : Type) where
  op : Operator
  first : α
  run : List (Operator × α)

/-- Cuts links before every additive operator: the links of the first term, and the further terms. -/
def terms : List (Operator × α) → List (Operator × α) × List (Term α)
  | [] => ([], [])
  | (op, value) :: links =>
    let (run, rest) := terms links
    if op.isAdditive then ([], ⟨op, value, run⟩ :: rest) else ((op, value) :: run, rest)

/-- Applies links from left to right. -/
def foldLinks (apply : Operator → α → α → α) (first : α) (links : List (Operator × α)) : α :=
  links.foldl (fun value link => apply link.1 value link.2) first

def value (apply : Operator → α → α → α) (chain : Chain α) : α :=
  let (run, rest) := terms (chain.links.map fun link => (link.1, link.2.value))
  foldLinks apply (foldLinks apply chain.first.value run)
    (rest.map fun term => (term.op, foldLinks apply term.first term.run))

end Chain

end FourFunction
