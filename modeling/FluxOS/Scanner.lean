import Mathlib.Computability.RegularExpressions

/-! A scanner of rules, each with a pattern: the longest match counts, and the first rule among those that
have it. A symbol that begins no match is echoed, which gives no token. -/
namespace FluxOS.Scanner

variable {α τ : Type*} [DecidableEq α]

/-- A pattern, and the token that the action returns for the text that was matched, if it returns. -/
structure Rule (α τ : Type*) where
  pattern : RegularExpression α
  action : List α → Option τ

/-- The length of the longest beginning of the text that a pattern matches. -/
def longest (pattern : RegularExpression α) (text : List α) : Nat :=
  Nat.findGreatest (fun length => pattern.rmatch (text.take length) = true) text.length

/-- The length of the match that counts, and what its action returns. -/
def choose (text : List α) : List (Rule α τ) → Nat × Option τ
  | [] => (0, none)
  | rule :: rules =>
    let length := longest rule.pattern text
    let later := choose text rules
    if later.1 ≤ length then (length, rule.action (text.take length)) else later

/-- The tokens of a text. -/
def scan (rules : List (Rule α τ)) : List α → List τ
  | [] => []
  | symbol :: rest =>
    let chosen := choose (symbol :: rest) rules
    if chosen.1 = 0 then scan rules rest
    else chosen.2.toList ++ scan rules ((symbol :: rest).drop chosen.1)
termination_by text => text.length
decreasing_by
  · exact Nat.lt_succ_self _
  · rename_i something
    rw [List.length_drop]
    exact Nat.sub_lt (Nat.succ_pos _) (Nat.pos_of_ne_zero something)

/-- A class of symbols, as a pattern. -/
def oneOf (symbols : List α) : RegularExpression α := symbols.foldr (fun symbol rest => .char symbol + rest) 0

/-- One or more. -/
def oneOrMore (pattern : RegularExpression α) : RegularExpression α := pattern * pattern.star

/-! ## Matches -/

end FluxOS.Scanner
