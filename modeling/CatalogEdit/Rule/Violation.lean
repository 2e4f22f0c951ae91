import CatalogEdit.Path

/-!
# Broken rules

## Main definitions

* `Rule` — the rules that an edit, a selection or a response can break.
* `Violation` — a rule and the place where it is broken.
* `Violation.message` — how a violation is reported.
-/

namespace CatalogEdit

inductive Rule where
  | timestamp
  | finiteNumber
  | currencyCode
  | unitInterval
  | atLeastOneTag
  | atLeastOneIssue
  | notEmpty
  | notNegative
  | atMostCharacters (limit : Nat)
deriving DecidableEq, Repr

def Rule.text : Rule → Text
  | .timestamp => utf8 "must be an ISO-8601 date-time"
  | .finiteNumber => utf8 "must be a finite number"
  | .currencyCode => utf8 "must be a 3-letter currency code"
  | .unitInterval => utf8 "must be in (0, 1]"
  | .atLeastOneTag => utf8 "must contain at least one tag"
  | .atLeastOneIssue => utf8 "must contain at least one issue"
  | .notEmpty => utf8 "must not be empty"
  | .notNegative => utf8 "must be a non-negative integer"
  | .atMostCharacters limit =>
    utf8 "must be at most " ++ Text.decimal limit ++ utf8 " characters"

structure Violation where
  path : Path
  rule : Rule
deriving DecidableEq, Repr

def Violation.message (v : Violation) : Text :=
  utf8 "schema violation: " ++ v.path.render ++ utf8 ": " ++ v.rule.text

end CatalogEdit
