/-!
# Limits

The three limits a message can carry, their validation, and a builder that collects them step
by step. A limit that is absent does not apply; a limit of zero is refused when limits are
validated, in the order `max_parts`, `max_headers`, `max_header_size`.
-/

namespace MimeMultipart

/-- The name of one limit: on the parts a message may yield, on the headers one part may carry,
and on the bytes of one header line, its name and value together. -/
inductive Limit where
  | maxParts
  | maxHeaders
  | maxHeaderSize
  deriving DecidableEq, Repr

def Limit.key : Limit → String
  | .maxParts => "max_parts"
  | .maxHeaders => "max_headers"
  | .maxHeaderSize => "max_header_size"

/-- Limits on a message; `none` means no limit. -/
structure Limits where
  maxParts : Option Nat := none
  maxHeaders : Option Nat := none
  maxHeaderSize : Option Nat := none
  deriving DecidableEq, Repr, Inhabited

/-- A limit was set to zero. -/
structure ConfigError where
  limit : Limit
  deriving DecidableEq, Repr

def ConfigError.message (e : ConfigError) : String :=
  "limit `" ++ e.limit.key ++ "` must be greater than 0"

namespace Limits

def unlimited : Limits := {}

/-- The first limit, in the order parts, headers, header size, that is set to zero. -/
def validate (l : Limits) : Except ConfigError Unit :=
  if l.maxParts = some 0 then .error ⟨.maxParts⟩
  else if l.maxHeaders = some 0 then .error ⟨.maxHeaders⟩
  else if l.maxHeaderSize = some 0 then .error ⟨.maxHeaderSize⟩
  else .ok ()

/-- Limits are valid exactly when none is zero. -/
theorem validate_eq_ok_iff (l : Limits) :
    l.validate = .ok () ↔ l.maxParts ≠ some 0 ∧ l.maxHeaders ≠ some 0 ∧ l.maxHeaderSize ≠ some 0 := by
  unfold validate
  by_cases h1 : l.maxParts = some 0
  · simp [h1]
  · by_cases h2 : l.maxHeaders = some 0
    · simp [h1, h2]
    · by_cases h3 : l.maxHeaderSize = some 0
      · simp [h1, h2, h3]
      · simp [h1, h2, h3]

/-- Another part may follow `yielded` parts. -/
def allowsPart (l : Limits) (yielded : Nat) : Bool :=
  match l.maxParts with
  | some m => yielded < m
  | none => true

end Limits

/-- Limits collected one setting at a time before a message is opened. -/
structure Builder where
  limits : Limits := Limits.unlimited
  deriving DecidableEq, Repr

/-- One setting given to a builder: one limit, or all three at once. -/
inductive Builder.Step where
  | maxParts (n : Nat)
  | maxHeaders (n : Nat)
  | maxHeaderSize (n : Nat)
  | limits (l : Limits)
  deriving DecidableEq, Repr

namespace Builder

/-- Applies one setting; the last setting of a limit wins. -/
def apply (b : Builder) : Step → Builder
  | .maxParts n => { limits := { b.limits with maxParts := some n } }
  | .maxHeaders n => { limits := { b.limits with maxHeaders := some n } }
  | .maxHeaderSize n => { limits := { b.limits with maxHeaderSize := some n } }
  | .limits l => { limits := l }

def ofSteps (steps : List Step) : Builder := steps.foldl apply {}

def validate (b : Builder) : Except ConfigError Unit := b.limits.validate

end Builder

end MimeMultipart
