import SiteConfig.Text.Position

namespace SiteConfig

/-- Where in a config something is wrong. What an edit made has no position. -/
structure SourceLocation where
  path : String
  position : Option Position := none
deriving DecidableEq, Repr

namespace SourceLocation

def text (l : SourceLocation) : String :=
  match l.position with
  | some p => l.path ++ ":" ++ toString p.line ++ ":" ++ toString p.column
  | none => l.path

end SourceLocation

inductive ConfigError where
  /-- The script breaks the grammar. -/
  | parse (location : SourceLocation) (problem : String)
  /-- A part of the config has not the shape it must have. -/
  | structural (location : SourceLocation) (problem : String)
  /-- An expression that no option value is written as. -/
  | unsupported (location : SourceLocation) (problem : String)
  | notFound (plugin : String)
  | invalidInput (problem : String)
  | io (problem : String)
  | serialization (problem : String)
  | other (problem : String)
deriving DecidableEq, Repr

namespace ConfigError

/-- A missing plugin only calls for defaults. -/
def isFatal : ConfigError → Bool
  | notFound _ => false
  | _ => true

def location? : ConfigError → Option SourceLocation
  | parse l _ | structural l _ | unsupported l _ => some l
  | _ => none

def message : ConfigError → String
  | parse l problem => l.text ++ ": syntax error: " ++ problem
  | structural l problem => l.text ++ ": " ++ problem
  | unsupported l problem => l.text ++ ": unsupported syntax: " ++ problem
  | notFound plugin => "Plugin not found: " ++ plugin
  | invalidInput problem => "Invalid input: " ++ problem
  | io problem => "I/O error: " ++ problem
  | serialization problem => "Serialization error: " ++ problem
  | other problem => "Other error: " ++ problem

end ConfigError

abbrev Result := Except ConfigError

/-! What a computation did, by what it came to. -/

namespace Result

variable {ε ε' α β : Type} {r : Except ε α}

theorem ok_of_map {f : α → β} {b : β} (h : r.map f = .ok b) : ∃ a, r = .ok a ∧ f a = b := by
  cases r with
  | error e => cases h
  | ok a => exact ⟨a, rfl, Except.ok.inj h⟩

theorem ok_of_bind {k : α → Except ε β} {b : β} (h : (r >>= k) = .ok b) :
    ∃ a, r = .ok a ∧ k a = .ok b := by
  cases r with
  | error e => cases h
  | ok a => exact ⟨a, rfl, h⟩

theorem error_of_map {f : α → β} {e : ε} (h : r.map f = .error e) : r = .error e := by
  cases r with
  | error e' => rw [Except.error.inj h]
  | ok a => cases h

theorem error_of_bind {k : α → Except ε β} {e : ε} (h : (r >>= k) = .error e) :
    r = .error e ∨ ∃ a, r = .ok a ∧ k a = .error e := by
  cases r with
  | error e' => exact .inl (congrArg Except.error (Except.error.inj h))
  | ok a => exact .inr ⟨a, rfl, h⟩

variable {wrap : ε → ε'}

theorem mapError_eq_ok {a : α} : r.mapError wrap = .ok a ↔ r = .ok a := by
  constructor <;> intro h <;> cases r <;> cases h <;> rfl

theorem mapError_eq_error {e : ε'} :
    r.mapError wrap = .error e ↔ ∃ cause, r = .error cause ∧ wrap cause = e := by
  constructor
  · intro h
    cases r with
    | error cause => exact ⟨cause, rfl, Except.error.inj h⟩
    | ok a => cases h
  · rintro ⟨cause, rfl, rfl⟩
    rfl

end Result

/-- What could be read, and every problem met on the way. -/
structure Report (α : Type) where
  value : α
  errors : List ConfigError := []

namespace Report

variable {α β : Type}

def isClean (r : Report α) : Bool :=
  r.errors.isEmpty

def map (f : α → β) (r : Report α) : Report β :=
  ⟨f r.value, r.errors⟩

/-- The value, unless a problem was met; then the first one. -/
def toResult (r : Report α) : Result α :=
  match r.errors with
  | [] => .ok r.value
  | e :: _ => .error e

theorem toResult_eq_ok_iff {r : Report α} {a : α} :
    r.toResult = .ok a ↔ r.errors = [] ∧ r.value = a := by
  unfold toResult
  split <;> simp_all

end Report

end SiteConfig
