import ExpiringCache.Text.Blank

/-!
# Write modes

The mode in which a value is stored: as it is, through a codec, or interned. Interning has a name
but is never carried out. A mode is read from text without regard to blanks at the ends and to
ASCII capitals.
-/

namespace ExpiringCache

/-- How a value is stored. -/
inductive WriteMode where
  /-- As it is. -/
  | identity
  /-- As the bytes that a codec writes. -/
  | serialize
  /-- Shared between equal values; always refused. -/
  | intern
deriving DecidableEq

namespace WriteMode

/-- The name that selects a mode. -/
def name : WriteMode → String
  | .identity => "identity"
  | .serialize => "serialize"
  | .intern => "intern"

/-- The name of a mode inside a report. -/
def label : WriteMode → String
  | .identity => "Identity"
  | .serialize => "Serialize"
  | .intern => "Intern"

/-- The mode with exactly this name. -/
def ofName? (name : String) : Option WriteMode :=
  if name = "identity" then some .identity
  else if name = "serialize" then some .serialize
  else if name = "intern" then some .intern
  else none

/-- A trimmed and lowered text that names no mode. -/
structure Unknown where
  name : String
deriving DecidableEq

def Unknown.message (unknown : Unknown) : String := "unknown write mode: " ++ unknown.name

/-- The mode that a text names once it is trimmed and lowered. -/
def parse (text : String) : Except Unknown WriteMode :=
  let name := Text.lowerAscii (Text.trim text)
  match ofName? name with
  | some mode => .ok mode
  | none => .error ⟨name⟩

theorem ofName?_eq_some_iff {name : String} {mode : WriteMode} :
    ofName? name = some mode ↔ name = mode.name := by
  unfold ofName?
  cases mode <;> simp only [WriteMode.name] <;> grind

@[simp] theorem ofName?_name (mode : WriteMode) : ofName? mode.name = some mode :=
  ofName?_eq_some_iff.mpr rfl

end WriteMode

end ExpiringCache
