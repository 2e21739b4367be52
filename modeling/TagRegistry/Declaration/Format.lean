namespace TagRegistry

-- A Rust static for use with the type `Tag`, or a C++ header that declares a set.
inductive Format where
  | rust
  | cpp
  deriving DecidableEq, Repr, Inhabited

namespace Format

def name : Format → String
  | .rust => "rust"
  | .cpp => "cpp"

structure Unknown where
  name : String
  deriving DecidableEq, Repr

def Unknown.message (unknown : Unknown) : String :=
  "unknown output format '" ++ unknown.name ++ "', expected 'rust' or 'cpp'"

def standard : Format :=
  .rust

def ofName (name : String) : Except Unknown Format :=
  if name ∈ ["rust", "rs"] then .ok .rust
  else if name ∈ ["cpp", "cc", "c++"] then .ok .cpp
  else .error ⟨name⟩

-- The format that a name asks for, if there is a name.
def choose (name : Option String) : Except Unknown Format :=
  name.elim (.ok standard) ofName

theorem ofName_name (format : Format) : ofName format.name = .ok format := by
  cases format <;> rfl

end Format
end TagRegistry
