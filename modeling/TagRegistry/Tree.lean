import TagRegistry.Tree.Path

namespace TagRegistry

-- The names on the way from the root.
abbrev Location := List String

inductive Tree.Entry where
  | directory
  | file (bytes : Bytes)
  deriving DecidableEq, Repr

-- The root is the working directory, and is not among the entries. There are no links, and all that
-- there is may be read and written.
structure Tree where
  entries : List (Location × Tree.Entry) := []
  deriving DecidableEq, Repr

namespace Tree

def get? (tree : Tree) (location : Location) : Option Entry :=
  if location = [] then some .directory else tree.entries.lookup location

def set (tree : Tree) (location : Location) (entry : Entry) : Tree where
  entries := go tree.entries
where
  go : List (Location × Entry) → List (Location × Entry)
    | [] => [(location, entry)]
    | old :: rest => if old.1 = location then (location, entry) :: rest else old :: go rest

theorem get?_set_self (tree : Tree) {location : Location} (entry : Entry) (h : location ≠ []) :
    (tree.set location entry).get? location = some entry := by
  suffices ∀ entries, (set.go location entry entries).lookup location = some entry by
    simp [get?, h, set, this]
  intro entries
  induction entries with
  | nil => simp [set.go]
  | cons old rest ih =>
    obtain ⟨location', entry'⟩ := old
    by_cases ho : location' = location
    · simp [set.go, ho]
    · simp [set.go, ho, List.lookup_cons, ih, beq_eq_false_iff_ne.mpr (Ne.symm ho)]

theorem get?_set_of_ne (tree : Tree) {location location' : Location} (entry : Entry)
    (h : location' ≠ location) :
    (tree.set location entry).get? location' = tree.get? location' := by
  suffices ∀ entries, (set.go location entry entries).lookup location' = entries.lookup location' by
    simp [get?, set, this]
  intro entries
  have hb := beq_eq_false_iff_ne.mpr h
  induction entries with
  | nil => simp [set.go, List.lookup_cons, hb]
  | cons old rest ih =>
    obtain ⟨location'', entry'⟩ := old
    by_cases ho : location'' = location
    · simp [set.go, ho, List.lookup_cons, hb]
    · simp [set.go, ho, List.lookup_cons, ih]

def enter (tree : Tree) (here : Location) (step : Step) : Except Error Location :=
  match tree.get? here with
  | some .directory =>
    match step with
    | .stay => .ok here
    | .up => .ok here.dropLast
    | .down name =>
      if isLong name then .error .nameTooLong
      else if (tree.get? (here ++ [name])).isNone then .error .notFound
      else .ok (here ++ [name])
  | _ => .error .notDirectory

-- Where the steps lead from the root, if all of it is there.
def walk (tree : Tree) (steps : List Step) : Except Error Location :=
  steps.foldlM tree.enter []

def read (tree : Tree) (path : String) : Except Error Bytes := do
  let path ← Path.check path
  match tree.get? (← tree.walk path.steps) with
  | some (.file bytes) => if path.slash then .error .notDirectory else .ok bytes
  | some .directory => .error .isDirectory
  | none => .error .notFound

-- A path to write to has to name a file: a slash or dots at its end can only mean a directory.
def target (tree : Tree) (path : String) : Except Error Location := do
  let path ← Path.check path
  let here ← tree.walk path.steps.dropLast
  match tree.get? here, path.steps.getLast? with
  | some .directory, some (.down name) =>
    if path.slash then .error .isDirectory
    else if isLong name then .error .nameTooLong
    else if tree.get? (here ++ [name]) = some .directory then .error .isDirectory
    else .ok (here ++ [name])
  | some .directory, _ => .error .isDirectory
  | _, _ => .error .notDirectory

-- Puts `bytes` in the place of what was in the file, or in a new file.
def write (tree : Tree) (path : String) (bytes : Bytes) : Except Error Tree := do
  return tree.set (← tree.target path) (.file bytes)

def isDirectory (tree : Tree) (path : String) : Bool :=
  match (do tree.walk (← Path.check path).steps) with
  | .ok here => tree.get? here = some .directory
  | .error _ => false

-- The directories on the way to `location`, and `entry` there.
def plant (tree : Tree) (location : Location) (entry : Entry) : Tree :=
  let parents := (List.range location.length).map location.take
  (parents.foldl addDirectory tree).set location entry
where
  addDirectory (tree : Tree) (location : Location) : Tree :=
    if (tree.get? location).isSome then tree else tree.set location .directory

-- Takes out what is at `location`, and all below it.
def uproot (tree : Tree) (location : Location) : Tree where
  entries := tree.entries.filter fun (location', _) => !location.isPrefixOf location'

end Tree
end TagRegistry
