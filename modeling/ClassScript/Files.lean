import ClassScript.Text.Lines

/-!
# Files

The files a run can see, below one working directory. A path is a list of names relative to that
directory; `..` leaves a directory, and what lies outside the working directory cannot be seen.
-/

namespace ClassScript

inductive FileEntry where
  | file (text : String)
  | directory
  deriving DecidableEq

structure Files where
  /-- The name under which messages show the working directory. -/
  root : String
  entries : List (List String × FileEntry)

/-- Why a file could not be opened. -/
inductive OpenError where
  | notFound
  | notADirectory
  | isADirectory
  deriving DecidableEq

namespace Files

/-- The names of a path; empty names and `.` stand for nothing. -/
def segments (path : String) : List String :=
  (path.splitOn "/").filter fun s => s != "" && s != "."

def isAbsolute (path : String) : Bool :=
  path.toList.head? == some '/'

/-- Files from their paths and texts; a path that ends with a slash is a directory. -/
def ofList (root : String) (pairs : List (String × String)) : Files :=
  ⟨root, pairs.map fun (path, text) =>
    (segments path, if path.toList.getLast? == some '/' then .directory else .file text)⟩

/-- What is found under a path without `..`. A directory exists when something lies below it. -/
def get? (fs : Files) (path : List String) : Option FileEntry :=
  match fs.entries.find? fun e => e.1 == path with
  | some e => some e.2
  | none =>
    if path.isEmpty || fs.entries.any (fun e => path.isPrefixOf e.1) then some .directory
    else none

/-- One name of a path, taken after the names in `above`, innermost first. -/
def stepUp (above : Option (List String)) (name : String) : Option (List String) :=
  match above with
  | none => none
  | some names =>
    if name == ".." then
      match names with
      | [] => none
      | _ :: outer => some outer
    else some (name :: names)

/-- Removes `..` by the names alone; none when the path leaves the working directory. -/
def normalize? (path : List String) : Option (List String) :=
  (path.foldl stepUp (some [])).map List.reverse

/-- The text of the file under a path, with line ends normalized. -/
def readText? (fs : Files) (path : List String) : Option String :=
  match fs.get? path with
  | some (.file text) => some (String.ofList (Text.normalizeNewlines text.toList))
  | _ => none

/-- A text that can be read is that of an entry. -/
theorem mem_of_readText? {fs : Files} {path : List String} {text : String}
    (h : fs.readText? path = some text) : ∃ raw, (path, FileEntry.file raw) ∈ fs.entries ∧
      text = String.ofList (Text.normalizeNewlines raw.toList) := by
  cases hfind : fs.entries.find? fun e => e.1 == path with
  | none =>
    simp only [readText?, get?, hfind] at h
    by_cases below : (path.isEmpty || fs.entries.any fun e => path.isPrefixOf e.1) = true
    · rw [if_pos below] at h
      cases h
    · rw [if_neg below] at h
      cases h
  | some e =>
    obtain ⟨names, entry⟩ := e
    simp only [readText?, get?, hfind] at h
    cases entry with
    | directory => cases h
    | file raw =>
      have found : names = path := by
        have hbeq := List.find?_some hfind
        exact eq_of_beq hbeq
      exact ⟨raw, found ▸ List.mem_of_find?_eq_some hfind, (Option.some.inj h).symm⟩

/-- If there is one file, then no other text can be read. -/
theorem readText?_single (root : String) (path other : List String) (raw : String) :
    (⟨root, [(path, .file raw)]⟩ : Files).readText? other =
      if other = path then some (String.ofList (Text.normalizeNewlines raw.toList)) else none := by
  by_cases h : other = path
  · subst h
    rw [if_pos rfl]
    simp [readText?, get?]
  · rw [if_neg h]
    cases found : (⟨root, [(path, .file raw)]⟩ : Files).readText? other with
    | none => rfl
    | some text =>
      obtain ⟨raw', hmem, _⟩ := mem_of_readText? found
      cases List.mem_singleton.mp hmem
      exact absurd rfl h

/-- Follows a path name by name from the directory `above`; every name but the last has to be a
directory. -/
def walk (fs : Files) (above : List String) : List String → Except OpenError (List String)
  | [] => .ok above
  | name :: rest =>
    match fs.get? above.reverse with
    | none => .error .notFound
    | some (.file _) => .error .notADirectory
    | some .directory =>
      match stepUp (some above) name with
      | none => .error .notFound
      | some below => walk fs below rest

/-- Opens a file for reading. -/
def openText (fs : Files) (path : String) : Except OpenError String :=
  if isAbsolute path then .error .notFound
  else
    match walk fs [] (segments path) with
    | .error e => .error e
    | .ok names =>
      match fs.get? names.reverse with
      | none => .error .notFound
      | some .directory => .error .isADirectory
      | some (.file text) => .ok (String.ofList (Text.normalizeNewlines text.toList))

/-- A path as messages show it. -/
def display (fs : Files) (path : List String) : String :=
  String.intercalate "/" (fs.root :: path)

end Files

end ClassScript
