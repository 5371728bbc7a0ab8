import IspStream.Files.Fault
import IspStream.Files.Path

/-!
# File trees

A tree of directories and regular files, without links, and a working directory
in it.  A path is followed component by component, and every component but the
last one has to be a directory.  The root is a directory in every tree.
-/

namespace IspStream.Files

/-- What is at a place of a tree. -/
inductive Entry where
  /-- A regular file. -/
  | file (content : ByteArray)
  /-- A directory. -/
  | directory

/-- Files are compared by their bytes. -/
instance : DecidableEq Entry
  | .file content, .file other =>
    decidable_of_decidable_of_iff (p := content.data = other.data)
      ⟨fun h => congrArg Entry.file (ByteArray.ext h), fun h => by cases h; rfl⟩
  | .file _, .directory => isFalse nofun
  | .directory, .file _ => isFalse nofun
  | .directory, .directory => isTrue rfl

/-- A place of a tree: the names on the way from the root. -/
abbrev Place := List String

/-- A file tree. -/
structure Tree where
  /-- The places and what is there, each place once. -/
  entries : List (Place × Entry) := []
  /-- The working directory. -/
  here : Place := []

/-- The longest name, in bytes. -/
def maximumName : Nat := 255

/-- The longest path, in bytes. -/
def maximumPath : Nat := 4095

/-- The name of a directory itself. -/
def self : String := "."

/-- The name of the parent of a directory. -/
def parent : String := ".."

namespace Tree

/-! ## Places -/

/-- What is at a place. -/
def get? (tree : Tree) (place : Place) : Option Entry :=
  if place = [] then some .directory else tree.entries.lookup place

/-- The tree with an entry at a place, in the stead of any entry there. -/
def insert (tree : Tree) (place : Place) (entry : Entry) : Tree :=
  { tree with entries := (place, entry) :: tree.entries.filter fun other => other.1 != place }

theorem lookup_filter_ne {entries : List (Place × Entry)} {place other : Place}
    (h : other ≠ place) :
    (entries.filter fun entry => entry.1 != place).lookup other = entries.lookup other := by
  induction entries with
  | nil => rfl
  | cons head rest ih =>
      obtain ⟨name, content⟩ := head
      by_cases hname : name = place
      · subst hname
        simp [List.lookup_cons, ih, beq_false_of_ne h]
      · simp [List.lookup_cons, ih, hname]

/-- An entry is found at its place, and no other place changes. -/
theorem get?_insert (tree : Tree) (place other : Place) (entry : Entry) :
    (tree.insert place entry).get? other =
      if other = [] then some .directory
      else if other = place then some entry
      else tree.get? other := by
  unfold get? insert
  by_cases hroot : other = []
  · simp [hroot]
  · by_cases hplace : other = place
    · simp [hplace]
    · simp [hroot, hplace, List.lookup_cons, beq_false_of_ne hplace, lookup_filter_ne hplace]

/-- One step on the way along a path.  The place it leads to need not exist. -/
def step (tree : Tree) (place : Place) (name : String) : Except Fault Place :=
  match tree.get? place with
  | none => .error .notFound
  | some (.file _) => .error .notDirectory
  | some .directory =>
    if name = self then .ok place
    else if name = parent then .ok place.dropLast
    else if maximumName < name.utf8ByteSize then .error .nameTooLong
    else .ok (place ++ [name])

/-- Follows names from a place. -/
def follow (tree : Tree) (place : Place) : List String → Except Fault Place
  | [] => .ok place
  | name :: rest =>
    match tree.step place name with
    | .ok next => tree.follow next rest
    | .error fault => .error fault

/-- Why a text cannot be a path at all. -/
def pathFault? (path : String) : Option Fault :=
  if path.toList.contains '\x00' then some .nulInPath
  else if path.isEmpty then some .notFound
  else if maximumPath < path.utf8ByteSize then some .nameTooLong
  else none

/-- Where the way along a path begins. -/
def origin (tree : Tree) (path : String) : Place :=
  if Path.isAbsolute path then [] else tree.here

/-- The place that a path leads to. -/
def locate (tree : Tree) (path : String) : Except Fault Place :=
  match pathFault? path with
  | some fault => .error fault
  | none =>
    let directory := if Path.endsInSlash path then [self] else []
    tree.follow (tree.origin path) (Path.components path ++ directory)

/-- Whether a path leads to a directory. -/
def isDirectory (tree : Tree) (path : String) : Bool :=
  match tree.locate path with
  | .ok place => decide (tree.get? place = some .directory)
  | .error _ => false

/-! ## Reading -/

/-- The text of a file. -/
def read (tree : Tree) (path : String) : Except Fault String :=
  match tree.locate path with
  | .error fault => .error fault
  | .ok place =>
    match tree.get? place with
    | none => .error .notFound
    | some .directory => .error .isDirectory
    | some (.file content) =>
      match String.fromUTF8? content with
      | some text => .ok text
      | none => .error .invalidText

/-! ## Writing -/

/-- What the last component of a path asks for, when the path is to be created. -/
inductive Ending where
  /-- A new or an old entry of this name, in the directory at the end of the others. -/
  | named (directories : List String) (name : String)
  /-- A directory that must be there already. -/
  | fixed (directories : List String)

/-- How a path ends. -/
def ending (path : String) : Ending :=
  let names := Path.components path
  match names.getLast? with
  | none => .fixed []
  | some name =>
    if name = self ∨ name = parent then .fixed names.dropLast else .named names.dropLast name

/-- Makes a directory. -/
def makeDirectory (tree : Tree) (path : String) : Except Fault Tree :=
  match pathFault? path with
  | some fault => .error fault
  | none =>
    match ending path with
    | .fixed directories =>
      match tree.follow (tree.origin path) (directories ++ [self]) with
      | .error fault => .error fault
      | .ok _ => .error .alreadyExists
    | .named directories name =>
      match tree.follow (tree.origin path) (directories ++ [name]) with
      | .error fault => .error fault
      | .ok place =>
        match tree.get? place with
        | some _ => .error .alreadyExists
        | none => .ok (tree.insert place .directory)

/-- Makes a directory and those on the way to it, as far as they are missing.
What was made before a failure stays. -/
def makeDirectories (tree : Tree) (path : String) : Tree × Except Fault Unit :=
  if path.isEmpty then (tree, .ok ())
  else
    match tree.makeDirectory path with
    | .ok tree => (tree, .ok ())
    | .error .notFound =>
      match h : Path.parent? path with
      | none => (tree, .error .notFound)
      | some above =>
        have : above.length < path.length := Path.length_parent?_lt h
        match tree.makeDirectories above with
        | (tree, .error fault) => (tree, .error fault)
        | (tree, .ok ()) =>
          match tree.makeDirectory path with
          | .ok tree => (tree, .ok ())
          | .error fault => (tree, settle tree fault)
    | .error fault => (tree, settle tree fault)
termination_by path.length
where
  /-- A directory that is there already is as good as a new one. -/
  settle (tree : Tree) (fault : Fault) : Except Fault Unit :=
    if tree.isDirectory path then .ok () else .error fault

/-- Writes a file, which is created or replaced. -/
def write (tree : Tree) (path : String) (content : ByteArray) : Except Fault Tree :=
  match pathFault? path with
  | some fault => .error fault
  | none =>
    match ending path with
    | .fixed directories =>
      match tree.follow (tree.origin path) (directories ++ [self]) with
      | .error fault => .error fault
      | .ok _ => .error .isDirectory
    | .named directories name =>
      if Path.endsInSlash path then
        match tree.follow (tree.origin path) (directories ++ [self]) with
        | .error fault => .error fault
        | .ok _ => .error .isDirectory
      else
        match tree.follow (tree.origin path) (directories ++ [name]) with
        | .error fault => .error fault
        | .ok place =>
          match tree.get? place with
          | some .directory => .error .isDirectory
          | _ => .ok (tree.insert place (.file content))

/-- Makes the directory that a path is in. -/
def makeParent (tree : Tree) (path : String) : Tree × Except Fault Unit :=
  match Path.parent? path with
  | none => (tree, .ok ())
  | some above => tree.makeDirectories above

/-- Writes a file after making the directory that it is in. -/
def save (tree : Tree) (path : String) (content : ByteArray) : Tree × Except Fault Unit :=
  match tree.makeParent path with
  | (tree, .error fault) => (tree, .error fault)
  | (tree, .ok ()) =>
    match tree.write path content with
    | .ok tree => (tree, .ok ())
    | .error fault => (tree, .error fault)

end Tree

end IspStream.Files
