import UsageTypes.Fault

/-!
Folders of source files. A path is looked up name by name; the sources under a path are found in the
order of their names.
-/

namespace UsageTypes

/-- A file with its text, or a directory. -/
inductive Entry where
  | file (text : String)
  | directory (entries : List (String × Entry))
  deriving Inhabited

namespace Entry

/-- Puts an entry at a path of names; the directories on the way come into being. -/
def put (new : Entry) : List String → Entry → Entry
  | [], _ => new
  | name :: names, old =>
    let entries := match old with
      | directory entries => entries
      | file _ => []
    let inner := (entries.lookup name).getD (directory [])
    directory ((entries.filter (·.1 ≠ name)) ++ [(name, put new names inner)])

/-- Makes a directory at a path of names, unless something stands there. -/
def ensure (names : List String) (root : Entry) : Entry :=
  let rec find : List String → Entry → Option Entry
    | [], e => some e
    | name :: names, directory entries => (entries.lookup name).bind (find names)
    | _ :: _, file _ => none
  match find names root with
  | some _ => root
  | none => put (directory []) names root

end Entry

/-- The names between the slashes of a path. -/
def splitPath (path : String) : List String := path.splitOn "/"

/-- The names of a path that lead somewhere. -/
def pathNames (path : String) : List String :=
  (splitPath path).filter fun n => n ≠ "" && n ≠ "."

/-- A folder from paths and texts; a path without a text is a directory. -/
def Entry.ofFiles (files : List (String × Option String)) : Entry :=
  files.foldl (fun root (path, text) =>
    match text with
    | some text => Entry.put (.file text) (pathNames path) root
    | none => root.ensure (pathNames path)) (.directory [])

/-- The last name of a path, unless the path leads upwards. -/
def fileName? (path : String) : Option String :=
  match (pathNames path).getLast? with
  | some name => if name = ".." then none else some name
  | none => none

/-- Whether a path names a source file with function bodies: not a declaration file. -/
def isSourceFile (path : String) : Bool :=
  match fileName? path with
  | some name => name.endsWith ".ts" && !name.endsWith ".d.ts"
  | none => false

namespace Entry

/-- What stands at the end of a way of names; `above` are the directories that were entered. -/
def follow (above : List Entry) : List String → Entry → Except FileCause Entry
  | [], e => .ok e
  | name :: names, e =>
    match e with
    | file _ => .error .notDirectory
    | directory entries =>
      if name = "" || name = "." then follow above names e
      else if name = ".." then
        match above with
        | [] => .error .notFound
        | outer :: above => follow above names outer
      else match entries.lookup name with
        | none => .error .notFound
        | some inner => follow (e :: above) names inner

/-- What stands at a relative path. -/
def at? (root : Entry) (path : String) : Except FileCause Entry :=
  if path = "" || path.startsWith "/" then .error .notFound
  else root.follow [] (splitPath path)

end Entry

/-- What stands at the paths that a run asks for. -/
abbrev Disk := String → Except FileCause Entry

/-- The text of the file at a path. -/
def Disk.text (disk : Disk) (path : String) : Except Fault String :=
  match disk path with
  | .ok (.file text) => .ok text
  | .ok (.directory _) => .error (.io .isDirectory)
  | .error cause => .error (.io cause)

/-- A path with one more name. -/
def joinPath (path name : String) : String :=
  if path.endsWith "/" then path ++ name else path ++ "/" ++ name

/-- Inserts a name among names in order. -/
def insertByName {α : Type} (item : String × α) : List (String × α) → List (String × α)
  | [] => [item]
  | other :: items => if other.1 < item.1 then other :: insertByName item items else item :: other :: items

def sortByName {α : Type} (items : List (String × α)) : List (String × α) :=
  items.foldr insertByName []

/-- The source files at a path and, if it is a directory, below it, by path and text. Files and
directories come in the order of their names. -/
def sourcesBelow : Nat → String → Entry → List (String × String)
  | 0, _, _ => []
  | _ + 1, path, .file text => if isSourceFile path then [(path, text)] else []
  | depth + 1, path, .directory entries =>
    (sortByName entries).flatMap fun (name, e) => sourcesBelow depth (joinPath path name) e

mutual

/-- How deep directories are nested. -/
def Entry.depth : Entry → Nat
  | .file _ => 1
  | .directory entries => depthAll entries + 1

def depthAll : List (String × Entry) → Nat
  | [] => 0
  | (_, e) :: es => max e.depth (depthAll es)

end

/-- The source files under a path, in order. -/
def Disk.sources (disk : Disk) (path : String) : List (String × String) :=
  match disk path with
  | .ok e => sourcesBelow e.depth path e
  | .error _ => []

end UsageTypes
