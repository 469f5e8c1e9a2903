/-!
Files: what a check needs of them, and a tree of files in memory.
-/

namespace NixTyping

/-- What is asked of files: the text of one, if it can be read, and whether a path leads to one. -/
structure FileAccess (m : Type → Type) where
  text? : String → m (Option String)
  isFile : String → m Bool

/-- Files and directories below a working directory, each under the names that lead to it. -/
structure FileTree where
  files : List (List String × ByteArray)
  directories : List (List String)

namespace FileTree

/-- The working directory, a directory that is listed, and all on the way to something that is listed. -/
def isDirectory (t : FileTree) (names : List String) : Bool :=
  names.isEmpty || t.directories.any (names.isPrefixOf ·) ||
    t.files.any fun (file, _) => names.isPrefixOf file && names ≠ file

/-- Follow the parts of a path from a directory. Each part needs a directory to start from, and none leads out of the
working directory. -/
def follow (t : FileTree) : (names parts : List String) → Option (List String)
  | names, [] => some names
  | names, part :: parts =>
    if !t.isDirectory names then none
    else if part = "" || part = "." then follow t names parts
    else if part = ".." then
      if names.isEmpty then none else follow t names.dropLast parts
    else follow t (names ++ [part]) parts

/-- What a relative path leads to. -/
def resolve (t : FileTree) (path : String) : Option (List String) :=
  if path.startsWith "/" then none else t.follow [] (path.splitOn "/")

def bytes? (t : FileTree) (path : String) : Option ByteArray := (t.resolve path).bind (t.files.lookup ·)

def access (t : FileTree) : FileAccess Id where
  text? path := (t.bytes? path).bind (String.fromUTF8? ·)
  isFile path := (t.bytes? path).isSome

end FileTree

end NixTyping
