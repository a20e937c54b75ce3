import ScopeStack.Failure

/-!
# Files

A program reads files by name. What a name leads to is asked of a `FileSource`, which may also
answer that it does not know yet; then the program waits. `Folder` is a source that knows all:
the files and folders under a working directory.
-/

namespace ScopeStack

/-- What reading a file gives. -/
abbrev FileContent := Except ReadFault ByteArray

/-- What is known about the file of a name; `none` if it has not been looked at yet. -/
abbrev FileSource := String → Option FileContent

/-- The text of a file, which must be UTF-8 throughout. -/
def FileContent.text (content : FileContent) : Except ReadFault String :=
  match content with
  | .error e => .error e
  | .ok bytes =>
    match String.fromUTF8? bytes with
    | some text => .ok text
    | none => .error .badEncoding

/-- Where a path leads: to a place below the working directory, or out of it. -/
inductive Place where
  | within (path : List String)
  | outside

namespace Place

/-- The folder that holds this one. Whoever has left the working directory does not come back this
way. -/
def parent : Place → Place
  | within [] => outside
  | within path => within path.dropLast
  | outside => outside

/-- The place of a name in this folder; nothing is found outside of the working directory. -/
def child? : Place → String → Option Place
  | within path, name => some (within (path ++ [name]))
  | outside, _ => none

/-- One part of a path further. An empty part and a dot stay, two dots go to the parent. -/
def step? (p : Place) (part : String) : Option Place :=
  if part = "" || part = "." then some p
  else if part = ".." then some p.parent
  else p.child? part

end Place

/-- The entries of a working directory by their paths from there, the newest first; an entry
without content is a folder. -/
structure Folder where
  entries : List (List String × Option ByteArray) := []

namespace Folder

/-- Add a file or a folder; it takes the place of an older one of the same path. A path that leads
out of the working directory adds nothing. -/
def add (f : Folder) (path : String) (content : Option ByteArray) : Folder :=
  match (path.splitOn "/").foldlM Place.step? (.within []) with
  | some (.within parts) => ⟨(parts, content) :: f.entries⟩
  | _ => f

/-- What stands at a path: `none` for nothing, `some none` for a folder. A path that leads to an
entry passes through folders. -/
def entry? (f : Folder) (path : List String) : Option (Option ByteArray) :=
  if path.isEmpty then some none
  else
    match f.entries.lookup path with
    | some content => some content
    | none => if f.entries.any fun (p, _) => path.isPrefixOf p then some none else none

/-- What stands at a place: the places outside are folders. -/
def at? (f : Folder) : Place → Option (Option ByteArray)
  | .within path => f.entry? path
  | .outside => some none

/-- The longest part of a path, in bytes. -/
def longestPart : Nat := 255

/-- The longest path that can be asked for, in bytes. -/
def longestPath : Nat := 4095

/-- Follow the parts of a path from a place. Every place on the way has to be a folder. -/
def walk (f : Folder) : Place → List String → FileContent
  | place, [] =>
    match f.at? place with
    | some (some bytes) => .ok bytes
    | some none => .error .directory
    | none => .error .missing
  | place, part :: rest =>
    match f.at? place with
    | none => .error .missing
    | some (some _) => .error .notDirectory
    | some none =>
      if longestPart < part.utf8ByteSize then .error .nameTooLong
      else
        match place.step? part with
        | some next => f.walk next rest
        | none => .error .missing

/-- Read the file of a name. A name that starts with a slash starts outside of the working
directory. -/
def read (f : Folder) (name : String) : FileContent :=
  if name.toList.contains (Char.ofNat 0) then .error .nulInName
  else if name = "" then .error .missing
  else if longestPath < name.utf8ByteSize then .error .nameTooLong
  else f.walk (if name.toList.head? = some '/' then .outside else .within []) (name.splitOn "/")

/-- The folder as a source of files. -/
def source (f : Folder) : FileSource := fun name => some (f.read name)

end Folder

end ScopeStack
