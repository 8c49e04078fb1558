import Little.Source.Encoding
import Little.Source.Escape

/-!
# Files

The files at hand are a list of names with what they hold. A path is cut at its slashes and followed
part by part (`Files.follow`): an empty part and a single point stay where one is, two points lead
one up, and every other part is a name. Only a directory can be followed further, so a path that
goes on behind a file leads nowhere, even if it would lead back.

`plainPath` is the plain form of a path: empty parts and single points do not count in it, and the
empty path is the directory one is in.
-/

namespace Little

/-- What a name stands for. -/
inductive Entry where
  | directory
  | file (content : ByteArray)
deriving Inhabited

/-- Why a file cannot be read. -/
inductive FileError where
  | notFound (path : String)
  | isDirectory (path : String)
  /-- The path goes on behind a file. -/
  | notDirectory (path : String)
  | nameTooLong (path : String)
  /-- A text with a null character in it is no path. -/
  | nullInPath
deriving DecidableEq, Repr

def FileError.message : FileError → String
  | .notFound path => "[Errno 2] No such file or directory: " ++ quoted path
  | .isDirectory path => "[Errno 21] Is a directory: " ++ quoted path
  | .notDirectory path => "[Errno 20] Not a directory: " ++ quoted path
  | .nameTooLong path => "[Errno 36] File name too long: " ++ quoted path
  | .nullInPath => "embedded null byte"

/-- Names with what they stand for. -/
abbrev Files := List (String × Entry)

/-- A part of a path. -/
abbrev PathPart := List Char

/-- A place among the files: the names that lead to it, the last one first. Below all names may stand
the root, or points that lead out of the directory one is in. -/
abbrev Place := List PathPart

namespace Place

/-- The mark of the root. A name has no slash in it. -/
def root : PathPart := ['/']

/-- The part that leads one up. -/
def up : PathPart := ['.', '.']

/-- Whether a part stays where one is. -/
def stays (part : PathPart) : Bool := part = [] || part = ['.']

/-- The place that a part leads to. Above the root there is nothing. -/
def enter (place : Place) (part : PathPart) : Place :=
  if stays part then place
  else if part = up then
    match place with
    | [] => [up]
    | last :: above =>
      if last = root then place else if last = up then up :: place else above
  else part :: place

/-- The place that a path starts from. -/
def origin (path : List Char) : Place := if path.head? = some '/' then [root] else []

end Place

namespace Files

/-- A path cut at its slashes. -/
def cut : List Char → List PathPart
  | [] => [[]]
  | c :: rest =>
    if c = '/' then [] :: cut rest
    else
      match cut rest with
      | [] => [[c]]
      | part :: parts => (c :: part) :: parts

/-- The parts of a path that count. -/
def parts (path : List Char) : List PathPart := (cut path).filter fun part => !Place.stays part

/-- How the plain form of a path begins: exactly two slashes are kept, more of them are one. -/
def rootText (path : List Char) : String :=
  match (path.takeWhile (· = '/')).length with
  | 0 => ""
  | 2 => "//"
  | _ => "/"

/-- The plain form of a path. -/
def plainPath (path : String) : String :=
  let text := rootText path.toList ++ "/".intercalate ((parts path.toList).map String.ofList)
  if text = "" then "." else text

/-- The place that a name or a path stands for. -/
def placeOf (path : String) : Place := (cut path.toList).foldl Place.enter (.origin path.toList)

/-- Whether a place is a directory without being listed: the one one is in, those above it, the root,
and those that listed files stand in. -/
def isImpliedDirectory (files : Files) (place : Place) : Bool :=
  place.all (fun part => part = Place.up || part = Place.root) ||
    files.any fun (name, _) => place.isSuffixOf (placeOf name)

/-- What stands at a place. -/
def entry? (files : Files) (place : Place) : Option Entry :=
  match files.find? fun (name, _) => placeOf name = place with
  | some (_, entry) => some entry
  | none => if isImpliedDirectory files place then some .directory else none

/-- How many bytes a name may have. -/
def longestName : Nat := 255

/-- How many bytes a path may have. -/
def longestPath : Nat := 4095

/-- Follows parts of a path from a place where `entry` stands. -/
def follow (files : Files) (path : String) (place : Place) (entry : Entry) :
    List PathPart → Except FileError Entry
  | [] => .ok entry
  | part :: parts =>
    match entry with
    | .file _ => .error (.notDirectory path)
    | .directory =>
      if longestName < (String.ofList part).utf8ByteSize then .error (.nameTooLong path)
      else
        match files.entry? (place.enter part) with
        | none => .error (.notFound path)
        | some next => follow files path (place.enter part) next parts

/-- What a path leads to. -/
def resolve (files : Files) (path : String) : Except FileError Entry :=
  if path.toList.contains '\x00' then .error .nullInPath
  else if path = "" then .error (.notFound path)
  else if longestPath < path.utf8ByteSize then .error (.nameTooLong path)
  else follow files path (.origin path.toList) .directory (cut path.toList)

/-- The bytes of a file. -/
def read (files : Files) (path : String) : Except FileError ByteArray :=
  match files.resolve path with
  | .ok (.file content) => .ok content
  | .ok .directory => .error (.isDirectory path)
  | .error error => .error error

/-- The bytes of a file, if the path leads to one. -/
def regular? (files : Files) (path : String) : Option ByteArray := (files.read path).toOption

end Files

end Little
