import Little.Command

/-!
# The executable

Reads what the command needs from the system and writes what it leaves.
-/

namespace Little

/-- Everything a stream still holds. -/
partial def readAll (stream : IO.FS.Stream) (read : ByteArray) : IO ByteArray := do
  let chunk ← stream.read 65536
  if chunk.isEmpty then return read else readAll stream (read ++ chunk)

/-- The entry a path leads to, if there is one. -/
def entryOnDisk (path : String) : IO Files := do
  try
    return [(path, .file (← IO.FS.readBinFile path))]
  catch
    | .noFileOrDirectory .. => return []
    | _ => return [(path, .directory)]

/-- The entries on the way along a path, and the one it leads to. -/
def entriesOnDisk (path : String) : IO Files := do
  let parts := Files.parts path.toList
  let root := Files.rootText path.toList
  let stages := (List.range parts.length).map fun count =>
    root ++ "/".intercalate ((parts.take (count + 1)).map String.ofList)
  return (← stages.mapM entryOnDisk).flatten

/-- Runs the command on the files and the standard input of the system. -/
def runOnSystem (arguments : List String) : IO UInt32 := do
  let (files, stdin) ←
    match Arguments.parse arguments with
    | .ok (.analyze file _) =>
      if file = Arguments.defaultFile then
        pure ([], ← readAll (← IO.getStdin) .empty)
      else pure (← entriesOnDisk file, .empty)
    | _ => pure ([], .empty)
  match Command.run arguments stdin files with
  | .exit console =>
    IO.print console.stdout
    IO.eprint console.stderr
    return console.status.toUInt32
  | .undecodable => throw (IO.userError "the source is not UTF-8")
  | .noPath => throw (IO.userError "the name of the source is no path")
  | .halted _ => throw (IO.userError "the scope pass halted")

end Little

def main (arguments : List String) : IO UInt32 := Little.runOnSystem arguments
