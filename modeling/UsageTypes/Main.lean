import UsageTypes.Command

/-! The program: what its arguments name is read into memory, the run itself does the rest. -/

namespace UsageTypes

/-- Reads a file or a directory into memory. -/
partial def load (e : IO.FS.DirEntry) : IO (Except FileCause Entry) := do
  if ← e.path.isDir then
    let mut entries : List (String × Entry) := []
    for inner in ← e.path.readDir do
      if let .ok loaded ← load inner then
        entries := (inner.fileName, loaded) :: entries
    return .ok (.directory entries)
  else if ← e.path.pathExists then
    let bytes ← IO.FS.readBinFile e.path
    return match String.fromUTF8? bytes with
      | some text => .ok (.file text)
      | none => .error .notText
  else
    return .error .notFound

/-- What stands at the paths that a command asks for. -/
def diskFor (command : Command) : IO Disk := do
  let paths := match command with
    | .run invocation => invocation.path :: invocation.config.toList
    | _ => []
  let mut known : List (String × Except FileCause Entry) := []
  for path in paths do
    known := (path, ← load { root := ".", fileName := path }) :: known
  return fun path => (known.lookup path).getD (.error .notFound)

end UsageTypes

open UsageTypes in
def main (arguments : List String) : IO UInt32 := do
  let command := Command.parse arguments
  let outcome := command.execute (← diskFor command)
  IO.print outcome.stdout
  IO.eprint outcome.stderr
  return outcome.exitCode.toUInt32
