import TagRegistry.Command

namespace TagRegistry.Main

-- The number of a system error, which some calls give with its sign turned.
def errorNumber (code : UInt32) : Nat :=
  if code < 0x80000000 then code.toNat else 0x100000000 - code.toNat

def treeError (error : IO.Error) : Tree.Error :=
  match error with
  | .noFileOrDirectory .. => .notFound
  | .inappropriateType _ code _ | .invalidArgument _ code _ | .resourceExhausted _ code _ =>
    match errorNumber code with
    | 20 => .notDirectory
    | 21 => .isDirectory
    | 36 => .nameTooLong
    | _ => .other (toString error)
  | _ => .other (toString error)

def readFile (path : String) : IO (Except Tree.Error Bytes) := do
  try
    return .ok (← IO.FS.readBinFile path).toList
  catch error =>
    return .error (treeError error)

def view (paths : List String) : IO View := do
  let files ← paths.mapM fun path => return (path, ← readFile path)
  let directories ← Command.landmarks.filterM fun name => (System.mkFilePath [name]).isDir
  return {
    read := fun path => (files.lookup path).getD (.error .notFound)
    isDirectory := directories.contains }

-- The first write that fails is the last.
def writeAll : List Write → IO (Option Report)
  | [] => return none
  | write :: rest => do
    try
      IO.FS.writeFile write.path write.text
    catch error =>
      return some (write.failure (treeError error))
    writeAll rest

def report (message : String) : IO UInt32 := do
  (← IO.getStderr).putStrLn ("Error: " ++ message)
  return 1

def usage : String :=
  "usage: [-f FORMAT] [-o OUTPUT] INPUT"

-- The words of the argument parser are not rendered here as it has them.
def stop : Command.Stop → IO UInt32
  | .usage => do
    (← IO.getStderr).putStrLn usage
    return 2
  | .notice notice => do
    match notice with
    | .help => IO.println usage
    | .version => IO.println "feature-codegen 0.0.0"
    return 0

-- All that may be read is read first; what to print and to write is decided after.
def run (args : List String) : IO UInt32 := do
  match Command.Arguments.parse args with
  | .error reason => stop reason
  | .ok args =>
    let first ← view [args.input]
    let view ← view (args.input :: Command.sources first args)
    match Command.prepare view args with
    | .error failure => report failure.message
    | .ok job =>
      IO.print job.stdout
      match ← writeAll job.writes with
      | none => return 0
      | some failure => report failure.message

end TagRegistry.Main

def main (args : List String) : IO UInt32 :=
  TagRegistry.Main.run args
