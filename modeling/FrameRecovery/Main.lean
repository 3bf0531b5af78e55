import FrameRecovery.CommandLine.Run

namespace FrameRecovery

namespace CommandLine

/-- What an error of the operating system says about a file. -/
def FileError.ofSystem : IO.Error → FileError
  | .noFileOrDirectory _ _ _ => .notFound
  | .inappropriateType _ 20 _ => .notDirectory
  | .invalidArgument _ 36 _ => .nameTooLong
  | .inappropriateType _ _ _ => .isDirectory
  | e => .other (toString e)

/-- The files of the system. -/
def systemFiles : Files IO where
  read path := do
    try
      let bytes ← IO.FS.readBinFile path
      return match String.fromUTF8? bytes with
        | some text => .ok text
        | none => .error .notText
    catch e => return .error (.ofSystem e)
  write path content := do
    try
      IO.FS.writeFile path content
      return .ok ()
    catch e => return .error (.ofSystem e)

end CommandLine

end FrameRecovery

/-- Runs `from-listing` with the arguments behind it. -/
def main (args : List String) : IO UInt32 := do
  match args with
  | "from-listing" :: args =>
    let outcome ← FrameRecovery.CommandLine.run FrameRecovery.CommandLine.systemFiles args
    IO.print outcome.output
    IO.eprint outcome.errors
    if outcome.exitCode = FrameRecovery.CommandLine.usageCode then
      IO.eprintln "usage: from-listing LISTING [--entry ADDRESS] [--until PHASE] [--output FILE]"
    return outcome.exitCode.toUInt32
  | _ =>
    IO.eprintln "usage: from-listing LISTING [--entry ADDRESS] [--until PHASE] [--output FILE]"
    return 2
