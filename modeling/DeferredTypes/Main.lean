import DeferredTypes.CommandLine.Report

/-! The command line program. -/

namespace DeferredTypes.CommandLine

def usageText : String :=
  "Usage: deferred-types [--function NAME]... [--class NAME]... [--max-depth N] " ++
    "[--max-iterations N] [--format text|json] DUMP"

def readFile? (file : String) : IO (Option ByteArray) := do
  try
    let content ← IO.FS.readBinFile file
    return some content
  catch _ => return none

end DeferredTypes.CommandLine

open DeferredTypes.CommandLine in
/-- Prints the final types of the symbols of a dump. -/
def main (args : List String) : IO UInt32 := do
  match Arguments.parse args with
  | .error .displayVersion => do
      IO.println "deferred-types"
      return Usage.displayVersion.exitCode
  | .error .displayHelp => do
      IO.println usageText
      return Usage.displayHelp.exitCode
  | .error usage => do
      IO.eprintln ("error: " ++ usageText)
      return usage.exitCode
  | .ok arguments => do
      match run arguments (← readFile? arguments.dump) with
      | .ok output => do
          IO.print output
          return 0
      | .error failure => do
          IO.eprintln ("error: " ++ failure.message)
          return failure.exitCode
