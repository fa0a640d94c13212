-- SUMMARY: The program: arguments and files from the system, output to the two streams.
import DataBound.Command

/-! # The program -/

open DataBound

def readSystemFile (file : String) : IO (Except FileFault String) := do
  try
    pure (.ok (← IO.FS.readFile file))
  catch
    | .noFileOrDirectory .. => pure (.error .notFound)
    | e => pure (.error (.other (toString e)))

/-- The settings file in the user's home directory. -/
def defaultSettingsFile : IO String := do
  let home := (← IO.getEnv "HOME").getD "."
  let folder := (← IO.getEnv "XDG_CONFIG_HOME").getD (home ++ "/.config")
  pure (folder ++ "/viewbind/config.toml")

def main (arguments : List String) : IO UInt32 := do
  let files : Files IO := ⟨readSystemFile, ← defaultSettingsFile⟩
  let outcome ← (Request.ofArguments arguments).outcome files
  IO.print outcome.out
  IO.eprint outcome.err
  pure outcome.exitCode.toUInt32
