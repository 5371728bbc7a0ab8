import IspStream.CommandLine.Job

/-!
# The program

Reads the files that a job may need, lets the library do the job, and saves and
prints what comes out of it.
-/

namespace IspStream

/-- The fault that an error of the system stands for. -/
def faultOf : IO.Error → Files.Fault
  | .alreadyExists .. => .alreadyExists
  | .inappropriateType _ code _ => if code = 21 then .isDirectory else .notDirectory
  | .invalidArgument .. => .nameTooLong
  | _ => .notFound

/-- Reads a file as text. -/
def readText (path : String) : IO (Except Files.Fault String) := do
  if path.toList.contains '\x00' then return .error .nulInPath
  try
    match String.fromUTF8? (← IO.FS.readBinFile path) with
    | some text => return .ok text
    | none => return .error .invalidText
  catch error => return .error (faultOf error)

/-- Writes a text after making the directory that it is in. -/
def saveText (path text : String) : IO (Except Files.Fault Unit) := do
  if path.toList.contains '\x00' then return .error .nulInPath
  try
    if let some above := Path.parent? path then
      unless above.isEmpty do IO.FS.createDirAll above
    IO.FS.writeFile path text
    return .ok ()
  catch error => return .error (faultOf error)

/-- The files of a job as they are at its start. -/
def readFiles (job : CommandLine.Job) : IO Files.Reader := do
  let script ← readText job.script
  let references :=
    match script with
    | .ok text => (CommandLine.Job.compiler fun _ => script).references text
    | .error _ => []
  let others ← (job.base?.toList ++ references).mapM fun path => return (path, ← readText path)
  let files := (job.script, script) :: others
  return fun path => (files.lookup path).getD (.error .notFound)

/-- Prints a report. -/
def printReport (report : CommandLine.Report) : IO UInt32 := do
  IO.print report.output
  (← IO.getStdout).flush
  IO.eprint report.errors
  return report.status

end IspStream

/-- The entry point. -/
def main (arguments : List String) : IO UInt32 := do
  match IspStream.CommandLine.start arguments with
  | .error report => IspStream.printReport report
  | .ok job =>
    match job.prepare (← IspStream.readFiles job) with
    | .error report => IspStream.printReport report
    | .ok ready =>
      IspStream.printReport (job.conclude ready (← IspStream.saveText job.output ready.text))
