import IspStream.CommandLine.Arguments
import IspStream.Files.Tree
import IspStream.Image.Encode
import IspStream.Script.Compile
import IspStream.Text.Terminal

/-!
# The job of the command line

A job loads the base firmware, compiles the script behind it and writes the
controller's flash, up to the end of the command stream, as a hex file.  All that
can fail without touching a file is done first, in `Job.prepare`; what remains is
to save one text, and `Job.conclude` reports how that went.

`run` puts the parts together over a file tree.
-/

namespace IspStream.CommandLine

/-! ## Reports -/

/-- What a run shows to the user. -/
structure Report where
  /-- The exit status. -/
  status : UInt32
  /-- The text on the standard output. -/
  output : String
  /-- The notices in order. -/
  notices : List Notice := []
  /-- The text on the error output behind the notices. -/
  complaint : String := ""

/-- The label of a notice. -/
def label : Notice.Source → String
  | .image => "ispnublib::image"
  | .script => "ispnublib::script"
  | .commandLine => "ispnubcreator"

/-- The line that shows a notice.  Details are not shown, and neither are terminal
controls in words that the notice quotes. -/
def noticeLine? (notice : Notice) : Option String :=
  match notice.level with
  | .detail => none
  | .warning =>
    some (Text.Terminal.plainPart
      ("[WARN  " ++ label notice.source ++ "] " ++ notice.message ++ "\n"))

/-- The text on the error output. -/
def Report.errors (report : Report) : String :=
  String.join (report.notices.filterMap noticeLine?) ++ report.complaint

/-! ## Fixed texts -/

/-- The version. -/
def version : String := "0.1.0"

/-- What the program is for. -/
def purpose : String := "HEX file creator for ISPnub modules\n"

/-- The heading of every run. -/
def banner : String := "\nISPnubCreator v" ++ version ++ "\n" ++ purpose ++ "\n"

/-- The help text for a program of the given name. -/
def help (program : String) : String :=
  purpose ++ "\nUsage: " ++ program ++ " [OPTIONS] [SCRIPTFILE] [OUTFILE]\n\n" ++
    "Arguments:\n" ++
    "  [SCRIPTFILE]  ISP script to compile\n" ++
    "  [OUTFILE]     Output Intel HEX file [default: ispnub.hex]\n\n" ++
    "Options:\n" ++
    "  -b, --base <HEXFILE>  Programmer base firmware placed in front of the command stream\n" ++
    "  -h, --help            Print help\n" ++
    "  -V, --version         Print version\n"

/-- What to do with a finished hex file. -/
def advice (path : String) : String :=
  "\nFinished! Now you can flash the ISPnub module, e.g. with avrdude:\n" ++
    "avrdude -c YOURPROGRAMMER -p atmega1284p -U hfuse:w:0xD9:m -U lfuse:w:0xE2:m -U flash:w:" ++
    path ++ " -U lock:w:0x3C:m\n\n"

/-! ## Jobs -/

/-- The paths of a run that has a script. -/
structure Job where
  /-- The script to compile. -/
  script : String
  /-- The hex file to write. -/
  output : String := "ispnub.hex"
  /-- The base firmware. -/
  base? : Option String := none
deriving DecidableEq, Repr

/-- A job that has only its hex file left to write. -/
structure Ready where
  /-- The hex file. -/
  text : String
  /-- The output so far. -/
  printed : String
  /-- The notices so far. -/
  notices : List Notice

/-- The report of a run that ends with an error. -/
def Report.failure (printed : String) (notices : List Notice) (error : Error) : Report where
  status := 1
  output := printed ++ "\n"
  notices
  complaint := "Error: " ++ error.message ++ "\n"

namespace Job

/-- The memory layout of every job. -/
def layout : Layout := {}

/-- The compiler of every job. -/
def compiler (read : Files.Reader) : Compiler := ⟨layout.settings, read⟩

/-- The controller's flash with the base firmware, and the notices about it.  The
result is the end of the base firmware. -/
def loadBase (job : Job) (read : Files.Reader) : Outcome :=
  let flash := Image.blank layout.controllerMemorySize
  match job.base? with
  | none => { image := flash, notices := [.noBase], result := .ok 0 }
  | some path =>
    let loaded := flash.load read path 0
    match loaded.result with
    | .error _ => loaded
    | .ok stop =>
      if layout.scriptStart < stop then
        { loaded with notices := loaded.notices ++ [.baseOverlap stop layout.scriptStart] }
      else loaded

/-- Everything but saving the hex file. -/
def prepare (job : Job) (read : Files.Reader) : Except Report Ready :=
  let base := job.loadBase read
  match base.result with
  | .error error => .error (.failure banner base.notices error)
  | .ok _ =>
    let printed := banner ++ "Parse script file \"" ++ job.script ++ "\"..."
    let compiled := (compiler read).compileFile job.script base.image layout.scriptStart
    let notices := base.notices ++ compiled.notices
    match compiled.result with
    | .error error => .error (.failure printed notices error)
    | .ok stop =>
      .ok {
        text := compiled.image.hexText stop
        printed := printed ++ " done.\nWrite output file \"" ++ job.output ++ "\"..."
        notices }

/-- The report on a job after its hex file was saved, or could not be. -/
def conclude (job : Job) (ready : Ready) : Except Files.Fault Unit → Report
  | .error fault => .failure ready.printed ready.notices (.file job.output fault)
  | .ok () =>
    { status := 0
      output := ready.printed ++ " done.\n" ++ advice job.output
      notices := ready.notices }

end Job

/-! ## Runs -/

/-- What is to be done for a list of arguments: a report at once, or a job. -/
def start (arguments : List String) : Except Report Job :=
  match Invocation.ofArguments arguments with
  | .help => .error { status := 0, output := help "ispnubcreator" }
  | .version => .error { status := 0, output := "ispnublib " ++ version ++ "\n" }
  | .misuse =>
    .error { status := 2, output := "", complaint := "error: invalid arguments, try '--help'\n" }
  | .run options =>
    match options.script? with
    | none => .error { status := 0, output := banner ++ help "ispnublib" }
    | some script =>
      let job : Job := { script, base? := options.base? }
      .ok (match options.output? with
        | some output => { job with output }
        | none => job)

/-- Runs the program over a file tree. -/
def run (arguments : List String) (tree : Files.Tree) : Report × Files.Tree :=
  match start arguments with
  | .error report => (report, tree)
  | .ok job =>
    match job.prepare tree.read with
    | .error report => (report, tree)
    | .ok ready =>
      let (saved, result) := tree.save job.output ready.text.toUTF8
      (job.conclude ready result, saved)

end IspStream.CommandLine
