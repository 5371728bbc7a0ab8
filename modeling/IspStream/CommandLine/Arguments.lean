/-!
# Command-line arguments

Arguments are read from left to right.  Asking for help or for the version ends
the reading at once, unless an argument before it is wrong already.  The value of
an option is attached to it or is the next argument; a detached value does not
begin with a dash, except for the single dash.  A double dash ends the options.
-/

namespace IspStream.CommandLine

/-- The paths given on the command line. -/
structure Options where
  /-- The script to compile. -/
  script? : Option String := none
  /-- The hex file to write. -/
  output? : Option String := none
  /-- The base firmware. -/
  base? : Option String := none
deriving DecidableEq, Repr

/-- What the command line asks for. -/
inductive Invocation where
  /-- The help text. -/
  | help
  /-- The version. -/
  | version
  /-- A run with these paths. -/
  | run (options : Options)
  /-- Nothing sensible. -/
  | misuse
deriving DecidableEq, Repr

namespace Options

/-- Adds a positional argument: the script, then the output file. -/
def addPath (options : Options) (path : String) : Option Options :=
  if path.isEmpty then none
  else if options.script?.isNone then some { options with script? := some path }
  else if options.output?.isNone then some { options with output? := some path }
  else none

/-- Sets the base firmware, which may be given only once. -/
def setBase (options : Options) (path : String) : Option Options :=
  if path.isEmpty || options.base?.isSome then none else some { options with base? := some path }

end Options

/-- What one argument means among the options. -/
inductive Argument where
  /-- A positional argument. -/
  | path (text : String)
  /-- The end of the options. -/
  | endOfOptions
  /-- The base option with its value attached, if it is. -/
  | base (value? : Option String)
  /-- The question for help. -/
  | help
  /-- The question for the version. -/
  | version
  /-- No option. -/
  | unknown
deriving DecidableEq, Repr

namespace Argument

/-- The meaning of an option behind two dashes. -/
def ofLong (text : List Char) : Argument :=
  let name := String.ofList (text.takeWhile (· != '='))
  let value? :=
    match text.dropWhile (· != '=') with
    | [] => none
    | _ :: value => some (String.ofList value)
  match name, value? with
  | "base", value? => .base value?
  | "help", none => .help
  | "version", none => .version
  | _, _ => .unknown

/-- The meaning of options behind one dash. -/
def ofShort : List Char → Argument
  | ['b'] => .base none
  | 'b' :: '=' :: value => .base (some (String.ofList value))
  | 'b' :: value => .base (some (String.ofList value))
  | 'h' :: _ => .help
  | 'V' :: _ => .version
  | _ => .unknown

/-- The meaning of an argument. -/
def parse (argument : String) : Argument :=
  match argument.toList with
  | ['-', '-'] => .endOfOptions
  | '-' :: '-' :: text => ofLong text
  | '-' :: first :: text => ofShort (first :: text)
  | _ => .path argument

/-- Whether an argument can be the detached value of an option. -/
def isValue (argument : String) : Bool :=
  match argument.toList with
  | '-' :: _ :: _ => false
  | _ => true

end Argument

/-- Reads arguments behind the end of the options. -/
def readPaths (options : Options) : List String → Invocation
  | [] => .run options
  | argument :: rest =>
    match options.addPath argument with
    | some options => readPaths options rest
    | none => .misuse

/-- Reads arguments. -/
def read (options : Options) : List String → Invocation
  | [] => .run options
  | argument :: rest =>
    match Argument.parse argument with
    | .help => .help
    | .version => .version
    | .unknown => .misuse
    | .endOfOptions => readPaths options rest
    | .path path =>
      match options.addPath path with
      | some options => read options rest
      | none => .misuse
    | .base (some value) =>
      match options.setBase value with
      | some options => read options rest
      | none => .misuse
    | .base none =>
      match rest with
      | [] => .misuse
      | value :: rest =>
        if Argument.isValue value then
          match options.setBase value with
          | some options => read options rest
          | none => .misuse
        else .misuse

/-- What a list of arguments asks for. -/
def Invocation.ofArguments (arguments : List String) : Invocation := read {} arguments

end IspStream.CommandLine
