import CMinus.Analysis
import CMinus.Command.Arguments
import CMinus.Exchange.Decode
import CMinus.Tree.Display

/-!
# Running the command

What the command prints and how it exits, as a function of its arguments and of
the text it reads.  The report goes to the standard output; progress, printouts
and failures go to the standard error.

The command exits with 0 if nothing was reported, with 1 if something was, and
with 2 if there was nothing to analyse.
-/

namespace CMinus

/-- What a run of the command leaves behind. -/
structure Outcome where
  exit : UInt32
  stdout : String := ""
  stderr : String := ""
  deriving DecidableEq

namespace Command

/-- The text printed for a request for help. -/
def helpText : String :=
  "Symbol table construction and type checking for C-Minus syntax trees\n\n" ++
  "Usage: cmsema [OPTIONS] <INPUT>\n\n" ++
  "Arguments:\n" ++
  "  <INPUT>  Syntax tree produced by the parser (TOML interchange file)\n\n" ++
  "Options:\n" ++
  "  -t, --trace                      Print the symbol table after analysis\n" ++
  "  -v, --verbose                    Verbose output\n" ++
  "      --keep-unset-operator-types  Leave a failed binary operator untyped instead of poisoning it\n" ++
  "      --dump-ast                   Dump AST (for debugging)\n" ++
  "  -h, --help                       Print help\n" ++
  "  -V, --version                    Print version\n"

/-- The text printed for a request for the version. -/
def versionText : String := "cmsema 0.1.0\n"

/-- The text printed when the arguments make no sense. -/
def misuseText : String :=
  "error: invalid arguments\n\nUsage: cmsema [OPTIONS] <INPUT>\n\n" ++
  "For more information, try '--help'.\n"

/-- The options of the analysis that a run asks for. -/
def config (o : Options) : Config where
  verbose := o.has .verbose
  trace := o.has .trace
  poisonFailed := !o.has .keepUntyped

/-- A text that is only printed on request. -/
def onRequest (asked : Bool) (text : String) : String := if asked then text else ""

/-- What a verbose run says once the analysis is done. -/
def progress (a : Analysis) : String :=
  "Building symbol table...\nType checking...\n" ++
    s!"Analysis finished with {a.log.entries.size} diagnostic(s)\n"

/-- The printout of the analysed tree. -/
def printout (a : Analysis) : String :=
  "=== AST ===\n" ++ a.forest.display.render ++ "\n=== End AST ===\n\n"

/-- Analyse a program that was read. -/
def runForest (o : Options) (f : Forest) : Outcome :=
  match analyze (config o) f with
  | .error failure => { exit := 2, stderr := s!"error: {failure.message}\n" }
  | .ok a =>
    { exit := if a.hadError then 1 else 0
      stdout := a.report
      stderr := onRequest (o.has .verbose) (progress a) ++
        onRequest (o.has .dumpTree) (printout a) }

/-- Run the command on what reading its input gave. -/
def runOn (o : Options) (source : Except Failure String) : Outcome :=
  let loading := onRequest (o.has .verbose) s!"Loading {o.input}\n"
  match source >>= Exchange.parse with
  | .error failure =>
    { exit := 2
      stderr := loading ++
        s!"error: cannot load syntax tree from {o.input}: {failure.message}\n" }
  | .ok f =>
    let outcome := runForest o f
    { outcome with stderr := loading ++ outcome.stderr }

/-- Run the command; `read` gives the text of an input or why there is none. -/
def run (words : List String) (read : String → Except Failure String) : Outcome :=
  match Invocation.ofWords words with
  | .help => { exit := 0, stdout := helpText }
  | .version => { exit := 0, stdout := versionText }
  | .misuse => { exit := 2, stderr := misuseText }
  | .run o => runOn o (read o.input)

end Command

end CMinus
