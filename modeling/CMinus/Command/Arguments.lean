/-!
# Command line arguments

Arguments are read from left to right, and the first thing that settles the
matter does: a mistake, or a request for help or for the version.  So a
mistake after `--help` goes unnoticed, and `--help` after a mistake does not
save it.

A word that starts with two dashes is the full name of one switch; a word with
one dash and more behind it is a row of one-letter switches.  No switch takes a
value, and none may be given twice.  Every other word is the input, of which
there is exactly one; after a word of just two dashes, everything is.
-/

namespace CMinus

/-- The switches that change a run. -/
inductive Flag where
  | trace
  | verbose
  | keepUntyped
  | dumpTree
  deriving DecidableEq

/-- All switches. -/
inductive Switch where
  | flag (f : Flag)
  | help
  | version
  deriving DecidableEq

namespace Switch

/-- A switch by its full name, without the dashes. -/
def ofName? : String → Option Switch
  | "trace" => some (flag .trace)
  | "verbose" => some (flag .verbose)
  | "keep-unset-operator-types" => some (flag .keepUntyped)
  | "dump-ast" => some (flag .dumpTree)
  | "help" => some help
  | "version" => some version
  | _ => none

/-- A switch by its letter. -/
def ofLetter? : Char → Option Switch
  | 't' => some (flag .trace)
  | 'v' => some (flag .verbose)
  | 'h' => some help
  | 'V' => some version
  | _ => none

end Switch

/-- A run of the analysis that was asked for. -/
structure Options where
  input : String
  flags : List Flag := []
  deriving DecidableEq

/-- Whether a flag was given. -/
def Options.has (o : Options) (f : Flag) : Bool := f ∈ o.flags

/-- What the arguments ask for. -/
inductive Invocation where
  | help
  | version
  | misuse
  | run (o : Options)
  deriving DecidableEq

/-- The arguments read so far. -/
structure Arguments where
  input : Option String := none
  flags : List Flag := []
  /-- Two dashes were seen, and everything is an input from there on. -/
  onlyInputs : Bool := false
  deriving DecidableEq

namespace Arguments

/-- Take a switch; a missing one is a mistake. -/
def switch (a : Arguments) : Option Switch → Except Invocation Arguments
  | none => .error .misuse
  | some .help => .error .help
  | some .version => .error .version
  | some (.flag f) => if f ∈ a.flags then .error .misuse else .ok { a with flags := f :: a.flags }

/-- Take an input; it is not empty and the only one. -/
def takeInput (a : Arguments) (word : String) : Except Invocation Arguments :=
  if word.isEmpty || a.input.isSome then .error .misuse else .ok { a with input := some word }

/-- Take one word. -/
def take (a : Arguments) (word : String) : Except Invocation Arguments :=
  if a.onlyInputs then a.takeInput word
  else match word.toList with
    | ['-', '-'] => .ok { a with onlyInputs := true }
    | '-' :: '-' :: name => a.switch (Switch.ofName? (String.ofList name))
    | '-' :: c :: letters => (c :: letters).foldlM (fun a c => a.switch (Switch.ofLetter? c)) a
    | _ => a.takeInput word

/-- The run that complete arguments ask for. -/
def finish (a : Arguments) : Invocation :=
  match a.input with
  | none => .misuse
  | some input => .run { input, flags := a.flags }

end Arguments

/-- What a list of words asks for. -/
def Invocation.ofWords (words : List String) : Invocation :=
  match words.foldlM Arguments.take {} with
  | .error settled => settled
  | .ok a => a.finish

end CMinus
