/-!
# Reading command lines

A command line names a command and gives it a pattern, a text to match
where the command needs one, and options. `CommandLine.read` reads it
from left to right.

The words for a pattern or a text may start with a dash. So a word that
looks like an option but is none of the command is taken for such a word
as long as one is wanted; behind a double dash every word is. A cluster of
short options counts as one only if all its letters do.

The value of the color option may be a word of its own. That value is
looked at late, when the next option or word arrives or the line ends
(`Reading.settle`), and a fault of it comes before faults of what follows.
-/

namespace Regexp.CommandLine

/-- When output is colored. -/
inductive ColorChoice where
  /-- When it goes to a terminal. -/
  | auto
  /-- In any case. -/
  | always
  /-- In no case. -/
  | never
deriving DecidableEq, Repr

/-- The choice that a word names. -/
def ColorChoice.ofWord? : String → Option ColorChoice
  | "auto" => some auto
  | "always" => some always
  | "never" => some never
  | _ => none

/-- Whether output is colored, given whether it goes to a terminal. -/
def ColorChoice.resolve (terminal : Bool) : ColorChoice → Bool
  | auto => terminal
  | always => true
  | never => false

/-- What is done with a pattern. -/
inductive Command where
  /-- Shows its tokens. -/
  | lex (pattern : String) (compact : Bool)
  /-- Shows its tree and the canonical pattern of the tree. -/
  | ast (pattern : String) (normalized compact : Bool)
  /-- Shows its automaton. -/
  | states (pattern : String)
  /-- Matches a text with it. -/
  | test (pattern text : String)
  /-- Matches a text with it and shows the search. -/
  | trace (pattern text : String)
deriving DecidableEq, Repr

/-- A command with the choice of colors. -/
structure Invocation where
  /-- The command. -/
  command : Command
  /-- When its output is colored. -/
  color : ColorChoice
deriving DecidableEq, Repr

/-- Why a command line is not run. -/
inductive UsageFault where
  /-- It asks for help. -/
  | help
  /-- It asks for the version. -/
  | version
  /-- It holds nothing. -/
  | nothingGiven
  /-- It names no command. -/
  | unknownCommand
  /-- It holds an option or a word too many. -/
  | unknownArgument
  /-- It lacks a word. -/
  | missingArgument
  /-- The value of an option is missing or is none of its values. -/
  | invalidValue
  /-- An option is given twice. -/
  | repeatedOption
  /-- A value is given to an option that takes none. -/
  | unwantedValue
deriving DecidableEq, Repr

/-! ## Commands and their options -/

/-- The names of commands. -/
inductive CommandName where
  /-- Shows tokens. -/
  | lex
  /-- Shows the tree. -/
  | ast
  /-- Shows the automaton. -/
  | states
  /-- Matches a text. -/
  | test
  /-- Matches a text and shows the search. -/
  | trace
deriving DecidableEq, Repr

/-- An option without a value. -/
inductive Switch where
  /-- Shows the tree after normalizing. -/
  | normalized
  /-- Writes documents on one line. -/
  | compact
  /-- Asks for help. -/
  | help
deriving DecidableEq, Repr

/-- The letter that stands for the switch behind a single dash. -/
def Switch.letter? : Switch → Option Char
  | normalized => some 'n'
  | compact => none
  | help => some 'h'

/-- The name of the switch behind a double dash. -/
def Switch.name : Switch → String
  | normalized => "normalized"
  | compact => "compact"
  | help => "help"

namespace CommandName

/-- The command that a word names. -/
def ofWord? : String → Option CommandName
  | "lex" => some lex
  | "ast" => some ast
  | "states" => some states
  | "match" => some test
  | "trace" => some trace
  | _ => none

/-- The switches of the command. -/
def switches : CommandName → List Switch
  | lex => [.compact, .help]
  | ast => [.normalized, .compact, .help]
  | states | test | trace => [.help]

/-- The number of words that the command takes. -/
def arity : CommandName → Nat
  | lex | ast | states => 1
  | test | trace => 2

/-- The switch of the command with a given name. -/
def switchNamed? (c : CommandName) (name : String) : Option Switch :=
  c.switches.find? (·.name == name)

/-- The switch of the command with a given letter. -/
def switchLettered? (c : CommandName) (letter : Char) : Option Switch :=
  c.switches.find? (·.letter? == some letter)

end CommandName

/-! ## Words -/

/-- What a word looks like. -/
inductive Word where
  /-- The double dash alone. -/
  | separator
  /-- A double dash and a name, with a value behind an equals sign if
  there is one. -/
  | long (name : String) (value : Option String)
  /-- A dash and letters. -/
  | short (letters : List Char)
  /-- Anything else. -/
  | plain
deriving DecidableEq, Repr

/-- What a word looks like. -/
def Word.ofString (word : String) : Word :=
  match word.toList with
  | ['-', '-'] => separator
  | '-' :: '-' :: cs =>
    match cs.span (· != '=') with
    | (name, []) => long (String.ofList name) none
    | (name, _ :: value) => long (String.ofList name) (some (String.ofList value))
  | '-' :: c :: cs => short (c :: cs)
  | _ => plain

/-! ## Reading -/

/-- The value of a color option whose value is a word of its own. -/
inductive PendingColor where
  /-- There is no such option. -/
  | nothing
  /-- The value has not arrived. -/
  | wanted
  /-- The value has arrived and has not been looked at. -/
  | given (value : String)
deriving DecidableEq, Repr

/-- What has been read of a command line behind the name of the
command. -/
structure Reading where
  /-- Whether the switch for normalizing was given. -/
  normalized : Bool
  /-- Whether the switch for compact documents was given. -/
  compact : Bool
  /-- The choice of colors, if one was made. -/
  color : Option ColorChoice
  /-- The color option that is not settled. -/
  pending : PendingColor
  /-- The words read, the last one first. -/
  words : List String
deriving DecidableEq, Repr

namespace Reading

/-- Nothing read. -/
def start : Reading :=
  ⟨false, false, none, .nothing, []⟩

/-- Makes the choice of colors that a value names. -/
def setColor (r : Reading) (value : String) : Except UsageFault Reading :=
  match r.color, ColorChoice.ofWord? value with
  | some _, _ => .error .repeatedOption
  | none, some choice => .ok { r with color := some choice }
  | none, none => .error .invalidValue

/-- Looks at the value of a color option that is not settled. -/
def settle (r : Reading) : Except UsageFault Reading :=
  match r.pending with
  | .nothing => .ok r
  | .wanted => .error .invalidValue
  | .given value => { r with pending := .nothing }.setColor value

/-- Turns a switch on. -/
def turnOn (r : Reading) (s : Switch) : Except UsageFault Reading := do
  let r ← r.settle
  match s with
  | .normalized => if r.normalized then .error .repeatedOption else .ok { r with normalized := true }
  | .compact => if r.compact then .error .repeatedOption else .ok { r with compact := true }
  | .help => .error .help

/-- Whether the command wants a further word. -/
def wantsWord (c : CommandName) (r : Reading) : Bool :=
  r.words.length < c.arity

/-- Takes a word. -/
def addWord (c : CommandName) (r : Reading) (word : String) : Except UsageFault Reading := do
  if r.wantsWord c then
    let r ← r.settle
    return { r with words := word :: r.words }
  else .error .unknownArgument

/-- Takes a word, as the value of the color option if one is wanted. -/
def addValue (c : CommandName) (r : Reading) (word : String) : Except UsageFault Reading :=
  match r.pending with
  | .wanted => .ok { r with pending := .given word }
  | _ => r.addWord c word

/-- Takes a name behind a double dash. -/
def addLong (c : CommandName) (r : Reading) (word name : String) (value : Option String) :
    Except UsageFault Reading :=
  if name = "color" then do
    let r ← r.settle
    match value with
    | some value => r.setColor value
    | none => .ok { r with pending := .wanted }
  else
    match c.switchNamed? name, value with
    | some _, some _ => .error .unwantedValue
    | some s, none => r.turnOn s
    | none, _ => if r.wantsWord c then r.addValue c word else .error .unknownArgument

/-- Takes letters behind a dash. -/
def addShort (c : CommandName) (r : Reading) (word : String) (letters : List Char) :
    Except UsageFault Reading :=
  if r.wantsWord c && !letters.all fun l => (c.switchLettered? l).isSome then r.addValue c word
  else
    letters.foldlM (fun r l =>
      match c.switchLettered? l with
      | some s => r.turnOn s
      | none => .error .unknownArgument) r

/-- Reads the words behind the name of a command, where `separated` says
whether a double dash stands before them. -/
def readWords (c : CommandName) (separated : Bool) (r : Reading) :
    List String → Except UsageFault Reading
  | [] => r.settle
  | word :: words => do
    if separated then
      readWords c true (← r.addWord c word) words
    else
      match Word.ofString word with
      | .separator => readWords c true r words
      | .long name value => readWords c false (← r.addLong c word name value) words
      | .short letters => readWords c false (← r.addShort c word letters) words
      | .plain => readWords c false (← r.addValue c word) words

/-- The invocation that was read. -/
def finish (c : CommandName) (r : Reading) : Except UsageFault Invocation :=
  let color := r.color.getD .auto
  match c, r.words with
  | .lex, [pattern] => .ok ⟨.lex pattern r.compact, color⟩
  | .ast, [pattern] => .ok ⟨.ast pattern r.normalized r.compact, color⟩
  | .states, [pattern] => .ok ⟨.states pattern, color⟩
  | .test, [text, pattern] => .ok ⟨.test pattern text, color⟩
  | .trace, [text, pattern] => .ok ⟨.trace pattern text, color⟩
  | _, _ => .error .missingArgument

end Reading

/-- Reads the words behind the name of a command. -/
def readCommand (c : CommandName) (words : List String) : Except UsageFault Invocation := do
  let r ← Reading.start.readWords c false words
  r.finish c

/-- Whether a word names a command, the one that shows help included. -/
def isCommand (word : String) : Bool :=
  word == "help" || (CommandName.ofWord? word).isSome

/-- What is wrong with a word in front that is no command, or what it
asks for. -/
def readFront (word : String) : UsageFault :=
  match Word.ofString word with
  | .separator => .nothingGiven
  | .long "help" value => if value.isSome then .unwantedValue else .help
  | .long "version" value => if value.isSome then .unwantedValue else .version
  | .long _ _ => .unknownArgument
  | .short ('h' :: _) => .help
  | .short ('V' :: _) => .version
  | .short _ => .unknownArgument
  | .plain => .unknownCommand

/-- Reads a command line. -/
def read : List String → Except UsageFault Invocation
  | [] => .error .nothingGiven
  | "--" :: word :: _ => .error (if isCommand word then .unknownArgument else .unknownCommand)
  | "help" :: [] => .error .help
  | "help" :: [word] => .error (if isCommand word then .help else .unknownCommand)
  | "help" :: _ => .error .unknownCommand
  | word :: words =>
    match CommandName.ofWord? word with
    | some c => readCommand c words
    | none => .error (readFront word)

end Regexp.CommandLine
