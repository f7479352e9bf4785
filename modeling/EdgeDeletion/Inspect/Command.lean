/-
The command line of the inspector.

    edge-key --vid-len N --src ID --type T --dst ID
             [--part P] [--rank R] [--hex-ids] [--prefix]
    classify --vid-len N HEX
    decode-batch HEX
    check-config FILE

All commands take `--format text` or `--format json`, before or after their names; after
them it counts more.  A value follows its option as the next argument or after an equals
sign.  The next argument is no value if it starts with a hyphen and is longer than it,
except for types and ranks, which may be negative.  After two hyphens no option is read.
No option is given twice.  Which command lines are well formed follows the documented
behaviour of `clap`, to which the commands and their options are declared.

* `Invocation.parse` — what a command line asks for, or nothing if it is misused.
-/
import EdgeDeletion.Edge
import EdgeDeletion.Text.Integer

namespace EdgeDeletion.Inspect

/-- The form of the output. -/
inductive Format where
  | text
  | json
deriving DecidableEq

def Format.ofName? : String → Option Format
  | "text" => some .text
  | "json" => some .json
  | _ => none

/-- A command of the inspector. -/
inductive Command where
  /-- Writes the record key of an edge, or its prefix.  The ids are in hexadecimal or plain. -/
  | edgeKey (vidLen : Nat) (part : PartId) (src : String) (type : EdgeType) (rank : Rank)
      (dst : String) (hexIds : Bool) (prefixOnly : Bool)
  /-- Tells the role of a key in hexadecimal. -/
  | classify (vidLen : Nat) (key : String)
  /-- Shows a batch in hexadecimal. -/
  | decodeBatch (payload : String)
  /-- Summarises a configuration file. -/
  | checkConfig (path : String)

/-- What a command line asks for. -/
inductive Invocation where
  | help
  | version
  | run (format : Format) (command : Command)

/-! ### Settings -/

/-- The options and the operand of a command, as far as they are given. -/
structure Settings where
  format : Option Format := none
  vidLen : Option Nat := none
  part : Option PartId := none
  src : Option String := none
  type : Option EdgeType := none
  rank : Option Rank := none
  dst : Option String := none
  hexIds : Option Unit := none
  prefixOnly : Option Unit := none
  operand : Option String := none

def bounded? (low high : Int) (s : String) : Option Int :=
  (Text.integer? s).filter fun i => low ≤ i ∧ i ≤ high

/-- Changes a field that is not set yet to a value that was read. -/
def once (old new : Option α) (put : Option α → Settings) : Option Settings :=
  if old.isSome || new.isNone then none else some (put new)

/-- Sets an option, unless its value is malformed. -/
def Settings.set? (s : Settings) (name value : String) : Option Settings :=
  match name with
  | "format" => once s.format (Format.ofName? value) fun v => { s with format := v }
  | "vid-len" =>
    once s.vidLen ((Text.natural? value).filter (· < UInt64.size)) fun v => { s with vidLen := v }
  | "part" =>
    once s.part ((bounded? 0 0xffffffff value).map fun i => UInt32.ofNat i.toNat)
      fun v => { s with part := v }
  | "src" => once s.src (some value) fun v => { s with src := v }
  | "type" =>
    once s.type ((bounded? (-0x80000000) 0x7fffffff value).map Int32.ofInt)
      fun v => { s with type := v }
  | "rank" =>
    once s.rank
      ((bounded? (-0x8000000000000000) 0x7fffffffffffffff value).map Int64.ofInt)
      fun v => { s with rank := v }
  | "dst" => once s.dst (some value) fun v => { s with dst := v }
  | "hex-ids" => once s.hexIds (some ()) fun v => { s with hexIds := v }
  | "prefix" => once s.prefixOnly (some ()) fun v => { s with prefixOnly := v }
  | _ => none

def Settings.setOperand? (s : Settings) (value : String) : Option Settings :=
  once s.operand (some value) fun v => { s with operand := v }

/-! ### Arguments -/

/-- An argument by its looks. -/
inductive Argument where
  | dashes
  /-- The name of an option, and a value after an equals sign. -/
  | long (name : String) (value : Option String)
  /-- The letters after a hyphen. -/
  | short (letters : List Char)
  | plain (text : String)

/-- The looks of an argument. -/
def Argument.of (s : String) : Argument :=
  match s.toList with
  | ['-', '-'] => .dashes
  | '-' :: '-' :: cs =>
    let name := String.ofList (cs.takeWhile (· != '='))
    match cs.dropWhile (· != '=') with
    | [] => .long name none
    | _ :: value => .long name (some (String.ofList value))
  | '-' :: c :: cs => .short (c :: cs)
  | _ => .plain s

/-- Whether an argument cannot be taken for an option. -/
def Argument.isPlain : Argument → Bool
  | .plain _ => true
  | _ => false

/-- What an option takes. -/
inductive Taking where
  | nothing
  /-- A value that cannot be taken for an option. -/
  | plainValue
  | anyValue
deriving DecidableEq

/-- The names of the commands. -/
inductive Verb where
  | edgeKey
  | classify
  | decodeBatch
  | checkConfig

namespace Verb

def ofName? : String → Option Verb
  | "edge-key" => some .edgeKey
  | "classify" => some .classify
  | "decode-batch" => some .decodeBatch
  | "check-config" => some .checkConfig
  | _ => none

def options : Verb → List (String × Taking)
  | .edgeKey =>
    [("format", .plainValue), ("vid-len", .plainValue), ("part", .plainValue),
      ("src", .plainValue), ("type", .anyValue), ("rank", .anyValue), ("dst", .plainValue),
      ("hex-ids", .nothing), ("prefix", .nothing)]
  | .classify => [("format", .plainValue), ("vid-len", .plainValue)]
  | .decodeBatch | .checkConfig => [("format", .plainValue)]

def hasOperand : Verb → Bool
  | .edgeKey => false
  | _ => true

/-- The command with its settings, if none is missing. -/
def command? (verb : Verb) (s : Settings) : Option Command :=
  match verb with
  | .edgeKey => do
    pure (.edgeKey (← s.vidLen) (s.part.getD 1) (← s.src) (← s.type) (s.rank.getD 0) (← s.dst)
      s.hexIds.isSome s.prefixOnly.isSome)
  | .classify => do pure (.classify (← s.vidLen) (← s.operand))
  | .decodeBatch => do pure (.decodeBatch (← s.operand))
  | .checkConfig => do
    let path ← s.operand
    if path = "" then none else pure (.checkConfig path)

def operand? (verb : Verb) (s : Settings) (value : String) : Option Settings :=
  if verb.hasOperand then s.setOperand? value else none

/-- Reads the arguments after the name of a command.  Inside, none stands for a call for help. -/
def settings? (verb : Verb) : List String → Settings → Option (Option Settings)
  | [], s => some (some s)
  | arg :: args, s =>
    match Argument.of arg with
    | .plain text => do settings? verb args (← verb.operand? s text)
    | .dashes => (args.foldlM verb.operand? s).map some
    | .short letters => if letters.head? = some 'h' then some none else none
    | .long "help" none => some none
    | .long name value =>
      match verb.options.lookup name, value with
      | none, _ => none
      | some .nothing, none => do settings? verb args (← s.set? name "")
      | some .nothing, some _ => none
      | some _, some value => do settings? verb args (← s.set? name value)
      | some taking, none =>
        match args with
        | [] => none
        | value :: args =>
          if taking = .anyValue ∨ (Argument.of value).isPlain then do
            settings? verb args (← s.set? name value)
          else none

/-- Reads a command line after the name of its command; a form may have been given before it. -/
def invocation? (verb : Verb) (before : Settings) (args : List String) : Option Invocation := do
  match ← verb.settings? args {} with
  | none => pure .help
  | some s => pure (.run ((s.format <|> before.format).getD .text) (← verb.command? s))

end Verb

namespace Invocation

/-- Reads a command line from where a form may still stand before the name of the command. -/
def after? (before : Settings) : List String → Option Invocation
  | [] => none
  | arg :: args =>
    match Argument.of arg with
    | .plain name => do (← Verb.ofName? name).invocation? before args
    | .dashes => none
    | .short letters =>
      match letters.head? with
      | some 'h' => some help
      | some 'V' => some version
      | _ => none
    | .long "help" none => some help
    | .long "version" none => some version
    | .long "format" (some value) => do after? (← before.set? "format" value) args
    | .long "format" none =>
      match args with
      | [] => none
      | value :: args =>
        if (Argument.of value).isPlain then do after? (← before.set? "format" value) args else none
    | .long _ _ => none

def parse (args : List String) : Option Invocation := after? {} args

end Invocation

end EdgeDeletion.Inspect
