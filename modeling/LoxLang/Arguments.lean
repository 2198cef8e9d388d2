import LoxLang.Text.Quoted
import LoxLang.Text.Numeral
/-!
# Arguments of the command line

Every argument is first sorted into options and words by its looks alone; what follows `--` is all
words. Then the arguments are taken from left to right. Long options may be cut short as long as
they stay unambiguous, and short ones may be run together, also across an equals sign behind the
first of them. No option takes a value. One word is the script; arguments that nothing asks for are
refused at the end.
-/

namespace LoxLang

/-- The options. -/
inductive Flag where
  | help
  | verbose
  | tokens
  | ast
  deriving DecidableEq

namespace Flag

/-- Every spelling of every option. -/
def spellings : List (String × Flag) :=
  [("-h", help), ("--help", help), ("-v", verbose), ("--tokens", tokens), ("--ast", ast)]

/-- An option as messages name it. -/
def name : Flag → String
  | help => "-h/--help"
  | verbose => "-v"
  | tokens => "--tokens"
  | ast => "--ast"

end Flag

/-- What is wrong with the arguments. -/
inductive UsageError where
  | ambiguous (argument : String) (spellings : List String)
  | notAllowedWith (flag other : Flag)
  | ignoredValue (flag : Flag) (value : String)
  | unrecognized (arguments : List String)
  | scriptRequired
  deriving DecidableEq

/-- The wording of what is wrong with the arguments. -/
def UsageError.message : UsageError → String
  | ambiguous argument spellings =>
    "ambiguous option: " ++ argument ++ " could match " ++ ", ".intercalate spellings
  | notAllowedWith flag other =>
    "argument " ++ flag.name ++ ": not allowed with argument " ++ other.name
  | ignoredValue flag value =>
    "argument " ++ flag.name ++ ": ignored explicit argument " ++ quoted value
  | unrecognized arguments => "unrecognized arguments: " ++ " ".intercalate arguments
  | scriptRequired => "--tokens/--ast require a script"

/-- What the arguments ask for. -/
structure Options where
  verbosity : Nat
  tokens : Bool
  ast : Bool
  script : Option String
  deriving DecidableEq

/-- What is written behind an option in the same argument. -/
inductive Attached where
  | nothing
  /-- Letters behind a short option, which stand for further short options. -/
  | letters (text : List Char)
  /-- A value. -/
  | value (text : List Char)
  deriving DecidableEq

/-- An argument by its looks. -/
inductive Argument where
  | word (text : String)
  | option (flag : Flag) (attached : Attached)
  | unknownOption (text : String)
  /-- The mark after which there are only words. -/
  | separator
  deriving DecidableEq

/-- What becomes of the arguments. -/
inductive Request where
  | options (o : Options)
  | help
  | refused (e : UsageError)
  deriving DecidableEq

namespace Argument

/-- The text before the first equals sign and the text after it, if there is one. -/
def splitValue (cs : List Char) : List Char × Option (List Char) :=
  match cs.dropWhile (· != '=') with
  | [] => (cs, none)
  | _ :: value => (cs.takeWhile (· != '='), some value)

/-- Whether a text looks like a negative number; a line end after it is let pass. -/
def isNegativeNumber (cs : List Char) : Bool :=
  match cs with
  | '-' :: rest =>
    match takeDigits rest with
    | (_, '.' :: fraction) =>
      match takeDigits fraction with
      | (_ :: _, rest) => rest == [] || rest == ['\n']
      | _ => false
    | (_ :: _, rest) => rest == [] || rest == ['\n']
    | _ => false
  | _ => false

/-- The options that an argument may stand for: long ones that it begins to spell, or a short one
with more characters behind it. -/
def candidates (cs : List Char) : List (String × Flag × Attached) :=
  match cs with
  | '-' :: '-' :: _ =>
    let (name, value) := splitValue cs
    (Flag.spellings.filter fun s => name.isPrefixOf s.1.toList).map fun s =>
      (s.1, s.2, (value.map .value).getD .nothing)
  | _ =>
    (Flag.spellings.filter fun s => s.1.toList = cs.take 2).map fun s =>
      (s.1, s.2, .letters (cs.drop 2))

/-- What an equals sign attaches to an option of the given spelling: behind a short option a text is
read as letters, unless it is empty. -/
def attached (spelling value : List Char) : Attached :=
  if spelling.length = 2 ∧ value ≠ [] then .letters value else .value value

/-- Sorts an argument by its looks. -/
def ofText (text : String) : Except UsageError Argument :=
  let cs := text.toList
  if cs.head? ≠ some '-' then .ok (.word text)
  else
    match Flag.spellings.lookup text with
    | some flag => .ok (.option flag .nothing)
    | none =>
      if cs.length = 1 then .ok (.word text)
      else
        let (name, value) := splitValue cs
        match value, Flag.spellings.lookup (String.ofList name) with
        | some value, some flag => .ok (.option flag (attached name value))
        | _, _ =>
          match candidates cs with
          | [(_, flag, attached)] => .ok (.option flag attached)
          | [] =>
            if isNegativeNumber cs || cs.contains ' ' then .ok (.word text)
            else .ok (.unknownOption text)
          | many => .error (.ambiguous text (many.map Prod.fst))

/-- Sorts all arguments by their looks. -/
def ofTexts : List String → Except UsageError (List Argument)
  | [] => .ok []
  | text :: texts =>
    if text = "--" then .ok (.separator :: texts.map .word)
    else do
      let first ← ofText text
      let rest ← ofTexts texts
      return first :: rest

/-- The flags of short options that are run together, given the first and the letters of the others.
Letters from one that is no option onwards are a value, and no option takes one. -/
def cluster (flag : Flag) : List Char → Except UsageError (List Flag)
  | [] => .ok [flag]
  | c :: cs =>
    match Flag.spellings.lookup (String.ofList ['-', c]) with
    | some next => do
      let flags ← cluster next cs
      return flag :: flags
    | none => .error (.ignoredValue flag (String.ofList (c :: cs)))

/-- All flags of an option. -/
def flags (flag : Flag) : Attached → Except UsageError (List Flag)
  | .nothing => .ok [flag]
  | .letters cs => cluster flag cs
  | .value value => .error (.ignoredValue flag (String.ofList value))

end Argument

/-- The state of taking arguments. -/
structure Intake where
  options : Options
  /-- Whether the place of the script has been taken, even by nothing. -/
  scriptTaken : Bool
  extras : List String

namespace Intake

/-- Acts on flags in turn; asking for help ends everything. -/
def apply (s : Intake) : List Flag → Except Request Intake
  | [] => .ok s
  | flag :: flags =>
    match flag with
    | .help => .error .help
    | .verbose =>
      apply { s with options.verbosity := s.options.verbosity + 1 } flags
    | .tokens =>
      if s.options.ast then .error (.refused (.notAllowedWith .tokens .ast))
      else apply { s with options.tokens := true } flags
    | .ast =>
      if s.options.tokens then .error (.refused (.notAllowedWith .ast .tokens))
      else apply { s with options.ast := true } flags

/-- Gives the script its place. -/
def takeScript (s : Intake) (script : Option String) : Intake :=
  { s with options.script := script, scriptTaken := true }

/-- Keeps an argument that nothing asks for. -/
def keep (s : Intake) (text : String) : Intake := { s with extras := s.extras ++ [text] }

/-- Takes arguments from left to right. The separator belongs to the script when it stands next to
it. -/
def take (s : Intake) : List Argument → Except Request Intake
  | [] => .ok s
  | .option flag attached :: rest =>
    match Argument.flags flag attached with
    | .ok flags => do
      let s ← s.apply flags
      s.take rest
    | .error e => .error (.refused e)
  | .unknownOption text :: rest => (s.keep text).take rest
  | .word text :: .separator :: rest =>
    if s.scriptTaken then ((s.keep text).keep "--").take rest
    else (s.takeScript (some text)).take rest
  | .word text :: rest =>
    if s.scriptTaken then (s.keep text).take rest
    else (s.takeScript (some text)).take rest
  | .separator :: .word text :: rest =>
    if s.scriptTaken then ((s.keep "--").keep text).take rest
    else (s.takeScript (some text)).take rest
  | .separator :: rest =>
    if s.scriptTaken then (s.keep "--").take rest else (s.takeScript none).take rest

end Intake

namespace Request

/-- What a command line asks for. -/
def ofArguments (texts : List String) : Request :=
  match Argument.ofTexts texts with
  | .error e => refused e
  | .ok arguments =>
    match (Intake.take ⟨⟨0, false, false, none⟩, false, []⟩ arguments) with
    | .error request => request
    | .ok s => if s.extras = [] then options s.options else refused (.unrecognized s.extras)

end Request

end LoxLang
