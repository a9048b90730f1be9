import HackVm.Config
import HackVm.File.Path

/-!
# Arguments

A command line is a list of words, and its words say arguments: an input,
switches, and settings with their values. Switches and settings are named
behind two dashes, and some have a letter for use behind one dash. A value
is a word of its own, unless it is attached to its setting, and letters of
switches may share one dash. After two dashes alone, every word is an
input.

A value that is a word of its own must not look like an option, a lone dash
excepted, while an attached value may be anything. No switch and no setting
may be given twice.

Words are read from left to right. The first one that makes no sense ends
the reading, and so does a request for help or for the version.
-/

namespace HackVm.CommandLine

/-- What a command line asks for. -/
structure Options where
  input : Path
  output : Option Path
  entry : String
  bootstrap : BootstrapMode
  noComments : Bool
  verbose : Bool
  watch : Bool
deriving DecidableEq

inductive Switch where
  | verbose | noComments | watch
deriving DecidableEq

namespace Switch

def all : List Switch := [verbose, noComments, watch]

def name : Switch → String
  | verbose => "verbose"
  | noComments => "no-comments"
  | watch => "watch"

def letter? : Switch → Option Char
  | verbose => some 'v'
  | noComments => none
  | watch => some 'w'

end Switch

inductive Setting where
  | output | entry | bootstrap
deriving DecidableEq

namespace Setting

def all : List Setting := [output, entry, bootstrap]

def name : Setting → String
  | output => "output"
  | entry => "entry"
  | bootstrap => "bootstrap"

def letter? : Setting → Option Char
  | output => some 'o'
  | entry => none
  | bootstrap => none

end Setting

inductive Argument where
  | input (text : String)
  | switch (s : Switch)
  | setting (s : Setting) (value : String)
deriving DecidableEq

def Argument.input? : Argument → Option String
  | input text => some text
  | _ => none

/-- The value that an argument gives to a setting. -/
def Argument.value? (s : Setting) : Argument → Option String
  | setting t value => if t = s then some value else none
  | _ => none

/-- What ends the reading of a command line early. -/
inductive Stop where
  /-- A word makes no sense. -/
  | usage
  | help
  | version
deriving DecidableEq

/-! ## Words -/

/-- What a word leaves open for those behind it. -/
inductive Next where
  | anything
  | value (s : Setting)
  | nothing (stop : Stop)
deriving DecidableEq

/-- Does a word look like an option? -/
def looksLikeOption (word : String) : Bool :=
  match word.toList with
  | '-' :: _ :: _ => true
  | _ => false

/-- Read the name behind two dashes, and the value attached to it. -/
def readName (name : String) (value : Option String) : List Argument × Next :=
  match Switch.all.find? (·.name == name), Setting.all.find? (·.name == name), value with
  | some s, _, none => ([.switch s], .anything)
  | none, some s, none => ([], .value s)
  | none, some s, some v => ([.setting s v], .anything)
  | _, _, _ =>
    if name == "help" && value.isNone then ([], .nothing .help)
    else if name == "version" && value.isNone then ([], .nothing .version)
    else ([], .nothing .usage)

/-- A value that is attached to a letter, with or without a sign between
the two. -/
def attached : List Char → String
  | '=' :: value => String.ofList value
  | value => String.ofList value

/-- Read the letters behind one dash, up to the end of the word or to the
first letter that needs a value. -/
def readLetters : List Char → List Argument × Next
  | [] => ([], .anything)
  | letter :: rest =>
    match Switch.all.find? (·.letter? == some letter),
        Setting.all.find? (·.letter? == some letter) with
    | some s, _ =>
      let (more, next) := readLetters rest
      (.switch s :: more, next)
    | none, some s =>
      if rest.isEmpty then ([], .value s) else ([.setting s (attached rest)], .anything)
    | none, none =>
      if letter == 'h' then ([], .nothing .help)
      else if letter == 'V' then ([], .nothing .version)
      else ([], .nothing .usage)

def readWord (word : String) : List Argument × Next :=
  match word.toList with
  | '-' :: '-' :: rest =>
    let name := String.ofList (rest.takeWhile (· != '='))
    match rest.dropWhile (· != '=') with
    | [] => readName name none
    | _ :: value => readName name (some (String.ofList value))
  | '-' :: c :: rest => readLetters (c :: rest)
  | _ => ([.input word], .anything)

/-- Read the words of a command line. -/
def readWords : List String → List Argument × Option Stop
  | [] => ([], none)
  | word :: rest =>
    if word == "--" then (rest.map .input, none)
    else
      match readWord word with
      | (args, .anything) =>
        let (more, stop) := readWords rest
        (args ++ more, stop)
      | (args, .nothing stop) => (args, some stop)
      | (args, .value s) =>
        match rest with
        | [] => (args, some .usage)
        | value :: rest₁ =>
          if looksLikeOption value then (args, some .usage)
          else
            let (more, stop) := readWords rest₁
            (args ++ .setting s value :: more, stop)

/-! ## Arguments that go together -/

/-- The inputs among arguments. -/
def inputsOf (args : List Argument) : List String := args.filterMap Argument.input?

/-- The values that arguments give to a setting. -/
def valuesOf (s : Setting) (args : List Argument) : List String :=
  args.filterMap (Argument.value? s)

def valueOf? (s : Setting) (args : List Argument) : Option String := (valuesOf s args).head?

/-- Nothing is said twice, and all values make sense. -/
def consistent (args : List Argument) : Bool :=
  decide ((inputsOf args).length ≤ 1)
    && Setting.all.all (fun s => decide ((valuesOf s args).length ≤ 1))
    && Switch.all.all (fun s => decide (args.count (.switch s) ≤ 1))
    && (inputsOf args ++ valuesOf .output args).all (!·.isEmpty)
    && (valuesOf .bootstrap args).all (BootstrapMode.ofKeyword? · |>.isSome)

/-- The options that arguments ask for. -/
def optionsOf? (args : List Argument) : Option Options :=
  let standard : Config := {}
  (inputsOf args).head?.map fun input =>
    { input := ⟨input⟩
      output := (valueOf? .output args).map Path.mk
      entry := (valueOf? .entry args).getD standard.entry
      bootstrap := ((valueOf? .bootstrap args).bind BootstrapMode.ofKeyword?).getD standard.bootstrap
      noComments := decide (.switch .noComments ∈ args)
      verbose := decide (.switch .verbose ∈ args)
      watch := decide (.switch .watch ∈ args) }

/-- Read a command line. -/
def parse (words : List String) : Except Stop Options :=
  match readWords words with
  | (args, stop) =>
    if !consistent args then .error .usage
    else
      match stop, optionsOf? args with
      | some stop, _ => .error stop
      | none, some o => .ok o
      | none, none => .error .usage

end HackVm.CommandLine
