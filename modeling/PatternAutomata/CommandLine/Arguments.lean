/-!
# Arguments of the command line

Arguments are sorted from left to right into flags, settings with their values and
words. Long names follow two dashes and short ones are clustered after one. The value of
a setting stands after an equals sign, in the rest of a cluster, or in the next argument
unless that looks like an option. Two dashes alone end the options, and one dash alone
is a word.
-/

namespace PatternAutomata.CommandLine

/-- An option that takes a value. -/
inductive Setting
  | strategy
  | dot
  | dfaDot
  | benchmarkFile
  deriving DecidableEq

/-- An option that stands alone. -/
inductive Flag
  | count
  | showForms
  | demo
  | debugInfos
  deriving DecidableEq

/-- Why no request comes of the arguments. -/
inductive Stop
  /-- The arguments are refused. -/
  | usage
  /-- The version was asked for. -/
  | version
  /-- A description was asked for. -/
  | help
  deriving DecidableEq

/-- What an option turns out to be. -/
inductive Item
  | flag (f : Flag)
  /-- A setting, with its value if that came with it. -/
  | setting (s : Setting) (value : Option String)
  deriving DecidableEq

/-- The option of a long name. -/
def longOption (name : String) (value : Option String) : Except Stop Item :=
  match name with
  | "strategy" => .ok (.setting .strategy value)
  | "dot" => .ok (.setting .dot value)
  | "dfa-dot" => .ok (.setting .dfaDot value)
  | "benchmark-file" => .ok (.setting .benchmarkFile value)
  | "count" => .ok (.flag .count)
  | "postfix" => .ok (.flag .showForms)
  | "demo" => .ok (.flag .demo)
  | "debug-infos" => .ok (.flag .debugInfos)
  | "version" => .error .version
  | "help" => .error .help
  | _ => .error .usage

/-- The value that follows an equals sign, of which any number may stand in a row. -/
def valueText (cs : List Char) : String := String.ofList (cs.dropWhile (· = '='))

/-- A text that is missing if it is empty. -/
def attachedValue (cs : List Char) : Option String :=
  if cs.isEmpty then none else some (valueText cs)

/-- Reads a long option after its dashes. -/
def readLong (body : List Char) : Except Stop Item :=
  longOption (String.ofList (body.takeWhile (· ≠ '='))) (attachedValue (body.dropWhile (· ≠ '=')))

/-- Reads a cluster of short options. A setting takes the rest of the cluster. -/
def readCluster : List Char → Except Stop (List Item)
  | [] => .ok []
  | 's' :: rest => .ok [.setting .strategy (attachedValue rest)]
  | 'c' :: rest => (.flag .count :: ·) <$> readCluster rest
  | 'i' :: rest => (.flag .debugInfos :: ·) <$> readCluster rest
  | 'V' :: _ => .error .version
  | 'h' :: _ => .error .help
  | _ :: _ => .error .usage

/-- The argument looks like an option. -/
def looksLikeOption (arg : List Char) : Bool :=
  match arg with
  | '-' :: _ :: _ => true
  | _ => false

/-- Reads an argument that looks like an option. -/
def readOption (arg : List Char) : Except Stop (List Item) :=
  let body := arg.dropWhile (· = '-')
  match arg with
  | '-' :: '-' :: _ => (fun item => [item]) <$> readLong body
  | _ => readCluster body

/-- The arguments sorted, each kind in order. -/
structure Arguments where
  flags : List Flag
  /-- Settings with their values, which are missing where none was given. -/
  settings : List (Setting × Option String)
  words : List String
  deriving DecidableEq

namespace Arguments

/-- No arguments. -/
def empty : Arguments := ⟨[], [], []⟩

/-- Adds a word in front. -/
def consWord (word : String) (a : Arguments) : Arguments := { a with words := word :: a.words }

/-- Adds a setting in front. -/
def consSetting (s : Setting) (value : Option String) (a : Arguments) : Arguments :=
  { a with settings := (s, value) :: a.settings }

/-- Adds options in front. -/
def consItems (items : List Item) (a : Arguments) : Arguments :=
  items.foldr
    (fun
      | .flag f, a => { a with flags := f :: a.flags }
      | .setting s value, a => a.consSetting s value) a

/-- The setting that still waits for its value after some options, and the others. -/
def splitWaiting (items : List Item) : List Item × Option Setting :=
  match items.getLast? with
  | some (.setting s none) => (items.dropLast, some s)
  | _ => (items, none)

/-- Adds a setting that has waited in vain. -/
def abandon (waiting : Option Setting) (a : Arguments) : Arguments :=
  match waiting with
  | some s => a.consSetting s none
  | none => a

/-- Sorts arguments while a setting may be waiting for its value. -/
def sort (waiting : Option Setting) : List String → Except Stop Arguments
  | [] => .ok (empty.abandon waiting)
  | arg :: rest =>
    if arg = "--" then .ok (({ empty with words := rest } : Arguments).abandon waiting)
    else if looksLikeOption arg.toList then do
      let (items, next) := splitWaiting (← readOption arg.toList)
      let a ← sort next rest
      pure ((a.consItems items).abandon waiting)
    else
      match waiting with
      | some s => (consSetting s (some arg) ·) <$> sort none rest
      | none => (consWord arg ·) <$> sort none rest

/-- Sorts the arguments of a command line. -/
def ofList (args : List String) : Except Stop Arguments := sort none args

/-- The value of a setting. -/
def value? (a : Arguments) (s : Setting) : Option String := (a.settings.lookup s).join

/-- The flag was given. -/
def has (a : Arguments) (f : Flag) : Bool := a.flags.contains f

end Arguments

end PatternAutomata.CommandLine
