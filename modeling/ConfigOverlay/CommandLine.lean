/-!
# Splitting a command line

A program has options of its own, and everything else on its command line is overlay arguments. The
options come first: the first word that is no option of the program starts the overlay, and from
there on every word belongs to it, whatever it looks like. A bare `--` starts the overlay too, and
is itself no part of it.

An unknown flag is no mistake here, because it may be an overlay argument; a cluster of short
options counts as options only when all its letters do.
-/

namespace ConfigOverlay.CommandLine

/-- An option of the program. -/
structure HostOption where
  /-- The name behind two dashes. -/
  long : String
  /-- The letter behind one dash. -/
  short : Option Char
  /-- Which values it takes; none for a switch. -/
  accepts : Option (String → Bool)

/-- Why the options cannot be understood. -/
inductive UsageError where
  | help
  | repeated (long : String)
  | unexpectedValue (long : String)
  | missingValue (long : String)
  | invalidValue (long : String)
deriving DecidableEq, Repr

/-- The options that were given, with their values, and the overlay arguments. -/
structure Words where
  given : List (String × Option String)
  overlay : List String
deriving DecidableEq, Repr

namespace Words

/-- Whether an option was given. -/
def has (words : Words) (long : String) : Bool := words.given.any (·.1 = long)

/-- The value of an option that was given. -/
def value? (words : Words) (long : String) : Option String :=
  (words.given.find? (·.1 = long)).bind Prod.snd

end Words

/-- Asking for help is an option of every program. -/
def helpOption : HostOption := ⟨"help", some 'h', none⟩

/-- What a word is before the overlay has started. -/
inductive Word where
  /-- Switches, and options whose value is in the next word. -/
  | options (options : List HostOption)
  | attached (option : HostOption) (value : String)
  | overlay

/-- The text before and after the first equals sign; without one, all of it and nothing. -/
def splitValue : List Char → List Char × Option (List Char)
  | [] => ([], none)
  | c :: cs =>
    if c = '=' then ([], some cs)
    else
      let (name, value) := splitValue cs
      (c :: name, value)

/-- Recognise a word. -/
def classify (options : List HostOption) (word : String) : Word :=
  match word.toList with
  | '-' :: '-' :: rest =>
    let (name, value) := splitValue rest
    match options.find? (·.long.toList = name), value with
    | some option, some value => .attached option (String.ofList value)
    | some option, none => .options [option]
    | none, _ => .overlay
  | '-' :: c :: letters =>
    match (c :: letters).mapM fun c => options.find? (·.short = some c) with
    | some found => .options found
    | none => .overlay
  | _ => .overlay

/-- Note an option that was given. -/
def give (given : List (String × Option String)) (option : HostOption) (value : Option String) :
    Except UsageError (List (String × Option String)) :=
  if option.long = helpOption.long then .error .help
  else if given.any (·.1 = option.long) then .error (.repeated option.long)
  else
    match option.accepts, value with
    | some accepts, some v =>
      if accepts v then .ok ((option.long, value) :: given)
      else .error (.invalidValue option.long)
    | some _, none => .error (.missingValue option.long)
    | none, some _ => .error (.unexpectedValue option.long)
    | none, none => .ok ((option.long, none) :: given)

/-- Read the options from the ones given so far on, and stop where the overlay starts. -/
def splitFrom (options : List HostOption) :
    List (String × Option String) → List String → Except UsageError Words
  | given, [] => .ok ⟨given, []⟩
  | given, word :: rest =>
    if word = "--" then .ok ⟨given, rest⟩
    else match classify options word with
      | .overlay => .ok ⟨given, word :: rest⟩
      | .attached option value =>
        if option.accepts.isNone then .error (.unexpectedValue option.long)
        else do splitFrom options (← give given option (some value)) rest
      | .options [] => .ok ⟨given, word :: rest⟩
      | .options [option] =>
        if option.accepts.isNone then do splitFrom options (← give given option none) rest
        else match rest with
          | [] => .error (.missingValue option.long)
          | value :: rest =>
            if value = "--" then .error (.missingValue option.long)
            else match classify options value with
              | .overlay => do splitFrom options (← give given option (some value)) rest
              | _ => .error (.missingValue option.long)
      | .options (option :: more) => do
        splitFrom options (← (option :: more).foldlM (fun g o => give g o none) given) rest

/-- Split a command line into the options of the program and the overlay arguments. -/
def split (options : List HostOption) (words : List String) : Except UsageError Words :=
  splitFrom (helpOption :: options) [] words

end ConfigOverlay.CommandLine
