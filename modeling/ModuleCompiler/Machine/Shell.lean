import ModuleCompiler.Machine.Program

/-!
A small shell: simple commands one after the other or joined by their success, quoting, positional
parameters, and output sent to files. Its commands are the small standard programs.
-/

namespace ModuleCompiler.Shell

/-- A stretch of a word. -/
inductive Piece where
  | text (chars : List Char)
  /-- The positional parameter of a number. -/
  | parameter (n : Nat)
  /-- The number of positional parameters. -/
  | parameterCount
  /-- The status of the last command. -/
  | status

inductive Token where
  | word (pieces : List Piece)
  | next
  | onSuccess
  | onFailure
  /-- Sends an output to the file that the next word names. -/
  | toFile (output : Nat) (keep : Bool)
  /-- Sends an output to where another goes. -/
  | toOutput (output other : Nat)

/-- The way in which characters are quoted. -/
inductive Quoting where
  | none
  | single
  | double
  deriving DecidableEq

/-- Adds the word that has been read so far, if there is one. -/
def close (current : Option (List Piece)) (tokens : List Token) : List Token :=
  match current with
  | some pieces => .word pieces :: tokens
  | none => tokens

/-- The word read so far with one more piece. -/
def extend (current : Option (List Piece)) (piece : Piece) : Option (List Piece) :=
  some (current.getD [] ++ [piece])

/-- Cuts a script into tokens. An open quote is refused. -/
def lex : Quoting → Option (List Piece) → List Char → Option (List Token)
  | .none, current, [] => some (close current [])
  | _, _, [] => none
  | .single, current, c :: rest =>
    if c = '\'' then lex .none current rest else lex .single (extend current (.text [c])) rest
  | q, current, '$' :: c :: rest =>
    if c.isDigit then lex q (extend current (.parameter (c.toNat - '0'.toNat))) rest
    else if c = '#' then lex q (extend current .parameterCount) rest
    else if c = '?' then lex q (extend current .status) rest
    else lex q (extend current (.text ['$'])) (c :: rest)
  | q, current, '\\' :: c :: rest => lex q (extend current (.text [c])) rest
  | .double, current, c :: rest =>
    if c = '"' then lex .none current rest else lex .double (extend current (.text [c])) rest
  | .none, current, '\'' :: rest => lex .single (extend current (.text [])) rest
  | .none, current, '"' :: rest => lex .double (extend current (.text [])) rest
  | .none, none, '2' :: '>' :: '&' :: '1' :: rest => (lex .none none rest).map (.toOutput 2 1 :: ·)
  | .none, none, '2' :: '>' :: '>' :: rest => (lex .none none rest).map (.toFile 2 true :: ·)
  | .none, none, '2' :: '>' :: rest => (lex .none none rest).map (.toFile 2 false :: ·)
  | .none, current, '>' :: '&' :: '2' :: rest =>
    (lex .none none rest).map fun ts => close current (.toOutput 1 2 :: ts)
  | .none, current, '>' :: '>' :: rest =>
    (lex .none none rest).map fun ts => close current (.toFile 1 true :: ts)
  | .none, current, '>' :: rest =>
    (lex .none none rest).map fun ts => close current (.toFile 1 false :: ts)
  | .none, current, '&' :: '&' :: rest =>
    (lex .none none rest).map fun ts => close current (.onSuccess :: ts)
  | .none, current, '|' :: '|' :: rest =>
    (lex .none none rest).map fun ts => close current (.onFailure :: ts)
  | .none, current, c :: rest =>
    if c = ';' || c = '\n' then
      (lex .none none rest).map fun ts => close current (.next :: ts)
    else if c = ' ' || c = '\t' then (lex .none none rest).map (close current)
    else lex .none (extend current (.text [c])) rest

structure Run where
  disk : Disk
  /-- The status of the last command. -/
  status : Nat
  /-- The name of the script and its parameters. -/
  parameters : List String
  ended : Bool

def Piece.expand (r : Run) : Piece → String
  | .text chars => String.ofList chars
  | .parameter n => (r.parameters[n]?).getD ""
  | .parameterCount => toString (r.parameters.length - 1)
  | .status => toString r.status

def expand (r : Run) (pieces : List Piece) : String := String.join (pieces.map (·.expand r))

/-- Where an output of a command goes. -/
inductive Sink where
  | nowhere
  | file (path : Path)

/-- A command with its words and its outputs. -/
structure Simple where
  words : List String
  output : Sink
  errorOutput : Sink

/-- Opens the file that an output is sent to. -/
def openSink (path : Path) (keep : Bool) (d : Disk) : Option Disk :=
  match d.read path, keep with
  | .ok _, true => some d
  | _, _ =>
    match Disk.writeFile path ByteArray.empty d with
    | .ok _ changed => some changed
    | .error _ _ => none

/-- Gathers the words and outputs of one command. -/
def gather (r : Run) : Simple → List Token → Option (Simple × Disk)
  | s, [] => some (s, r.disk)
  | s, .word pieces :: rest => gather r { s with words := s.words ++ [expand r pieces] } rest
  | s, .toOutput 1 _ :: rest => gather r { s with output := s.errorOutput } rest
  | s, .toOutput _ _ :: rest => gather r { s with errorOutput := s.output } rest
  | s, .toFile output keep :: .word pieces :: rest =>
    let path := Path.ofString (expand r pieces)
    match openSink path keep r.disk with
    | some disk =>
      let sink := Sink.file path
      gather { r with disk := disk }
        (if output = 1 then { s with output := sink } else { s with errorOutput := sink }) rest
    | none => none
  | _, _ => none

/-- Adds a text to where an output goes. -/
def emit (sink : Sink) (text : String) (d : Disk) : Disk :=
  match sink with
  | .nowhere => d
  | .file path =>
    match d.read path with
    | .ok bytes =>
      match Disk.writeFile path (bytes ++ text.toUTF8) d with
      | .ok _ changed => changed
      | .error _ changed => changed
    | .error _ => d

/-- A status given as text. -/
def status? (text : String) : Option Nat :=
  if text.toList.all Char.isDigit && text ≠ "" then
    some (text.toList.foldl (fun n c => n * 10 + (c.toNat - '0'.toNat)) 0 % 256)
  else none

/-- Carries out one command. -/
def execute (r : Run) (s : Simple) : Run :=
  match s.words with
  | [] => { r with status := 0 }
  | "exit" :: [] => { r with ended := true }
  | "exit" :: code :: _ => { r with ended := true, status := (status? code).getD 2 }
  | ":" :: _ => { r with status := 0 }
  | name :: args =>
    match Program.run? name args r.disk with
    | some result =>
      { r with status := result.status, disk := emit s.output result.output result.disk }
    | none =>
      { r with status := 127, disk := emit s.errorOutput s!"sh: 1: {name}: not found\n" r.disk }

def runSimple (r : Run) (tokens : List Token) : Run :=
  if tokens.isEmpty then r
  else match gather r ⟨[], .nowhere, .nowhere⟩ tokens with
    | some (s, disk) => execute { r with disk := disk } s
    | none => { r with status := 2 }

/-- Whether a token parts commands. -/
def Token.parts : Token → Bool
  | .next => true
  | .onSuccess => true
  | .onFailure => true
  | _ => false

/-- Carries out the commands of a script; `pending` are the tokens of the one being read, and
`wanted` says whether it is to be carried out. -/
def runTokens (r : Run) (wanted : Bool) (pending : List Token) : List Token → Run
  | [] => if wanted && !r.ended then runSimple r pending else r
  | token :: rest =>
    if token.parts then
      let r := if wanted && !r.ended then runSimple r pending else r
      match token with
      | .onSuccess => runTokens r (r.status = 0) [] rest
      | .onFailure => runTokens r (r.status ≠ 0) [] rest
      | _ => runTokens r true [] rest
    else runTokens r wanted (pending ++ [token]) rest

/-- Runs a script: the status it ends with and the files it leaves. -/
def run (script : List Char) (parameters : List String) (d : Disk) : Nat × Disk :=
  match lex .none none script with
  | none => (2, d)
  | some tokens =>
    let r := runTokens ⟨d, 0, parameters, false⟩ true [] tokens
    (r.status, r.disk)

end ModuleCompiler.Shell
