import InvariantSearch.Log.Topic
import InvariantSearch.Storage.Disk

/-!
# The log

A log remembers which topics are on and where it writes. What is written is
there at once, on standard output or on the disk.

* A plain entry of a topic is its text; a framed one stands between a header
  that shows the tag and a rule. Both are written when the topic is on.
* Progress notes are written unless the log is silent.
* A file that cannot be opened is no error: the log then goes nowhere.
* Texts are given as functions, so that an entry that is not written is not
  composed either.
-/

namespace InvariantSearch

/-- Where a text is written to. -/
inductive Sink where
  | standard
  /-- A file, by its number on the disk, and the position of the next text in
  it. -/
  | file (number position : Nat)
  | nowhere
  deriving DecidableEq, Repr

/-- How a log file is packed. -/
inductive Compression where
  | none | gzip | bzip2
  deriving DecidableEq, Repr

namespace Compression

def ending : Compression → String
  | .none => ""
  | .gzip => ".gz"
  | .bzip2 => ".bz2"

def word : Compression → String
  | .none => "none"
  | .gzip => "gzip"
  | .bzip2 => "bzip2"

def ofWord? (word : String) : Option Compression :=
  [none, gzip, bzip2].find? fun c => c.word == word

/-- The name of the file that is written: the ending is added where it is
missing. -/
def fileName (c : Compression) (name : String) : String :=
  if name.endsWith c.ending then name else name ++ c.ending

end Compression

/-- A tag that names no topic. -/
structure UnknownTopic where
  tag : String
  deriving DecidableEq, Repr

/-- The wording of an unknown topic. -/
def UnknownTopic.message (u : UnknownTopic) : String :=
  "Log option \"" ++ u.tag ++ "\" is not a recognized log option."

/-- Topics that are on, and where entries go. -/
structure Log where
  topics : List Topic
  silent : Bool
  sink : Sink
  /-- What was printed to standard output, newest first. -/
  printed : List String
  disk : Disk
  deriving DecidableEq, Repr

namespace Log

/-- A log to standard output that shows progress only. -/
def new (disk : Disk) : Log := ⟨[], false, .standard, [], disk⟩

/-! ## Settings -/

def enableTopic (log : Log) : Topic → Log
  | .everything =>
    { log with silent := false, topics := Topic.every.filter (· ≠ .nothing) }
  | .nothing => { log with silent := true, topics := [] }
  | topic =>
    { log with
      silent := false
      topics := if log.topics.contains topic then log.topics else topic :: log.topics }

def enable (log : Log) (tag : String) : Except UnknownTopic Log :=
  match Topic.ofTag? tag with
  | some topic => .ok (log.enableTopic topic)
  | none => .error ⟨tag⟩

/-- Switches topics on in turn. Those before an unknown one stay on. -/
def enableAll (log : Log) : List String → Log × Option UnknownTopic
  | [] => (log, none)
  | tag :: tags =>
    match log.enable tag with
    | .ok log => log.enableAll tags
    | .error unknown => (log, some unknown)

def shows (log : Log) (topic : Topic) : Bool := !log.silent && log.topics.contains topic

def showsTag (log : Log) (tag : String) : Bool :=
  match Topic.ofTag? tag with
  | some topic => log.shows topic
  | none => false

/-- Closes the file that is open and forgets all settings. -/
def close (log : Log) : Log := { new log.disk with printed := log.printed }

/-- Starts over, writing to a file; without a name, to standard output. -/
def start (log : Log) (file : String) (c : Compression) : Log :=
  if file = "" then log.close
  else
    match log.disk.create? (c.fileName file) with
    | some (number, disk) => { log.close with sink := .file number 0, disk }
    | none => { log.close with sink := .nowhere }

/-! ## Entries -/

/-- Prints a text to standard output, wherever the log writes to. -/
def print (log : Log) (text : String) : Log := { log with printed := text :: log.printed }

def write (log : Log) (text : String) : Log :=
  match log.sink with
  | .standard => log.print text
  | .file number position =>
    { log with
      sink := .file number (position + text.utf8ByteSize)
      disk := log.disk.write number position text }
  | .nowhere => log

/-- The last line of a framed entry. -/
def rule : String := String.ofList (List.replicate 79 '-')

def entry (log : Log) (topic : Topic) (text : Unit → String) : Log :=
  if log.shows topic then log.write (text ()) else log

def framed (tag text : String) : String :=
  "------------- [" ++ tag ++ "] -------------\n" ++ text ++ rule ++ "\n"

def framedEntry (log : Log) (topic : Topic) (text : Unit → String) : Log :=
  if log.shows topic then log.write (framed topic.tag (text ())) else log

def progress (log : Log) (text : Unit → String) : Log :=
  if log.silent then log else log.write (text ())

def output (log : Log) : String := String.join log.printed.reverse

end Log

end InvariantSearch
