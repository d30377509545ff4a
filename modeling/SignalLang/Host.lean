import SignalLang.Value.Basic

/-!
# Hosts

A signal that no handler matches goes to the host, the program that runs this one.  A host may
answer it; a `Debug` signal that it declines is recorded as a line.  What a host answers depends on
the signal and on the signals it was asked about before.

* `Host.answer` : what a host answers, given what it was asked before.
* `HostLog` : what a host was asked, and the lines it keeps.
-/

namespace SignalLang

/-- A signal that the host is asked about, with the name of its type. -/
structure Question where
  name : String
  signal : Value
deriving Inhabited

/-- The values of the fields of the signal. -/
def Question.arguments (q : Question) : List Value := (q.signal.fields?.getD []).map fun f => f.2

/-- What a host does with signals and lines. -/
inductive Host where
  /-- Prints lines and answers nothing. -/
  | stdout
  /-- Keeps lines and answers nothing. -/
  | buffer
  /-- Answers some signals, given what it was asked before, the latest first, and keeps lines. -/
  | responding (respond : List Question → Question → Option Value)
  /-- Drops lines and answers nothing. -/
  | silent

/-- What a host was asked, the latest question first, and the lines it keeps. -/
structure HostLog where
  questions : List Question
  lines : Array String
deriving Inhabited

/-- A host that was asked nothing. -/
def HostLog.empty : HostLog := ⟨[], #[]⟩

namespace Host

/-- The written form in dumps of the internal state. -/
def dump : Host → String
  | .stdout => "HostHandlerImpl(\"Stdout\")"
  | .buffer => "HostHandlerImpl(\"Buffer\")"
  | .responding _ => "HostHandlerImpl(\"Responding\")"
  | .silent => "HostHandlerImpl(\"Silent\")"

/-- What the host answers to a question, after the questions it was asked before. -/
def answer : Host → List Question → Question → Option Value
  | .responding respond, earlier, q => respond earlier q
  | _, _, _ => none

/-- Whether the host keeps the lines it is given. -/
def keepsLines : Host → Bool
  | .buffer => true
  | .responding _ => true
  | .stdout => false
  | .silent => false

/-- Asks the host about a signal. -/
def ask (h : Host) (log : HostLog) (q : Question) : Option Value × HostLog :=
  (h.answer log.questions q, { log with questions := q :: log.questions })

/-- Gives the host a line. -/
def debug (h : Host) (log : HostLog) (line : String) : HostLog :=
  if h.keepsLines then { log with lines := log.lines.push line } else log

/-- Drops the lines kept so far. -/
def clear (_ : Host) (log : HostLog) : HostLog := { log with lines := #[] }

end Host

/-! ### Hosts by rules -/

/-- How a host answers the signals of one name, or of every name: one answer after the other, and
the last one from then on. -/
structure HostRule where
  signal : String
  answers : List (Option Value)

namespace HostRule

/-- Whether a rule is about signals of a name.  A star stands for every name. -/
def covers (r : HostRule) (name : String) : Bool := r.signal == name || r.signal == "*"

/-- The answer for the signal after `used` others; `none` declines. -/
def answerAt (r : HostRule) (used : Nat) : Option Value :=
  (r.answers[min used (r.answers.length - 1)]?).join

end HostRule

/-- A host that follows the first rule about the name of a signal. -/
def Host.byRules (rules : List HostRule) : Host :=
  .responding fun earlier q =>
    match rules.findIdx? fun r => r.covers q.name with
    | none => none
    | some i =>
      let used := earlier.countP fun p => rules.findIdx? (fun r => r.covers p.name) == some i
      (rules[i]?).bind fun r => r.answerAt used

end SignalLang
