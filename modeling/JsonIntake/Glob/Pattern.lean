/-!
# Glob patterns

A question mark stands for any character, an asterisk for any run of them,
brackets for one character out of a set, or outside of it after an exclamation
mark.  Two asterisks stand for any number of directories and have to be a path
component of their own.
-/

namespace JsonIntake.Glob

/-- The characters from one to another, both included. -/
structure CharSpan where
  first : Char
  last : Char
deriving DecidableEq, Repr

def CharSpan.contains (span : CharSpan) (c : Char) : Bool :=
  span.first ≤ c && c ≤ span.last

inductive Token where
  | char (c : Char)
  | anyChar
  | anyRun
  | anyDirectories
  | within (spans : List CharSpan)
  | except (spans : List CharSpan)
deriving DecidableEq, Repr

/-- The character that a token stands for, if it is one. -/
def Token.char? : Token → Option Char
  | .char c => some c
  | _ => none

inductive FaultCause where
  | longWildcard
  | recursiveInComponent
  | invalidRange
deriving DecidableEq, Repr

def FaultCause.text : FaultCause → String
  | .longWildcard => "wildcards are either regular `*` or recursive `**`"
  | .recursiveInComponent =>
    "recursive wildcards must form a single path component"
  | .invalidRange => "invalid range pattern"

/-- What is wrong with a pattern, and where. -/
structure PatternFault where
  cause : FaultCause
  position : Nat
deriving DecidableEq, Repr

def PatternFault.message (fault : PatternFault) : String :=
  "Pattern syntax error near position " ++ toString fault.position ++ ": " ++
    fault.cause.text

/-- The set between brackets: spans with a hyphen, and single characters. -/
def charSpans : List Char → List CharSpan
  | first :: '-' :: last :: rest => ⟨first, last⟩ :: charSpans rest
  | c :: rest => ⟨c, c⟩ :: charSpans rest
  | [] => []

/-- The set behind an opening bracket, and the rest behind the closing one.  A
set has at least one character, so a closing bracket in the first place is
part of it. -/
def readSet : List Char → Option (Token × List Char)
  | '!' :: first :: rest =>
    let inner := rest.takeWhile (· ≠ ']')
    match rest.drop inner.length with
    | [] => none
    | _ :: behind => some (.except (charSpans (first :: inner)), behind)
  | ['!'] => none
  | first :: rest =>
    let inner := rest.takeWhile (· ≠ ']')
    match rest.drop inner.length with
    | [] => none
    | _ :: behind => some (.within (charSpans (first :: inner)), behind)
  | [] => none

/-- Read the tokens of a pattern, given the character before and the position.
Every token takes at least one character, so the length bounds the steps. -/
def readTokens : (steps : Nat) → (previous : Option Char) →
    (position : Nat) → List Char → Except PatternFault (List Token)
  | 0, _, _, _ => .ok []
  | _ + 1, _, _, [] => .ok []
  | steps + 1, previous, position, '*' :: rest =>
    let run := 1 + (rest.takeWhile (· = '*')).length
    let behind := rest.dropWhile (· = '*')
    if 2 < run then .error ⟨.longWildcard, position + 2⟩
    else if run = 2 then
      if previous.all (· = '/') then
        match behind with
        | [] => .ok [.anyDirectories]
        | '/' :: behind => do
          let tokens ← readTokens steps (some '/') (position + 3) behind
          .ok (.anyDirectories :: tokens)
        | _ => .error ⟨.recursiveInComponent, position + 2⟩
      else .error ⟨.recursiveInComponent, position - 1⟩
    else do
      let tokens ← readTokens steps (some '*') (position + 1) behind
      .ok (.anyRun :: tokens)
  | steps + 1, _, position, '?' :: rest => do
    let tokens ← readTokens steps (some '?') (position + 1) rest
    .ok (.anyChar :: tokens)
  | steps + 1, _, position, '[' :: rest =>
    match readSet rest with
    | none => .error ⟨.invalidRange, position⟩
    | some (token, behind) => do
      let taken := rest.length - behind.length
      let tokens ← readTokens steps (some ']') (position + 1 + taken) behind
      .ok (token :: tokens)
  | steps + 1, _, position, c :: rest => do
    let tokens ← readTokens steps (some c) (position + 1) rest
    .ok (.char c :: tokens)

/-- The pattern for one path component, or for a whole path. -/
structure Pattern where
  tokens : List Token
deriving DecidableEq, Repr

namespace Pattern

def parse (text : List Char) : Except PatternFault Pattern :=
  (readTokens (text.length + 1) none 0 text).map Pattern.mk

/-- Whether the pattern stands for any number of directories. -/
def isRecursive (pattern : Pattern) : Bool :=
  pattern.tokens.contains .anyDirectories

/-- The name that a pattern without wildcards stands for. -/
def literal? (pattern : Pattern) : Option String :=
  (pattern.tokens.mapM Token.char?).map String.ofList

/-- Whether some rest of a list passes a test. -/
def anyRest (test : List Char → Bool) : List Char → Bool
  | [] => test []
  | c :: rest => test (c :: rest) || anyRest test rest

def matchTokens : List Token → List Char → Bool
  | [], name => name.isEmpty
  | .anyRun :: tokens, name => anyRest (matchTokens tokens) name
  | .anyDirectories :: tokens, name => anyRest (matchTokens tokens) name
  | _ :: _, [] => false
  | .char wanted :: tokens, c :: name =>
    wanted == c && matchTokens tokens name
  | .anyChar :: tokens, _ :: name => matchTokens tokens name
  | .within spans :: tokens, c :: name =>
    (spans.any fun span => span.contains c) && matchTokens tokens name
  | .except spans :: tokens, c :: name =>
    !(spans.any fun span => span.contains c) && matchTokens tokens name

/-- Whether a name fits the pattern. -/
def fits (pattern : Pattern) (name : String) : Bool :=
  matchTokens pattern.tokens name.toList

end Pattern

end JsonIntake.Glob
