/-
The tree that tokens make.

Reading is a machine: its state is the construct being read with those
around it (`Context`), what the next token has to be (`Mode`) and where the
last token stopped; `State.step` takes one token. So whether a token is in
place is decided by the tokens up to it, and the first one out of place is
reported.

The value of a variable goes on to the end of its line: a newline or a
comment ends the innermost value, a closing parenthesis, `#end` and the end
of the text end all values begun since the last call or definition, and so
does a pipe if that is a call. Elsewhere a pipe is text.
-/
import Markup.Token.Basic
import Markup.Node.Basic
import Markup.BuiltIn

namespace Markup

/-! ## Errors -/

/-- What a token is not. -/
inductive ParseError.Expected where
  | value
  | callName
  | variableName
  | moduleName
  | definitionName
  | parameterName
  | parameterOrBody
  | closeParen
  | endWord
  deriving DecidableEq, Repr, Inhabited

/-- How a message names what is missing. -/
def ParseError.Expected.describe : ParseError.Expected → String
  | value => "value"
  | callName => "macro name"
  | variableName => "variable name"
  | moduleName => "module name"
  | definitionName => "macro name"
  | parameterName => "argument name after '$'"
  | parameterOrBody => "argument or body text"
  | closeParen => "')'"
  | endWord => "#end"

/-- A token out of place. -/
structure ParseError where
  expected : ParseError.Expected
  found : Token
  deriving DecidableEq, Repr, Inhabited

/-- What is reported. -/
def ParseError.message (e : ParseError) : String :=
  "expected " ++ e.expected.describe ++ " but found " ++ e.found.describe

/-- Where it is reported. -/
def ParseError.span (e : ParseError) : Span := e.found.span

namespace Node

/-! ## The value of a variable -/

/-- A node of a variable's value; `trimmable` if it is plain text as it stands in the source. -/
structure Piece where
  node : Node
  trimmable : Bool

/-- Cuts blanks off the pieces at the front: pieces of nothing but blanks go, and the first
other one loses its own. -/
def trimEdge (cut : String → String) : List Piece → List Piece
  | ⟨.text value span, true⟩ :: rest =>
    if Text.isAllBlank value then trimEdge cut rest else ⟨.text (cut value) span, true⟩ :: rest
  | pieces => pieces

/-- Cuts the blanks off both ends of a variable's value. Escaped blanks are kept. -/
def trimLine (pieces : List Piece) : List Piece :=
  (trimEdge Text.stripEnd (trimEdge Text.stripStart pieces).reverse).reverse

/-! ## The state -/

/-- The construct being read, with what it holds so far, newest first, and those around it. -/
inductive Context where
  | document (values : List Node)
  | call (start : Position) (name : String) (groups : List Group) (groupStart : Position)
    (values : List Node) (outer : Context)
  | define (start : Position) (name : String) (params : List String) (values : List Node)
    (outer : Context)
  | line (start : Position) (name : String) (changes : Bool) (pieces : List Piece)
    (outer : Context)

/-- The constructs that begin with a name. -/
inductive Named where
  | call
  | use
  | define
  | bind (changes : Bool)
  deriving DecidableEq, Repr

/-- What is missing where a construct has no name. -/
def Named.expected : Named → ParseError.Expected
  | call => .callName
  | use => .moduleName
  | define => .definitionName
  | bind _ => .variableName

/-- What the next token has to be. -/
inductive Mode where
  /-- It goes on with the construct being read. -/
  | ready
  /-- It is the name of a construct that starts at `start`. -/
  | name (construct : Named) (start : Position)
  /-- It is reported: it stands behind a blank name. -/
  | blank (construct : Named)
  /-- It is a parameter, or the body of the definition begins with it; parameters newest first. -/
  | params (start : Position) (name : String) (params : List String)
  /-- A group of a call begins with it; finished groups newest first. -/
  | group (start : Position) (name : String) (groups : List Group)

/-- The state between two tokens. -/
structure State where
  context : Context
  mode : Mode
  /-- Where the last token stopped. -/
  lastStop : Position

/-- The state before the first token. -/
def State.start : State := ⟨.document [], .ready, .first⟩

namespace Context

/-- Adds a node to the construct being read. -/
def push (node : Node) (trimmable : Bool) : Context → Context
  | document values => document (node :: values)
  | call start name groups groupStart values outer =>
    call start name groups groupStart (node :: values) outer
  | define start name params values outer => define start name params (node :: values) outer
  | line start name changes pieces outer =>
    line start name changes (⟨node, trimmable⟩ :: pieces) outer

/-- The variable whose value has the given pieces, newest first. -/
def bound (start stop : Position) (name : String) (changes : Bool) (pieces : List Piece) : Node :=
  .bind name changes ((trimLine pieces.reverse).map (·.node)) ⟨start, stop⟩

/-- Ends the value being read, if it is one. -/
def closeLine (stop : Position) : Context → Context
  | line start name changes pieces outer =>
    outer.push (bound start stop name changes pieces) false
  | ctx => ctx

/-- Adds a node, if there is one, and ends all values begun since the last call or definition. -/
def closeLinesWith (stop : Position) : Context → Option Node → Context
  | line start name changes pieces outer, node =>
    let pieces := (node.map (⟨·, false⟩)).toList ++ pieces
    closeLinesWith stop outer (some (bound start stop name changes pieces))
  | ctx, some node => ctx.push node false
  | ctx, none => ctx

/-- Ends all values begun since the last call or definition. -/
def closeLines (stop : Position) (ctx : Context) : Context := closeLinesWith stop ctx none

/-- Whether the last call or definition begun is a call. -/
def inCall : Context → Bool
  | document _ => false
  | call .. => true
  | define .. => false
  | line _ _ _ _ outer => outer.inCall

/-- The nodes of the whole document that are finished. -/
def finished : Context → List Node
  | document values => values.reverse
  | call _ _ _ _ _ outer => outer.finished
  | define _ _ _ _ outer => outer.finished
  | line _ _ _ _ outer => outer.finished

end Context

/-! ## One token -/

/-- Whether a token ends a variable's value and its line with it. -/
def endsLine (t : Token) : Bool :=
  match t.kind with
  | .comment => true
  | .text => t.value.toList.contains '\n'
  | _ => false

/-- Whether a token ends all values begun since the last call or definition. -/
def endsLines (ctx : Context) (t : Token) : Bool :=
  match t.kind with
  | .endOfInput | .keyword .endWord | .closeParen => true
  | .pipe => ctx.inCall
  | _ => false

/-- Takes a token where a value may begin. -/
def stepValue (ctx : Context) (t : Token) : Except ParseError State :=
  let ready (ctx : Context) : Except ParseError State := .ok ⟨ctx, .ready, t.span.stop⟩
  let name (construct : Named) : Except ParseError State :=
    .ok ⟨ctx, .name construct t.span.start, t.span.stop⟩
  match t.kind with
  | .keyword .letWord => name (.bind false)
  | .keyword .setWord => name (.bind true)
  | .keyword .useWord => name .use
  | .keyword .defWord => name .define
  | .openParen => name .call
  | .reference => ready (ctx.push (.reference t.value false t.span) false)
  | .number value => ready (ctx.push (.number value t.span) false)
  | .text => ready (ctx.push (.text t.value t.span) true)
  | .escape | .hash | .slash | .pipe => ready (ctx.push (.text t.value t.span) false)
  | .argument => ready (ctx.push (.text ("$" ++ t.value) t.span) false)
  | .comment => ready ctx
  | .keyword .endWord | .identifier | .closeParen | .endOfInput => .error ⟨.value, t⟩

/-- The groups of a call, newest first, with the values of one more. -/
def addGroup (groups : List Group) (values : List Node) (span : Span) : List Group :=
  ⟨groups.length, values.reverse, span⟩ :: groups

/-- Takes a token that ends no line. -/
def stepInner (ctx : Context) (t : Token) : Except ParseError State :=
  match ctx with
  | .document _ =>
    if t.kind = .endOfInput then .ok ⟨ctx, .ready, t.span.stop⟩ else stepValue ctx t
  | .line .. => stepValue ctx t
  | .call start name groups groupStart values outer =>
    match t.kind with
    | .closeParen =>
      let groups :=
        if values.isEmpty && groups.isEmpty then groups
        else addGroup groups values ⟨groupStart, t.span.start⟩
      let node := Node.call name groups.reverse ⟨start, t.span.stop⟩
      .ok ⟨outer.push node false, .ready, t.span.stop⟩
    | .pipe =>
      .ok ⟨outer, .group start name (addGroup groups values ⟨groupStart, t.span.start⟩),
        t.span.stop⟩
    | .endOfInput => .error ⟨.closeParen, t⟩
    | _ => stepValue ctx t
  | .define start name params values outer =>
    match t.kind with
    | .keyword .endWord =>
      let node := Node.define name params values.reverse ⟨start, t.span.stop⟩
      .ok ⟨outer.push node false, .ready, t.span.stop⟩
    | .endOfInput => .error ⟨.endWord, t⟩
    | _ => stepValue ctx t

/-- Takes a token that goes on with the construct being read. -/
def stepReady (ctx : Context) (lastStop : Position) (t : Token) : Except ParseError State :=
  match ctx with
  | .line .. =>
    if endsLines ctx t then stepInner (ctx.closeLines lastStop) t
    else if endsLine t then .ok ⟨ctx.closeLine t.span.stop, .ready, t.span.stop⟩
    else stepInner ctx t
  | _ => stepInner ctx t

/-- Takes the name of a construct. -/
def stepName (ctx : Context) (construct : Named) (start : Position) (t : Token) : State :=
  let blank := Text.isAllBlank t.value
  match construct with
  | .call => ⟨ctx, .group start t.value [], t.span.stop⟩
  | .use =>
    if blank then ⟨ctx, .blank construct, t.span.stop⟩
    else
      let moduleName := Text.strip t.value
      let builtIn := BuiltIn.moduleNames.contains moduleName
      ⟨ctx.push (.use moduleName builtIn ⟨start, t.span.stop⟩) false, .ready, t.span.stop⟩
  | .define =>
    if blank then ⟨ctx, .blank construct, t.span.stop⟩
    else ⟨ctx, .params start t.value [], t.span.stop⟩
  | .bind changes =>
    if blank then ⟨ctx, .blank construct, t.span.stop⟩
    else ⟨.line start t.value changes [] ctx, .ready, t.span.stop⟩

/-- Takes a token. The end of the text leaves the state of a whole document, or is out of place. -/
def State.step (st : State) (t : Token) : Except ParseError State :=
  match st.mode with
  | .ready => stepReady st.context st.lastStop t
  | .name construct start =>
    if t.kind = .identifier then .ok (stepName st.context construct start t)
    else .error ⟨construct.expected, t⟩
  | .blank construct => .error ⟨construct.expected, t⟩
  | .group start name groups =>
    stepReady (.call start name groups t.span.start [] st.context) st.lastStop t
  | .params start name params =>
    match t.kind with
    | .argument =>
      if t.value.isEmpty then .error ⟨.parameterName, t⟩
      else .ok ⟨st.context, .params start name (t.value :: params), t.span.stop⟩
    | .text | .escape | .comment | .keyword .endWord =>
      stepReady (.define start name params.reverse [] st.context) st.lastStop t
    | .endOfInput => .error ⟨.endWord, t⟩
    | _ => .error ⟨.parameterOrBody, t⟩

/-! ## All tokens -/

/-- Takes tokens up to the first that marks the end; behind the last one an end is understood. -/
def State.run (st : State) : List Token → Except ParseError (List Node)
  | [] =>
    (st.step ⟨.endOfInput, "", "", ⟨st.lastStop, st.lastStop⟩⟩).map (·.context.finished)
  | t :: rest =>
    match st.step t with
    | .error e => .error e
    | .ok next => if t.kind = .endOfInput then .ok next.context.finished else next.run rest

/-- The nodes of a document with the given tokens. -/
def parse (tokens : List Token) : Except ParseError (List Node) := State.start.run tokens

/-! ## Room -/

/-- Why tokens give no nodes where there is only so much room. -/
inductive Halt where
  | refused (e : ParseError)
  | full
  deriving DecidableEq, Repr, Inhabited

/-- Takes tokens as `State.run` does, as long as there is room; `isFull` tells whether there is none
to take a token in a state. -/
def State.runWithin (isFull : State → Token → Bool) (st : State) :
    List Token → Except Halt (List Node)
  | [] =>
    if isFull st ⟨.endOfInput, "", "", ⟨st.lastStop, st.lastStop⟩⟩ then .error .full
    else (st.run []).mapError .refused
  | t :: rest =>
    if isFull st t then .error .full
    else
      match st.step t with
      | .error e => .error (.refused e)
      | .ok next =>
        if t.kind = .endOfInput then .ok next.context.finished else next.runWithin isFull rest

/-- The nodes of a document with the given tokens, where there is only so much room. -/
def parseWithin (isFull : State → Token → Bool) (tokens : List Token) :
    Except Halt (List Node) := State.start.runWithin isFull tokens

/-! ## The record of what is reported -/

/-- What reading tokens gives, and the messages that it has recorded. -/
structure Reading where
  result : Except ParseError (List Node)
  messages : List String

/-- Takes tokens as `State.run` does, and records the message of every token out of place. -/
def State.runRecording (st : State) (messages : List String) : List Token → Reading
  | [] =>
    match st.step ⟨.endOfInput, "", "", ⟨st.lastStop, st.lastStop⟩⟩ with
    | .error e => ⟨.error e, messages ++ [e.message]⟩
    | .ok next => ⟨.ok next.context.finished, messages⟩
  | t :: rest =>
    match st.step t with
    | .error e => ⟨.error e, messages ++ [e.message]⟩
    | .ok next =>
      if t.kind = .endOfInput then ⟨.ok next.context.finished, messages⟩
      else next.runRecording messages rest

/-- The nodes of a document with the given tokens, with the record of what is reported. -/
def parseRecording (tokens : List Token) : Reading := State.start.runRecording [] tokens

end Node

end Markup
