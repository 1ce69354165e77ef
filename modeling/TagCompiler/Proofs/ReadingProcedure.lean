import TagCompiler.Proofs.Recursion
import TagCompiler.Proofs.StatementEquations
/-!
# Reading as a procedure

The readers of a template, written as procedures that ask each other: nothing in them says that
they come to an end. Each loop is a question that asks itself about what is left. The readers of
`TagCompiler.Template` are answers to all the questions.
-/

namespace TagCompiler.Template

open Text

/-- What can be asked about unread input, which stands last. -/
inductive Question where
  | template (done : List Node) (run : List DocBlock) (doc : Option String) (trim : Bool)
      (s : List Char)
  | body (ends : List String) (done : List Node) (trim : Bool) (s : List Char)
  | element (top : Bool) (doc : Option String) (trim : Bool) (s : List Char)
  | text (top : Bool) (s : List Char)
  | output (s : List Char)
  | statement (doc : Option String) (s : List Char)
  | macroHead (s : List Char)
  | callHead (s : List Char)
  | loopHead (s : List Char)
  | setStatement (s : List Char)
  | ifStatement (s : List Char)
  | forStatement (s : List Char)
  | skipTag (s : List Char)
  | declarations (s : List Char)
  | condition (s : List Char)
  | connectives (s : List Char)
  | expression (s : List Char)
  | operators (s : List Char)
  | operand (s : List Char)
  | filters (subject : Node) (s : List Char)
  | primary (s : List Char)
  | reference (s : List Char)
  | pathTail (s : List Char)
  | arguments (s : List Char)
  | argument (s : List Char)
  | items (s : List Char)
  | entries (s : List Char)
  | dottedTail (s : List Char)
  | quoted (s : List Char)
  | quotedBody (quote : Char) (s : List Char)

namespace Question

/-- The type of answers. All but the first and the last have the rest of the input. -/
@[reducible] def Answer : Question → Type
  | .template .. => List Node
  | .body .. => Body × List Char
  | .element .. | .output _ | .statement .. => Element × List Char
  | .text .. => List Char × List Char
  | .macroHead _ | .callHead _ => (String × List Node × Bool) × List Char
  | .loopHead _ => LoopHead × List Char
  | .setStatement _ | .ifStatement _ | .forStatement _ => Statement × List Char
  | .skipTag _ => Unit × List Char
  | .declarations _ | .connectives _ | .operators _ | .arguments _ | .items _ | .entries _ =>
    List Node × List Char
  | .condition _ | .expression _ | .operand _ | .filters .. | .primary _ | .reference _
  | .argument _ => Node × List Char
  | .pathTail _ | .dottedTail _ => List String × List Char
  | .quoted _ => String × List Char
  | .quotedBody .. => Option (List Char × List Char)

end Question

abbrev Reader := Code Failure Question Question.Answer

namespace Reader

def ask (q : Question) : Reader q.Answer := Code.ask q

/-- A lexeme, which is read without asking. -/
def lexeme {α : Type} (x : Except Failure α) : Reader α := Code.ofExcept x

/-! ### Strings and names -/

def quotedBody (quote : Char) (s : List Char) : Reader (Option (List Char × List Char)) :=
  match s with
  | [] => return none
  | c :: r =>
    if c = quote then return some ([], r)
    else if c = '\\' then
      match r with
      | [] => ask (.quotedBody quote [])
      | e :: r => do
        let found ← ask (.quotedBody quote r)
        return found.map fun p => (unescape e :: p.1, p.2)
    else do
      let found ← ask (.quotedBody quote r)
      return found.map fun p => (c :: p.1, p.2)

def quoted (s : List Char) : Reader (String × List Char) :=
  match s with
  | [] => lexeme (fail (.unterminated "string literal") [])
  | q :: r => do
    match ← ask (.quotedBody q r) with
    | some (cs, t) => return (String.ofList cs, t)
    | none => lexeme (fail (.unterminated "string literal") (q :: r))

/-- The part of a path after a dot, where `c` and `r` follow the dot, and all that `more` reads. -/
def dotPart (more : List Char → Reader (List String × List Char)) (c : Char) (r : List Char) :
    Reader (List String × List Char) :=
  if isNameChar c then do
    let (parts, t) ← more ((c :: r).dropWhile isNameChar)
    return (String.ofList ((c :: r).takeWhile isNameChar) :: parts, t)
  else return ([], '.' :: c :: r)

def dottedTail (s : List Char) : Reader (List String × List Char) :=
  match s with
  | '.' :: c :: r => dotPart (fun t => ask (.dottedTail t)) c r
  | s => return ([], s)

def index (s : List Char) : Reader (String × List Char) :=
  if s.head?.any isQuote then ask (.quoted s) else lexeme (plain (Template.index s))

def mapKey (s : List Char) : Reader (String × List Char) :=
  if (skipBlanks s).head?.any isQuote then ask (.quoted (skipBlanks s))
  else lexeme (plain (nameHere (skipBlanks s)))

def pathTail (s : List Char) : Reader (List String × List Char) :=
  match s with
  | '.' :: c :: r => dotPart (fun t => ask (.pathTail t)) c r
  | '[' :: r => do
    let (part, t) ← index (skipBlanks r)
    let (_, t) ← lexeme (plain (demandSpaced "]" t))
    let (more, t) ← ask (.pathTail t)
    return (part :: more, t)
  | s => return ([], s)

/-! ### Expressions -/

/-- A chain: its first element, and then all that follows. -/
def chained (wrap : List Node → Node) (first : Reader (Node × List Char))
    (more : List Char → Reader (List Node × List Char)) : Reader (Node × List Char) := do
  let (n, r) ← first
  let (ns, r) ← more r
  return (chain wrap n ns, r)

/-- The rest of a chain, which goes on if a link was found. -/
def linked (link? : Option (Node × List Char)) (next : List Char → Reader (Node × List Char))
    (more : List Char → Reader (List Node × List Char)) (s : List Char) :
    Reader (List Node × List Char) :=
  match link? with
  | none => return ([], skipBlanks s)
  | some (link, r) => do
    let (n, r) ← next r
    let (ns, r) ← more r
    return (link :: n :: ns, r)

def condition (s : List Char) : Reader (Node × List Char) :=
  chained .condition (ask (.expression s)) fun r => ask (.connectives r)

def connectives (s : List Char) : Reader (List Node × List Char) :=
  linked ((plain (connective? s)).map fun p => (.connective p.1, p.2))
    (fun r => ask (.expression r)) (fun r => ask (.connectives r)) s

def expression (s : List Char) : Reader (Node × List Char) :=
  chained .expression (ask (.operand s)) fun r => ask (.operators r)

def operators (s : List Char) : Reader (List Node × List Char) :=
  linked ((plain (operator? s)).map fun p => (.operator p.1, p.2))
    (fun r => ask (.operand r)) (fun r => ask (.operators r)) s

def operand (s : List Char) : Reader (Node × List Char) :=
  match plain (negation? s) with
  | some (_, r) => do
    let (e, r) ← ask (.operand r)
    return (.expression [.operator "not", e], r)
  | none => do
    let (e, r) ← ask (.primary (skipBlanks s))
    ask (.filters e r)

def filters (subject : Node) (s : List Char) : Reader (Node × List Char) :=
  match plain (pipe? s) with
  | none => return (subject, skipBlanks s)
  | some (_, r) => do
    let (n, r) ← lexeme (plain (name r))
    match plain (spaced? "(" r) with
    | some (_, r) => do
      let (args, r) ← ask (.arguments r)
      ask (.filters (.filter n subject (.parameters args)) r)
    | none => ask (.filters (.filter n subject (.parameters [])) r)

def primary (s : List Char) : Reader (Node × List Char) :=
  match s with
  | [] => lexeme (fail (.endOfInput "expression") [])
  | c :: r =>
    if c = '(' then do
      let (e, t) ← ask (.condition r)
      let (_, t) ← lexeme (plain (demandSpaced ")" t))
      return (.group [e], t)
    else if c = '[' then do
      let (cs, t) ← ask (.items r)
      return (.array cs, t)
    else if c = '\x7b' then do
      let (es, t) ← ask (.entries r)
      return (.parameters es, t)
    else if isQuote c then do
      let (v, t) ← ask (.quoted (c :: r))
      return (Node.string v, t)
    else
      match number? (c :: r) with
      | some n => lexeme (plain n)
      | none =>
        if isNameStart c then ask (.reference (c :: r))
        else lexeme (fail (.missing "expression") (c :: r))

def reference (s : List Char) : Reader (Node × List Char) := do
  let (n, r) ← lexeme (plain (nameHere s))
  match namedLiteral? n with
  | some e => return (e, r)
  | none => do
    let (parts, r) ← ask (.pathTail r)
    match plain (word? "(" r) with
    | some (_, r) => do
      let (args, r) ← ask (.arguments r)
      return (callOrYield (n :: parts) args, r)
    | none => return (.var (n :: parts), r)

/-- The end of a list that `close` closes: another round after a comma, or the end. -/
def listEnd (close : String) (again : List Char → Reader (List Node × List Char)) (n : Node)
    (s : List Char) : Reader (List Node × List Char) :=
  match plain (spaced? "," s) with
  | some (_, r) => do
    let (more, r) ← again r
    return (n :: more, r)
  | none => do
    let (_, r) ← lexeme (plain (demandSpaced close s))
    return ([n], r)

def arguments (s : List Char) : Reader (List Node × List Char) :=
  match plain (spaced? ")" s) with
  | some (_, r) => return ([], r)
  | none => do
    let (a, r) ← ask (.argument s)
    listEnd ")" (fun r => ask (.arguments r)) a r

def argument (s : List Char) : Reader (Node × List Char) :=
  match plain (keywordArgument? s) with
  | some (n, r) => do
    let (e, r) ← ask (.condition r)
    return (.named n e, r)
  | none => do
    let (e, r) ← ask (.condition s)
    return (.positional e, r)

def items (s : List Char) : Reader (List Node × List Char) :=
  match plain (spaced? "]" s) with
  | some (_, r) => return ([], r)
  | none => do
    let (e, r) ← ask (.condition s)
    listEnd "]" (fun r => ask (.items r)) e r

def entries (s : List Char) : Reader (List Node × List Char) :=
  match plain (spaced? "\x7d" s) with
  | some (_, r) => return ([], r)
  | none => do
    let (key, r) ← mapKey s
    let (_, r) ← lexeme (plain (demandSpaced ":" r))
    let (e, r) ← ask (.condition r)
    listEnd "\x7d" (fun r => ask (.entries r)) (.named key e) r

/-! ### Heads of statements -/

def default (s : List Char) : Reader (Option Node × List Char) :=
  match plain (spaced? "=" s) with
  | some (_, r) => do
    let (e, r) ← ask (.condition r)
    return (some e, r)
  | none => return (none, s)

def declarations (s : List Char) : Reader (List Node × List Char) :=
  match plain (spaced? ")" s) with
  | some (_, r) => return ([], r)
  | none => do
    let (n, r) ← lexeme (plain (name s))
    let (value, r) ← default r
    listEnd ")" (fun r => ask (.declarations r)) (.parameter (some n) value) r

def macroHead (s : List Char) : Reader ((String × List Node × Bool) × List Char) := do
  let (n, r) ← lexeme (plain (name s))
  let (_, r) ← lexeme (plain (demandSpaced "(" r))
  let (ps, r) ← ask (.declarations r)
  let (trim, r) ← lexeme (plain (tagEnd "%\x7d" r))
  return ((n, ps, trim), r)

def blockParameters (s : List Char) : Reader (Unit × List Char) :=
  match plain (spaced? "(" s) with
  | some (_, r) => do
    let (_, r) ← ask (.declarations r)
    return ((), r)
  | none => return ((), s)

def callHead (s : List Char) : Reader ((String × List Node × Bool) × List Char) := do
  let (_, r) ← blockParameters s
  let (first, r) ← lexeme (plain (name r))
  let (parts, r) ← ask (.dottedTail r)
  let (_, r) ← lexeme (plain (demandSpaced "(" r))
  let (args, r) ← ask (.arguments r)
  let (trim, r) ← lexeme (plain (tagEnd "%\x7d" r))
  return ((".".intercalate (first :: parts), args, trim), r)

def loopHead (s : List Char) : Reader (LoopHead × List Char) := do
  let (names, r) ← lexeme (plain (loopNames s))
  match plain (spacedKeyword? "in" r) with
  | none => lexeme (fail (.missing "'in'") (skipBlanks r))
  | some (_, r) => do
    let (e, r) ← ask (.condition r)
    let (trim, r) ← lexeme (plain (tagEnd "%\x7d" r))
    return (⟨names.1, names.2, e, trim⟩, r)

/-! ### Statements -/

def output (s : List Char) : Reader (Element × List Char) := do
  let (e, r) ← ask (.condition s)
  let (trim, r) ← lexeme (plain (tagEnd "\x7d\x7d" r))
  return (⟨some (outputOf e), trim⟩, r)

def skipTag (s : List Char) : Reader (Unit × List Char) :=
  match s with
  | [] => return ((), [])
  | c :: r =>
    if startsWith "%\x7d" (c :: r) || startsWith "-%\x7d" (c :: r) then return ((), c :: r)
    else if isQuote c then do
      let (_, t) ← ask (.quoted (c :: r))
      ask (.skipTag t)
    else ask (.skipTag r)

/-- A body and the end of the tag that closes it. -/
def blockEnd (ends : List String) (trim : Bool) (s : List Char) :
    Reader ((Body × Bool) × List Char) := do
  let (b, r) ← ask (.body ends [] trim s)
  let (trim, r) ← lexeme (plain (tagEnd "%\x7d" r))
  return ((b, trim), r)

def setStatement (s : List Char) : Reader (Statement × List Char) := do
  let (n, r) ← lexeme (plain (name s))
  match plain (spaced? "=" r) with
  | some (_, r) => do
    let (e, r) ← ask (.condition r)
    let (trim, r) ← lexeme (plain (tagEnd "%\x7d" r))
    return (⟨.assign (.var [n]) e .set, trim⟩, r)
  | none =>
    if startsWith "," (skipBlanks r) then lexeme (fail .severalTargets (skipBlanks r))
    else do
      let (trim, r) ← lexeme (plain (tagEnd "%\x7d" r))
      let ((b, trim), r) ← blockEnd ["endset"] trim r
      return (⟨.assign (.var [n]) (.list b.nodes) .set, trim⟩, r)

/-- A further condition, as the only element of the second branch. -/
def otherwise (e : Node) (yes : List Node) (s : List Char) : Reader (Statement × List Char) := do
  let (other, r) ← ask (.ifStatement s)
  return (⟨.branch e yes [other.node], other.trim⟩, r)

def ifStatement (s : List Char) : Reader (Statement × List Char) := do
  let (e, r) ← ask (.condition s)
  let (trim, r) ← lexeme (plain (tagEnd "%\x7d" r))
  let (yes, r) ← ask (.body ["elif", "elseif", "else", "endif"] [] trim r)
  if yes.closer = "elif" ∨ yes.closer = "elseif" then otherwise e yes.nodes r
  else if yes.closer = "else" then
    match plain (spacedKeyword? "if" r) with
    | some (_, r) => otherwise e yes.nodes r
    | none => do
      let (trim, r) ← lexeme (plain (tagEnd "%\x7d" r))
      let ((no, trim), r) ← blockEnd ["endif"] trim r
      return (⟨.branch e yes.nodes no.nodes, trim⟩, r)
  else do
    let (trim, r) ← lexeme (plain (tagEnd "%\x7d" r))
    return (⟨.branch e yes.nodes [], trim⟩, r)

def forStatement (s : List Char) : Reader (Statement × List Char) := do
  let (head, r) ← ask (.loopHead s)
  let ((b, trim), r) ← blockEnd ["else", "endfor"] head.trim r
  let n : Node := .loop head.key head.item head.source b.nodes
  if b.closer = "else" then do
    let ((no, trim), r) ← blockEnd ["endfor"] trim r
    return (⟨.branch head.source [n] no.nodes, trim⟩, r)
  else return (⟨n, trim⟩, r)

/-- The statement that another reader reads. -/
def given (x : Reader (Statement × List Char)) : Reader (Element × List Char) := do
  let (t, r) ← x
  return (⟨some t.node, t.trim⟩, r)

def importTag (s : List Char) : Reader (Element × List Char) := do
  let (_, r) ← ask (.skipTag s)
  let (trim, r) ← lexeme (plain (tagEnd "%\x7d" r))
  return (⟨none, trim⟩, r)

def statement (doc : Option String) (s : List Char) : Reader (Element × List Char) := do
  let (keyword, r) ← lexeme (plain (name s))
  match keyword with
  | "call" => do
    let ((n, args, trim), r) ← ask (.callHead r)
    let ((b, trim), r) ← blockEnd ["endcall"] trim r
    return (⟨some (.call n (.parameters args) b.nodes), trim⟩, r)
  | "macro" => do
    let ((n, ps, trim), r) ← ask (.macroHead r)
    let ((b, trim), r) ← blockEnd ["endmacro"] trim r
    return (⟨some (.macroDef n (.parameters ps) b.nodes doc), trim⟩, r)
  | "set" => given (ask (.setStatement r))
  | "if" => given (ask (.ifStatement r))
  | "for" => given (ask (.forStatement r))
  | "from" | "import" => importTag r
  | _ => lexeme (fail (.unknownKeyword keyword) r)

/-! ### Bodies and templates -/

/-- Whether text ends at the front of `s`. -/
def endsText (top : Bool) (s : List Char) : Bool :=
  startsTag s || (top && (docComment? s).isSome)

def text (top : Bool) (s : List Char) : Reader (List Char × List Char) :=
  match s with
  | [] => return ([], [])
  | c :: r =>
    if endsText top (c :: r) then return ([], c :: r)
    else do
      let (cs, t) ← ask (.text top r)
      return (c :: cs, t)

/-- An element of a body. Where no tag starts it is text, which may be empty. -/
def element (top : Bool) (doc : Option String) (trim : Bool) (s : List Char) :
    Reader (Element × List Char) :=
  match plain (tagStart? "\x7b\x7b" s) with
  | some (_, t) => ask (.output t)
  | none =>
    match plain (tagStart? "\x7b%" s) with
    | some (_, t) => ask (.statement doc t)
    | none =>
      match (comment? s).map plain with
      | some found => do
        let (b, t) ← lexeme found
        return (⟨none, b.2⟩, t)
      | none => do
        let (cs, t) ← ask (.text top s)
        return (⟨some (.text (String.ofList (if trim then skipBlanks cs else cs))), false⟩, t)

def body (ends : List String) (done : List Node) (trim : Bool) (s : List Char) :
    Reader (Body × List Char) :=
  if s.isEmpty then lexeme (fail (.endOfInput (endTags ends)) s)
  else
    let done := if trimsBefore s then trimTail done else done
    match plain (endTag? ends s) with
    | some (closer, t) => return (⟨done.reverse, closer⟩, t)
    | none => do
      let (e, t) ← ask (.element false none trim s)
      ask (.body ends (pushAll done e.node?.toList) e.trim t)

def template (done : List Node) (run : List DocBlock) (doc : Option String) (trim : Bool)
    (s : List Char) : Reader (List Node) :=
  if s.isEmpty then return (pushRun done run).reverse
  else
    let done := if trimsBefore s then trimTail done else done
    match (docBlock? trim s).map plain with
    | some found => do
      let ((block, trim), t) ← lexeme found
      let run := run ++ [block]
      if (plain (statementKeyword? t)).any (·.1 == "macro") then
        ask (.template done [] (run.head?.map DocBlock.doc) trim t)
      else if startsDocBlock t then ask (.template done run none trim t)
      else ask (.template (pushRun done run) [] none trim t)
    | none => do
      let (e, t) ← ask (.element true doc trim s)
      ask (.template (pushAll done e.node?.toList) run none e.trim t)

end Reader

/-- How each question is answered. -/
def reading : (q : Question) → Reader q.Answer
  | .template done run doc trim s => Reader.template done run doc trim s
  | .body ends done trim s => Reader.body ends done trim s
  | .element top doc trim s => Reader.element top doc trim s
  | .text top s => Reader.text top s
  | .output s => Reader.output s
  | .statement doc s => Reader.statement doc s
  | .macroHead s => Reader.macroHead s
  | .callHead s => Reader.callHead s
  | .loopHead s => Reader.loopHead s
  | .setStatement s => Reader.setStatement s
  | .ifStatement s => Reader.ifStatement s
  | .forStatement s => Reader.forStatement s
  | .skipTag s => Reader.skipTag s
  | .declarations s => Reader.declarations s
  | .condition s => Reader.condition s
  | .connectives s => Reader.connectives s
  | .expression s => Reader.expression s
  | .operators s => Reader.operators s
  | .operand s => Reader.operand s
  | .filters subject s => Reader.filters subject s
  | .primary s => Reader.primary s
  | .reference s => Reader.reference s
  | .pathTail s => Reader.pathTail s
  | .arguments s => Reader.arguments s
  | .argument s => Reader.argument s
  | .items s => Reader.items s
  | .entries s => Reader.entries s
  | .dottedTail s => Reader.dottedTail s
  | .quoted s => Reader.quoted s
  | .quotedBody quote s => Reader.quotedBody quote s

/-! ### The answers of the readers -/

/-- An element, which is empty text where the input or a text at the top level ends. -/
def elementAt (top : Bool) (doc : Option String) (trim : Bool) (s : List Char) :
    Except Failure (Element × List Char) :=
  match s with
  | [] => .ok (⟨some (.text ""), false⟩, [])
  | c :: r =>
    if top && (docComment? (c :: r)).isSome then .ok (⟨some (.text ""), false⟩, c :: r)
    else plain (element top doc trim c r)

def answer : (q : Question) → Except Failure q.Answer
  | .template done run doc trim s => elementsFrom done run doc trim s
  | .body ends done trim s => plain (bodyFrom ends done trim s)
  | .element top doc trim s => elementAt top doc trim s
  | .text top s => .ok ((textSpan top s).value, (textSpan top s).rest)
  | .output s => plain (outputTag s)
  | .statement doc s => plain (statement doc s)
  | .macroHead s => plain (macroHead s)
  | .callHead s => plain (callHead s)
  | .loopHead s => plain (loopHead s)
  | .setStatement s => plain (setStatement s)
  | .ifStatement s => plain (ifStatement s)
  | .forStatement s => plain (forStatement s)
  | .skipTag s => plain (skipTag s)
  | .declarations s => plain (declarations s)
  | .condition s => plain (condition s)
  | .connectives s => plain (connectives s)
  | .expression s => plain (expression s)
  | .operators s => plain (operators s)
  | .operand s => plain (operand s)
  | .filters subject s => plain (filters subject s)
  | .primary s => plain (primary s)
  | .reference s => plain (reference s)
  | .pathTail s => plain (pathTail s)
  | .arguments s => plain (arguments s)
  | .argument s => plain (argument s)
  | .items s => plain (items s)
  | .entries s => plain (entries s)
  | .dottedTail s => .ok ((dottedTail s).value, (dottedTail s).rest)
  | .quoted s => plain (quoted s)
  | .quotedBody quote s => .ok (plain (quotedBody? quote s))

namespace Reader

theorem eval_ask_bind {α : Type} (q : Question) (g : q.Answer → Reader α) :
    (ask q >>= g).eval answer = answer q >>= fun a => (g a).eval answer := rfl

theorem eval_lexeme_bind {α β : Type} (x : Except Failure α) (g : α → Reader β) :
    (lexeme x >>= g).eval answer = x >>= fun a => (g a).eval answer := by
  rw [Code.eval_bind, lexeme, Code.eval_ofExcept]

/-! ### Strings and names -/

theorem eval_quotedBody (q : Char) (s : List Char) :
    (quotedBody q s).eval answer = answer (.quotedBody q s) := by
  cases s with
  | nil => rfl
  | cons c r =>
    unfold quotedBody
    dsimp only
    by_cases closes : c = q
    · rw [if_pos closes]
      cases r with
      | nil =>
        rw [answer, quotedBody?, if_pos closes]
        rfl
      | cons e r =>
        rw [answer, plain_quotedBody?_cons, if_pos closes]
        rfl
    · rw [if_neg closes]
      cases r with
      | nil =>
        rw [answer, quotedBody?, if_neg closes]
        by_cases escapes : c = '\\'
        · rw [if_pos escapes]
          rfl
        · rw [if_neg escapes]
          rfl
      | cons e r =>
        rw [answer, plain_quotedBody?_cons, if_neg closes]
        by_cases escapes : c = '\\'
        · rw [if_pos escapes, if_pos escapes]
          rfl
        · rw [if_neg escapes, if_neg escapes]
          rfl

theorem eval_quoted (s : List Char) : (quoted s).eval answer = answer (.quoted s) := by
  cases s with
  | nil => rfl
  | cons q r =>
    rw [answer, plain_quoted, quoted, eval_ask_bind, answer]
    cases plain (quotedBody? q r) <;> rfl

theorem eval_dottedTail (s : List Char) :
    (dottedTail s).eval answer = answer (.dottedTail s) := by
  unfold dottedTail
  split
  · rename_i c r
    unfold dotPart
    split
    · rename_i h
      rw [answer, (dottedTail_dot h r).1, (dottedTail_dot h r).2]
      rfl
    · rename_i h
      have stops := dottedTail_end (s := '.' :: c :: r) (by rintro _ _ ⟨⟩; simpa using h)
      rw [answer, stops.1, stops.2]
      rfl
  · rename_i other
    have stops := dottedTail_end (s := s) (by rintro c r rfl; exact absurd rfl (other c r))
    rw [answer, stops.1, stops.2]
    rfl

theorem eval_index (s : List Char) : (index s).eval answer = plain (Template.index s) := by
  unfold index
  cases s with
  | nil => rfl
  | cons c r =>
    rw [List.head?_cons, Option.any_some, Template.index]
    split
    · exact Code.eval_ask _
    · exact Code.eval_ofExcept _

theorem eval_mapKey (s : List Char) : (mapKey s).eval answer = plain (Template.mapKey s) := by
  unfold mapKey
  rw [plain_mapKey]
  split
  · exact Code.eval_ask _
  · exact Code.eval_ofExcept _

theorem eval_pathTail (s : List Char) : (pathTail s).eval answer = answer (.pathTail s) := by
  rw [answer, plain_pathTail]
  split
  · rename_i c r
    show Code.eval answer (if isNameChar c then _ else _) = if isNameChar c then _ else _
    split <;> rfl
  · rename_i r
    show Code.eval answer (index (skipBlanks r) >>= _) = _
    rw [Code.eval_bind, eval_index]
    refine bind_congr ?_
    rintro ⟨part, t⟩
    exact eval_lexeme_bind _ _
  · rename_i not_dot not_bracket
    unfold pathTail
    split
    · exact absurd rfl (not_dot _ _)
    · exact absurd rfl (not_bracket _)
    · rfl

/-! ### Expressions -/

theorem eval_condition (s : List Char) : (condition s).eval answer = answer (.condition s) := by
  rw [answer, plain_condition]
  rfl

theorem eval_connectives (s : List Char) :
    (connectives s).eval answer = answer (.connectives s) := by
  rw [answer, plain_connectives, connectives]
  cases plain (connective? s) <;> rfl

theorem eval_expression (s : List Char) : (expression s).eval answer = answer (.expression s) := by
  rw [answer, plain_expression]
  rfl

theorem eval_operators (s : List Char) : (operators s).eval answer = answer (.operators s) := by
  rw [answer, plain_operators, operators]
  cases plain (operator? s) <;> rfl

theorem eval_operand (s : List Char) : (operand s).eval answer = answer (.operand s) := by
  rw [answer, plain_operand, operand]
  cases plain (negation? s) with
  | none =>
    refine (eval_ask_bind _ _).trans (bind_congr ?_)
    rintro ⟨e, r⟩
    exact Code.eval_ask _
  | some p => rfl

theorem eval_filters (subject : Node) (s : List Char) :
    (filters subject s).eval answer = answer (.filters subject s) := by
  rw [answer, plain_filters, filters]
  cases plain (pipe? s) with
  | none => rfl
  | some p =>
    refine (eval_lexeme_bind _ _).trans (bind_congr ?_)
    rintro ⟨n, r⟩
    dsimp only
    cases plain (spaced? "(" r) with
    | none => exact Code.eval_ask _
    | some p =>
      refine (eval_ask_bind _ _).trans (bind_congr ?_)
      rintro ⟨args, r⟩
      exact Code.eval_ask _

theorem eval_primary (s : List Char) : (primary s).eval answer = answer (.primary s) := by
  rw [answer]
  unfold primary
  cases s with
  | nil =>
    rw [Template.primary]
    rfl
  | cons c r =>
    dsimp only
    by_cases group : c = '('
    · subst group
      rw [plain_primary_group]
      refine (eval_ask_bind _ _).trans (bind_congr ?_)
      rintro ⟨e, t⟩
      exact eval_lexeme_bind _ _
    · rw [if_neg group]
      by_cases array : c = '['
      · subst array
        rw [plain_primary_array]
        rfl
      · rw [if_neg array]
        by_cases map : c = '\x7b'
        · subst map
          rw [plain_primary_map]
          rfl
        · rw [if_neg map, plain_primary_other group array map]
          split
          · rfl
          · cases number? (c :: r) with
            | none =>
              dsimp only
              split
              · exact Code.eval_ask _
              · rfl
            | some n => exact Code.eval_ofExcept _

theorem eval_reference (s : List Char) : (reference s).eval answer = answer (.reference s) := by
  rw [answer, plain_reference]
  refine (eval_lexeme_bind _ _).trans (bind_congr ?_)
  rintro ⟨n, r⟩
  dsimp only
  cases namedLiteral? n with
  | none =>
    refine (eval_ask_bind _ _).trans (bind_congr ?_)
    rintro ⟨parts, r⟩
    dsimp only
    cases plain (word? "(" r) <;> rfl
  | some e => rfl

theorem eval_arguments (s : List Char) : (arguments s).eval answer = answer (.arguments s) := by
  rw [answer, plain_arguments, arguments]
  cases plain (spaced? ")" s) with
  | none =>
    refine (eval_ask_bind _ _).trans (bind_congr ?_)
    rintro ⟨a, r⟩
    dsimp only [listEnd]
    cases plain (spaced? "," r) with
    | none => exact eval_lexeme_bind _ _
    | some p => rfl
  | some p => rfl

theorem eval_argument (s : List Char) : (argument s).eval answer = answer (.argument s) := by
  rw [answer, plain_argument, argument]
  cases plain (keywordArgument? s) <;> rfl

theorem eval_items (s : List Char) : (items s).eval answer = answer (.items s) := by
  rw [answer, plain_items, items]
  cases plain (spaced? "]" s) with
  | none =>
    refine (eval_ask_bind _ _).trans (bind_congr ?_)
    rintro ⟨e, r⟩
    dsimp only [listEnd]
    cases plain (spaced? "," r) with
    | none => exact eval_lexeme_bind _ _
    | some p => rfl
  | some p => rfl

theorem eval_entries (s : List Char) : (entries s).eval answer = answer (.entries s) := by
  rw [answer, plain_entries, entries]
  cases plain (spaced? "\x7d" s) with
  | none =>
    dsimp only
    rw [Code.eval_bind, eval_mapKey]
    refine bind_congr ?_
    rintro ⟨key, r⟩
    refine (eval_lexeme_bind _ _).trans (bind_congr ?_)
    rintro ⟨_, r⟩
    refine (eval_ask_bind _ _).trans (bind_congr ?_)
    rintro ⟨e, r⟩
    dsimp only [listEnd]
    cases plain (spaced? "," r) with
    | none => exact eval_lexeme_bind _ _
    | some p => rfl
  | some p => rfl

/-! ### Heads of statements -/

theorem eval_default (s : List Char) :
    (default s).eval answer = plain (Template.declarations.default s) := by
  rw [plain_default, default]
  cases plain (spaced? "=" s) <;> rfl

theorem eval_declarations (s : List Char) :
    (declarations s).eval answer = answer (.declarations s) := by
  rw [answer, plain_declarations, declarations]
  cases plain (spaced? ")" s) with
  | none =>
    refine (eval_lexeme_bind _ _).trans (bind_congr ?_)
    rintro ⟨n, r⟩
    dsimp only
    rw [Code.eval_bind, eval_default]
    refine bind_congr ?_
    rintro ⟨value, r⟩
    dsimp only [listEnd]
    cases plain (spaced? "," r) with
    | none => exact eval_lexeme_bind _ _
    | some p => rfl
  | some p => rfl

theorem eval_macroHead (s : List Char) : (macroHead s).eval answer = answer (.macroHead s) := by
  rw [answer, plain_macroHead]
  refine (eval_lexeme_bind _ _).trans (bind_congr ?_)
  rintro ⟨n, r⟩
  refine (eval_lexeme_bind _ _).trans (bind_congr ?_)
  rintro ⟨_, r⟩
  refine (eval_ask_bind _ _).trans (bind_congr ?_)
  rintro ⟨ps, r⟩
  exact eval_lexeme_bind _ _

theorem eval_callHead (s : List Char) : (callHead s).eval answer = answer (.callHead s) := by
  have parameters : (blockParameters s).eval answer = plain (callHead.blockParameters s) := by
    rw [plain_blockParameters, blockParameters]
    cases plain (spaced? "(" s) <;> rfl
  rw [answer, plain_callHead, callHead, Code.eval_bind, parameters]
  refine bind_congr ?_
  rintro ⟨_, r⟩
  dsimp only
  rw [plain_dottedName, bind_assoc]
  refine (eval_lexeme_bind _ _).trans (bind_congr ?_)
  rintro ⟨first, r⟩
  refine (eval_lexeme_bind _ _).trans (bind_congr ?_)
  rintro ⟨_, r⟩
  refine (eval_ask_bind _ _).trans (bind_congr ?_)
  rintro ⟨args, r⟩
  exact eval_lexeme_bind _ _

theorem eval_loopHead (s : List Char) : (loopHead s).eval answer = answer (.loopHead s) := by
  rw [answer, plain_loopHead]
  refine (eval_lexeme_bind _ _).trans (bind_congr ?_)
  rintro ⟨names, r⟩
  dsimp only
  cases plain (spacedKeyword? "in" r) with
  | none => rfl
  | some p =>
    refine (eval_ask_bind _ _).trans (bind_congr ?_)
    rintro ⟨e, r⟩
    exact eval_lexeme_bind _ _

/-! ### Statements -/

theorem eval_output (s : List Char) : (output s).eval answer = answer (.output s) := by
  rw [answer, plain_outputTag]
  refine (eval_ask_bind _ _).trans (bind_congr ?_)
  rintro ⟨e, r⟩
  exact eval_lexeme_bind _ _

theorem eval_skipTag (s : List Char) : (skipTag s).eval answer = answer (.skipTag s) := by
  rw [answer]
  unfold skipTag
  cases s with
  | nil =>
    rw [Template.skipTag]
    rfl
  | cons c r =>
    rw [plain_skipTag_cons]
    dsimp only
    split
    · rfl
    · split
      · refine (eval_ask_bind _ _).trans (bind_congr ?_)
        rintro ⟨_, t⟩
        exact Code.eval_ask _
      · exact Code.eval_ask _

theorem eval_blockEnd (ends : List String) (trim : Bool) (s : List Char) :
    (blockEnd ends trim s).eval answer = (do
      let (b, r) ← plain (bodyFrom ends [] trim s)
      let (trim, r) ← plain (tagEnd "%\x7d" r)
      return ((b, trim), r)) := by
  refine (eval_ask_bind _ _).trans (bind_congr ?_)
  rintro ⟨b, r⟩
  exact eval_lexeme_bind _ _

theorem eval_setStatement (s : List Char) :
    (setStatement s).eval answer = answer (.setStatement s) := by
  rw [answer, plain_setStatement]
  refine (eval_lexeme_bind _ _).trans (bind_congr ?_)
  rintro ⟨n, r⟩
  dsimp only
  cases plain (spaced? "=" r) with
  | none =>
    dsimp only
    split
    · rfl
    · refine (eval_lexeme_bind _ _).trans (bind_congr ?_)
      rintro ⟨trim, r⟩
      dsimp only
      rw [Code.eval_bind, eval_blockEnd, bind_assoc]
      refine bind_congr ?_
      rintro ⟨b, r⟩
      exact bind_assoc _ _ _
  | some p =>
    refine (eval_ask_bind _ _).trans (bind_congr ?_)
    rintro ⟨e, r⟩
    exact eval_lexeme_bind _ _

theorem eval_ifStatement (s : List Char) :
    (ifStatement s).eval answer = answer (.ifStatement s) := by
  rw [answer, plain_ifStatement]
  refine (eval_ask_bind _ _).trans (bind_congr ?_)
  rintro ⟨e, r⟩
  refine (eval_lexeme_bind _ _).trans (bind_congr ?_)
  rintro ⟨trim, r⟩
  refine (eval_ask_bind _ _).trans (bind_congr ?_)
  rintro ⟨yes, r⟩
  dsimp only
  generalize yes.closer = closer
  by_cases further : closer = "elif" ∨ closer = "elseif"
  · rw [if_pos further]
    rcases further with rfl | rfl <;> rfl
  · rw [if_neg further]
    by_cases last : closer = "else"
    · subst last
      rw [if_pos rfl]
      cases plain (spacedKeyword? "if" r) with
      | none =>
        refine (eval_lexeme_bind _ _).trans (bind_congr ?_)
        rintro ⟨trim, r⟩
        dsimp only
        rw [Code.eval_bind, eval_blockEnd, bind_assoc]
        refine bind_congr ?_
        rintro ⟨b, r⟩
        exact bind_assoc _ _ _
      | some p => rfl
    · rw [if_neg last]
      split
      · exact absurd (.inr rfl) further
      · exact absurd (.inl rfl) further
      · exact absurd rfl last
      · exact eval_lexeme_bind _ _

theorem eval_forStatement (s : List Char) :
    (forStatement s).eval answer = answer (.forStatement s) := by
  rw [answer, plain_forStatement]
  refine (eval_ask_bind _ _).trans (bind_congr ?_)
  rintro ⟨head, r⟩
  dsimp only
  rw [Code.eval_bind, eval_blockEnd, bind_assoc]
  refine bind_congr ?_
  rintro ⟨b, r⟩
  rw [bind_assoc]
  refine bind_congr ?_
  rintro ⟨trim, r⟩
  show Code.eval answer (if b.closer = "else" then _ else _) = if b.closer = "else" then _ else _
  split
  · rw [Code.eval_bind, eval_blockEnd, bind_assoc]
    refine bind_congr ?_
    rintro ⟨no, r⟩
    exact bind_assoc _ _ _
  · rfl

theorem eval_statement (doc : Option String) (s : List Char) :
    (statement doc s).eval answer = answer (.statement doc s) := by
  rw [answer, plain_statement]
  refine (eval_lexeme_bind _ _).trans (bind_congr ?_)
  rintro ⟨keyword, r⟩
  dsimp only
  split
  · refine (eval_ask_bind _ _).trans (bind_congr ?_)
    rintro ⟨⟨n, args, trim⟩, r⟩
    dsimp only
    rw [Code.eval_bind, eval_blockEnd, bind_assoc]
    refine bind_congr ?_
    rintro ⟨b, r⟩
    exact bind_assoc _ _ _
  · refine (eval_ask_bind _ _).trans (bind_congr ?_)
    rintro ⟨⟨n, ps, trim⟩, r⟩
    dsimp only
    rw [Code.eval_bind, eval_blockEnd, bind_assoc]
    refine bind_congr ?_
    rintro ⟨b, r⟩
    exact bind_assoc _ _ _
  · rfl
  · rfl
  · rfl
  · refine (eval_ask_bind _ _).trans (bind_congr ?_)
    rintro ⟨_, r⟩
    exact eval_lexeme_bind _ _
  · refine (eval_ask_bind _ _).trans (bind_congr ?_)
    rintro ⟨_, r⟩
    exact eval_lexeme_bind _ _
  · simp [lexeme]

/-! ### Bodies and templates -/

theorem eval_text (top : Bool) (s : List Char) :
    (text top s).eval answer = answer (.text top s) := by
  rw [answer]
  cases s with
  | nil => rfl
  | cons c r =>
    unfold text textSpan endsText
    dsimp only
    split <;> rfl

theorem startsWith_of_tagStart? {opener : String} {s : List Char}
    (h : plain (tagStart? opener s) = none) : startsWith opener s = false := by
  unfold startsWith
  rw [plain_tagStart?] at h
  cases found : word? opener s with
  | none => rfl
  | some x =>
    rw [found] at h
    cases dash : plain (word? "-" x.rest) with
    | none => simp [dash] at h
    | some p => simp [dash] at h

theorem tagStart?_of_comment? {s : List Char} (h : (comment? s).map plain = none) :
    plain (tagStart? "\x7b#" s) = none := by
  rw [plain_comment?] at h
  split at h
  · assumption
  · split at h <;> cases h

theorem docComment?_of_docBlock? {trim : Bool} {s : List Char}
    (h : (docBlock? trim s).map plain = none) : docComment? s = none := by
  rw [plain_docBlock?] at h
  cases found : docComment? s with
  | none => rfl
  | some x =>
    rw [found] at h
    cases h

/-- A doc comment starts with a slash. -/
theorem slash_of_docComment? {s : List Char} (h : (docComment? s).isSome = true) :
    ∃ r, s = '/' :: r := by
  unfold docComment? at h
  split at h
  · cases h
  · rename_i found
    have front : plain (word? "/**" s) = some ((), _) := congrArg plain found
    exact ⟨_, (plain_word?_eq_some.mp front).2⟩

/-- Where no tag starts, only a doc comment at the top level ends a text. -/
theorem endsText_eq {top : Bool} {s : List Char} (output : plain (tagStart? "\x7b\x7b" s) = none)
    (statement : plain (tagStart? "\x7b%" s) = none) (comment : (comment? s).map plain = none) :
    endsText top s = (top && (docComment? s).isSome) := by
  rw [endsText, startsTag, startsWith_of_tagStart? output, startsWith_of_tagStart? statement,
    startsWith_of_tagStart? (tagStart?_of_comment? comment)]
  rfl

/-- Where no tag and no doc comment starts, the first character belongs to a text. -/
theorem textSpan_cons {top : Bool} {c : Char} {r : List Char} (h : endsText top (c :: r) = false) :
    (textSpan top (c :: r)).value = c :: (textSpan top r).value ∧
      (textSpan top (c :: r)).rest = (textSpan top r).rest := by
  unfold endsText at h
  rw [textSpan, if_neg (by simp [h])]
  exact ⟨rfl, rfl⟩

theorem eval_element (top : Bool) (doc : Option String) (trim : Bool) (s : List Char) :
    (element top doc trim s).eval answer = answer (.element top doc trim s) := by
  rw [answer]
  cases s with
  | nil => cases trim <;> rfl
  | cons c r =>
    rw [elementAt]
    by_cases stands : (top && (docComment? (c :: r)).isSome) = true
    · have span : textSpan top (c :: r) = .nothing [] (c :: r) := by
        rw [textSpan, if_pos (by rw [stands, Bool.or_true])]
      obtain ⟨_, slash⟩ := slash_of_docComment? (Bool.and_eq_true_iff.mp stands).2
      obtain ⟨rfl, -⟩ := List.cons.inj slash
      have output : plain (tagStart? "\x7b\x7b" ('/' :: r)) = none := rfl
      have statement : plain (tagStart? "\x7b%" ('/' :: r)) = none := rfl
      have comment : (comment? ('/' :: r)).map plain = none := rfl
      rw [if_pos stands, element, output, statement, comment]
      refine (eval_ask_bind _ _).trans ?_
      rw [answer, span]
      cases trim <;> rfl
    · rw [if_neg stands, plain_element, element]
      cases output : plain (tagStart? "\x7b\x7b" (c :: r)) with
      | some p => exact Code.eval_ask _
      | none =>
        cases statement : plain (tagStart? "\x7b%" (c :: r)) with
        | some p => exact Code.eval_ask _
        | none =>
          cases comment : (comment? (c :: r)).map plain with
          | some found => exact eval_lexeme_bind _ _
          | none =>
            have goes_on : endsText top (c :: r) = false := by
              rw [endsText_eq output statement comment]
              exact Bool.not_eq_true _ ▸ stands
            refine (eval_ask_bind _ _).trans ?_
            rw [answer, (textSpan_cons goes_on).1, (textSpan_cons goes_on).2]
            rfl

theorem eval_body (ends : List String) (done : List Node) (trim : Bool) (s : List Char) :
    (body ends done trim s).eval answer = answer (.body ends done trim s) := by
  rw [answer]
  cases s with
  | nil =>
    rw [bodyFrom]
    rfl
  | cons c r =>
    rw [plain_bodyFrom_cons]
    unfold body
    rw [List.isEmpty_cons, if_neg Bool.false_ne_true]
    dsimp only
    cases plain (endTag? ends (c :: r)) with
    | none =>
      refine (eval_ask_bind _ _).trans (bind_congr ?_)
      rintro ⟨e, t⟩
      exact Code.eval_ask _
    | some p => rfl

theorem eval_template (done : List Node) (run : List DocBlock) (doc : Option String) (trim : Bool)
    (s : List Char) : (template done run doc trim s).eval answer =
      answer (.template done run doc trim s) := by
  rw [answer]
  cases s with
  | nil =>
    rw [elementsFrom_nil]
    rfl
  | cons c r =>
    rw [elementsFrom_cons]
    unfold template
    rw [List.isEmpty_cons, if_neg Bool.false_ne_true]
    dsimp only
    cases found : (docBlock? trim (c :: r)).map plain with
    | none =>
      have element : answer (.element true doc trim (c :: r)) =
          plain (Template.element true doc trim c r) := by
        rw [answer, elementAt, docComment?_of_docBlock? found]
        rfl
      refine (eval_ask_bind _ _).trans ?_
      rw [element]
      refine bind_congr ?_
      rintro ⟨e, t⟩
      exact Code.eval_ask _
    | some p =>
      refine (eval_lexeme_bind _ _).trans (bind_congr ?_)
      rintro ⟨⟨block, trim⟩, t⟩
      dsimp only
      split
      · exact Code.eval_ask _
      · split
        · exact Code.eval_ask _
        · exact Code.eval_ask _

end Reader

/-- The readers solve the equations of the procedure. -/
theorem eval_reading (q : Question) : (reading q).eval answer = answer q := by
  cases q with
  | template done run doc trim s => exact Reader.eval_template done run doc trim s
  | body ends done trim s => exact Reader.eval_body ends done trim s
  | element top doc trim s => exact Reader.eval_element top doc trim s
  | text top s => exact Reader.eval_text top s
  | output s => exact Reader.eval_output s
  | statement doc s => exact Reader.eval_statement doc s
  | macroHead s => exact Reader.eval_macroHead s
  | callHead s => exact Reader.eval_callHead s
  | loopHead s => exact Reader.eval_loopHead s
  | setStatement s => exact Reader.eval_setStatement s
  | ifStatement s => exact Reader.eval_ifStatement s
  | forStatement s => exact Reader.eval_forStatement s
  | skipTag s => exact Reader.eval_skipTag s
  | declarations s => exact Reader.eval_declarations s
  | condition s => exact Reader.eval_condition s
  | connectives s => exact Reader.eval_connectives s
  | expression s => exact Reader.eval_expression s
  | operators s => exact Reader.eval_operators s
  | operand s => exact Reader.eval_operand s
  | filters subject s => exact Reader.eval_filters subject s
  | primary s => exact Reader.eval_primary s
  | reference s => exact Reader.eval_reference s
  | pathTail s => exact Reader.eval_pathTail s
  | arguments s => exact Reader.eval_arguments s
  | argument s => exact Reader.eval_argument s
  | items s => exact Reader.eval_items s
  | entries s => exact Reader.eval_entries s
  | dottedTail s => exact Reader.eval_dottedTail s
  | quoted s => exact Reader.eval_quoted s
  | quotedBody quote s => exact Reader.eval_quotedBody quote s

end TagCompiler.Template
