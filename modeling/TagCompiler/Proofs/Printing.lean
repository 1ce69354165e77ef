import TagCompiler.Proofs.Grammar
/-!
# Writing templates

A tree is written as a list of pieces: fixed words, quoted strings and the blanks between them. The
pieces leave open how many blanks stand at a place and which quote is used; `Spells` says which texts
they may become and `render` picks one: one space where there must be blanks, none where there may
be, single quotes.

Only trees of the grammar are written. Other trees have pieces too, but those mean nothing.
-/

namespace TagCompiler.Grammar

open Template Text

inductive Piece where
  | word (w : String)
  /-- At least one blank. -/
  | gap
  /-- Any number of blanks. -/
  | pad
  | quoted (content : String)

/-! ### Texts of pieces -/

def AllBlank (b : List Char) : Prop := ∀ c ∈ b, isBlank c = true

/-- `t` stands for `s` between two quotes `q`. -/
inductive Escapes (q : Char) : List Char → List Char → Prop
  | nil : Escapes q [] []
  | plain {c : Char} {s t : List Char} : c ≠ q → c ≠ '\\' → Escapes q s t →
      Escapes q (c :: s) (c :: t)
  | escaped {e : Char} {s t : List Char} : Escapes q s t →
      Escapes q (unescape e :: s) ('\\' :: e :: t)

/-- `s` is the piece with `rest` after it. -/
def Piece.Spelled : Piece → List Char → List Char → Prop
  | .word w, s, rest => s = w.toList ++ rest
  | .gap, s, rest => ∃ b, b ≠ [] ∧ AllBlank b ∧ s = b ++ rest
  | .pad, s, rest => ∃ b, AllBlank b ∧ s = b ++ rest
  | .quoted v, s, rest => ∃ q t, isQuote q = true ∧ Escapes q v.toList t ∧ s = q :: (t ++ q :: rest)

/-- `s` is the pieces with `rest` after them. -/
def Spells : List Piece → List Char → List Char → Prop
  | [], s, rest => s = rest
  | p :: ps, s, rest => ∃ m, p.Spelled s m ∧ Spells ps m rest

theorem spells_append {ps qs : List Piece} {s rest : List Char} :
    Spells (ps ++ qs) s rest ↔ ∃ m, Spells ps s m ∧ Spells qs m rest := by
  induction ps generalizing s with
  | nil => simp [Spells]
  | cons p ps ih =>
    simp only [List.cons_append, Spells, ih]
    constructor
    · rintro ⟨m, hp, t, hps, hqs⟩
      exact ⟨t, ⟨m, hp, hps⟩, hqs⟩
    · rintro ⟨t, ⟨m, hp, hps⟩, hqs⟩
      exact ⟨m, hp, t, hps, hqs⟩

def escape (q c : Char) : List Char := if c = q ∨ c = '\\' then ['\\', c] else [c]

def Piece.text : Piece → List Char
  | .word w => w.toList
  | .gap => [' ']
  | .pad => []
  | .quoted v => '\'' :: (v.toList.flatMap (escape '\'') ++ ['\''])

/-- The pieces with single spaces and single quotes. -/
def render (ps : List Piece) : List Char := ps.flatMap Piece.text

theorem escapes_escape {q : Char} (quote : isQuote q = true) (s : List Char) :
    Escapes q s (s.flatMap (escape q)) := by
  induction s with
  | nil => exact .nil
  | cons c s ih =>
    rw [List.flatMap_cons, escape]
    split
    · rename_i special
      have same : unescape c = c := by
        rcases special with rfl | rfl
        · simp only [isQuote, Bool.or_eq_true, beq_iff_eq] at quote
          rcases quote with rfl | rfl <;> rfl
        · rfl
      have := Escapes.escaped (e := c) ih
      rwa [same] at this
    · rename_i ordinary
      exact .plain (fun h => ordinary (.inl h)) (fun h => ordinary (.inr h)) ih

theorem Piece.spelled_text (p : Piece) (rest : List Char) : p.Spelled (p.text ++ rest) rest := by
  cases p with
  | word w => rfl
  | gap => exact ⟨[' '], by simp, by simp [AllBlank, isBlank], rfl⟩
  | pad => exact ⟨[], by simp [AllBlank], rfl⟩
  | quoted v => exact ⟨'\'', _, rfl, escapes_escape rfl _, by simp [text]⟩

theorem spells_render (ps : List Piece) (rest : List Char) : Spells ps (render ps ++ rest) rest := by
  induction ps with
  | nil => rfl
  | cons p ps ih =>
    refine ⟨render ps ++ rest, ?_, ih⟩
    rw [render, List.flatMap_cons, List.append_assoc]
    exact p.spelled_text _

/-! ### Expressions -/

/-- Members of a chain with blanks between them. -/
def gapped : List (List Piece) → List Piece
  | [] => []
  | x :: xs => x ++ xs.flatMap (.gap :: ·)

def commaSeparated : List (List Piece) → List Piece
  | [] => []
  | [x] => x
  | x :: xs => x ++ ([.pad, .word ",", .gap] ++ commaSeparated xs)

def bracketed (opener : String) (inner : List (List Piece)) (closer : String) : List Piece :=
  [.word opener, .pad] ++ (commaSeparated inner ++ [.pad, .word closer])

/-- The arguments of a filter, which go without parentheses if there are none. -/
def filterArguments (args : List (List Piece)) : List Piece :=
  if args.isEmpty then [] else bracketed "(" args ")"

/-- A further part of a path: after a dot if it is a name, else in brackets. -/
def segmentPieces (part : String) : List Piece :=
  if isName part then [.word ".", .word part]
  else [.word "[", .pad, .quoted part, .pad, .word "]"]

/-! ### Styles

What is read as null or as a part of a path can be written in more than one way, and other writers
of expressions choose other ways. -/

/-- The ways to write that differ from writer to writer. -/
structure Style where
  null : String
  /-- How a path goes on with one more part. -/
  segment : String → List Piece

/-- How templates are written. -/
def Style.template : Style := ⟨"none", segmentPieces⟩

namespace Style

variable (σ : Style)

def literal : Value → List Piece
  | .string s => [.quoted s]
  | .number (.int n) => [.word (toString n)]
  | .bool b => [.word (if b then "true" else "false")]
  | .null => [.word σ.null]
  | _ => []

def path : List String → List Piece
  | [] => []
  | root :: more => .word root :: more.flatMap σ.segment

mutual

def expr : Node → List Piece
  | .literal v _ => σ.literal v
  | .var p => σ.path p
  | .operator s | .connective s => [.word s]
  | .array cs => bracketed "[" (exprs cs) "]"
  | .parameters es => bracketed "\x7b" (entries es) "\x7d"
  | .call name (.parameters args) _ => .word name :: bracketed "(" (arguments args) ")"
  | .yield => .word "caller" :: bracketed "(" [] ")"
  | .group cs => bracketed "(" (exprs cs) ")"
  | .filter name subject (.parameters args) =>
    expr subject ++ ([.gap, .word "|", .gap, .word name] ++ filterArguments (arguments args))
  | .condition cs | .expression cs => gapped (exprs cs)
  | _ => []

def exprs : List Node → List (List Piece)
  | [] => []
  | n :: ns => expr n :: exprs ns

def argument : Node → List Piece
  | .parameter none (some v) => expr v
  | .parameter (some n) (some v) => [.word n, .pad, .word "=", .pad] ++ expr v
  | .parameter (some n) none => [.word n]
  | _ => []

def arguments : List Node → List (List Piece)
  | [] => []
  | n :: ns => argument n :: arguments ns

def entry : Node → List Piece
  | .parameter (some n) (some v) => [.quoted n, .pad, .word ":", .gap] ++ expr v
  | _ => []

def entries : List Node → List (List Piece)
  | [] => []
  | n :: ns => entry n :: entries ns

end

/-- The members of a chain after the first one, each with a gap before it. -/
def chain (more : List Node) : List Piece := (σ.exprs more).flatMap (.gap :: ·)

theorem expr_condition (n : Node) (more : List Node) :
    σ.expr (.condition (n :: more)) = σ.expr n ++ σ.chain more := by
  rw [expr, exprs, gapped, chain]

theorem expr_expression (n : Node) (more : List Node) :
    σ.expr (.expression (n :: more)) = σ.expr n ++ σ.chain more := by
  rw [expr, exprs, gapped, chain]

theorem chain_nil : σ.chain [] = [] := rfl

theorem chain_cons (n : Node) (more : List Node) :
    σ.chain (n :: more) = .gap :: (σ.expr n ++ σ.chain more) := by
  rw [chain, exprs, List.flatMap_cons, List.cons_append, chain]

theorem exprs_eq_map (ns : List Node) : σ.exprs ns = ns.map σ.expr := by
  induction ns with
  | nil => rfl
  | cons n ns ih => rw [exprs, ih, List.map_cons]

theorem arguments_eq_map (ns : List Node) : σ.arguments ns = ns.map σ.argument := by
  induction ns with
  | nil => rfl
  | cons n ns ih => rw [arguments, ih, List.map_cons]

theorem entries_eq_map (ns : List Node) : σ.entries ns = ns.map σ.entry := by
  induction ns with
  | nil => rfl
  | cons n ns ih => rw [entries, ih, List.map_cons]

end Style

/-- An expression of a template. -/
def exprPieces : Node → List Piece := Style.template.expr

/-- An argument of a call, or a parameter that a macro declares. -/
def argumentPieces : Node → List Piece := Style.template.argument

def argumentsPieces : List Node → List (List Piece) := Style.template.arguments

theorem argumentsPieces_eq_map (ns : List Node) : argumentsPieces ns = ns.map argumentPieces :=
  Style.template.arguments_eq_map ns

/-! ### Statements -/

def tag (inner : List Piece) : List Piece :=
  [.word "\x7b%", .gap] ++ (inner ++ [.gap, .word "%\x7d"])

def outputPieces (inner : List Piece) : List Piece :=
  [.word "\x7b\x7b", .gap] ++ (inner ++ [.gap, .word "\x7d\x7d"])

def loopNamePieces (key : Option String) (item : String) : List Piece :=
  commaSeparated ((key.toList ++ [item]).map fun x => [.word x])

mutual

def statementPieces : Node → List Piece
  | .text s => [.word s]
  | .output [e] => outputPieces (exprPieces e)
  | .yield => outputPieces (exprPieces .yield)
  | .assign (.var [x]) (.list body) _ =>
    tag [.word "set", .gap, .word x] ++ (bodyPieces body ++ tag [.word "endset"])
  | .assign (.var [x]) v _ =>
    tag ([.word "set", .gap, .word x, .gap, .word "=", .gap] ++ exprPieces v)
  | .branch c yes [] =>
    tag ([.word "if", .gap] ++ exprPieces c) ++ (bodyPieces yes ++ tag [.word "endif"])
  | .branch c yes no =>
    tag ([.word "if", .gap] ++ exprPieces c) ++
      (bodyPieces yes ++ (tag [.word "else"] ++ (bodyPieces no ++ tag [.word "endif"])))
  | .loop key item source body =>
    tag ([.word "for", .gap] ++
        (loopNamePieces key item ++ ([.gap, .word "in", .gap] ++ exprPieces source))) ++
      (bodyPieces body ++ tag [.word "endfor"])
  | .call name (.parameters args) body =>
    tag ([.word "call", .gap, .word name] ++ bracketed "(" (argumentsPieces args) ")") ++
      (bodyPieces body ++ tag [.word "endcall"])
  | .macroDef name (.parameters params) body _ =>
    tag ([.word "macro", .gap, .word name] ++ bracketed "(" (argumentsPieces params) ")") ++
      (bodyPieces body ++ tag [.word "endmacro"])
  | _ => []

def bodyPieces : List Node → List Piece
  | [] => []
  | n :: ns => statementPieces n ++ bodyPieces ns

end

/-- The text of a body, with single spaces and single quotes. -/
def print (ns : List Node) : String := String.ofList (render (bodyPieces ns))

/-! ### The trees that can be written -/

inductive IsPrintableLiteral : Node → Prop
  | string (s : String) : IsPrintableLiteral (.string s)
  | int {n : Int} : -0x8000000000000000 ≤ n → n < 0x8000000000000000 → IsPrintableLiteral (.int n)
  | bool (b : Bool) : IsPrintableLiteral (.bool b)
  | null : IsPrintableLiteral .null

/-- Names with dots between them. -/
def IsDottedNames (name : String) (root : String) (more : List String) : Prop :=
  name = ".".intercalate (root :: more) ∧ isName root = true ∧ ∀ part ∈ more, isName part = true

/-- Text in which no tag and no doc comment starts, also not together with a tag after it. -/
def IsPrintableText (s : String) : Prop :=
  s ≠ "" ∧ (∀ w ∈ ["\x7b\x7b", "\x7b%", "\x7b#", "/**"], ¬ w.toList <:+: s.toList) ∧
    s.toList.getLast? ≠ some '\x7b'

/-- The leaves of trees that can be written so that they are read again. -/
def Lexicon.printable : Lexicon where
  literal := IsPrintableLiteral
  path := IsPath
  callee name := name ≠ "caller" ∧ ∃ root more, IsDottedNames name root more ∧ root ∉ reserved
  blockCallee name := ∃ root more, IsDottedNames name root more
  yields := True
  text := IsPrintableText

end TagCompiler.Grammar
