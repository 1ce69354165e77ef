import Mathlib.Data.List.Chain
import TagCompiler.Proofs.PlainReading
/-!
# The grammar of template trees

Which trees are conditions, expressions, operands, statements and bodies. A chain is flat: it has
at least two members, with a connective or an operator between each two of them. In a body no text
is next to another text.

The grammar takes its leaves from a `Lexicon`, so that one definition serves for the trees that
reading a template makes and for the narrower class of trees that can be written down again. It
knows no view model data, no appending assignment and no list outside a body.
-/

namespace TagCompiler.Grammar

open Template

/-- The names that an expression cannot start a path with. -/
def reserved : List String := ["true", "True", "false", "False", "none", "None", "null", "not"]

def binaryOperators : List String := "in" :: operatorSigns

/-- The leaves of a grammar. -/
structure Lexicon where
  literal : Node → Prop
  /-- The paths of variables inside expressions. -/
  path : List String → Prop
  /-- The names of calls inside expressions. -/
  callee : String → Prop
  /-- The names of calls with a block. -/
  blockCallee : String → Prop
  /-- Whether the block of a call may be run inside an expression. -/
  yields : Prop
  text : String → Prop

variable (L : Lexicon)

mutual

inductive IsCondition (L : Lexicon) : Node → Prop
  | expression {n : Node} : IsExpression L n → IsCondition L n
  | chain {n : Node} {more : List Node} : IsExpression L n → IsConnected L more → more ≠ [] →
      IsCondition L (.condition (n :: more))

/-- The rest of a chain of expressions: connectives, each with the expression after it. -/
inductive IsConnected (L : Lexicon) : List Node → Prop
  | nil : IsConnected L []
  | cons {op : String} {n : Node} {more : List Node} : op = "and" ∨ op = "or" → IsExpression L n →
      IsConnected L more → IsConnected L (.connective op :: n :: more)

inductive IsExpression (L : Lexicon) : Node → Prop
  | operand {n : Node} : IsOperand L n → IsExpression L n
  | chain {n : Node} {more : List Node} : IsOperand L n → IsOperated L more → more ≠ [] →
      IsExpression L (.expression (n :: more))

/-- The rest of a chain of operands: operators, each with the operand after it. -/
inductive IsOperated (L : Lexicon) : List Node → Prop
  | nil : IsOperated L []
  | cons {op : String} {n : Node} {more : List Node} : op ∈ binaryOperators → IsOperand L n →
      IsOperated L more → IsOperated L (.operator op :: n :: more)

inductive IsOperand (L : Lexicon) : Node → Prop
  | negated {n : Node} : IsOperand L n → IsOperand L (.expression [.operator "not", n])
  | term {n : Node} : IsTerm L n → IsOperand L n

/-- A primary with any number of filters. -/
inductive IsTerm (L : Lexicon) : Node → Prop
  | primary {n : Node} : IsPrimary L n → IsTerm L n
  | filtered {name : String} {subject : Node} {args : List Node} : isName name = true →
      IsTerm L subject → IsArguments L args → IsTerm L (.filter name subject (.parameters args))

inductive IsPrimary (L : Lexicon) : Node → Prop
  | literal {n : Node} : L.literal n → IsPrimary L n
  | var {path : List String} : L.path path → IsPrimary L (.var path)
  | yield : L.yields → IsPrimary L .yield
  | call {name : String} {args : List Node} : L.callee name → IsArguments L args →
      IsPrimary L (.call name (.parameters args) [])
  | group {n : Node} : IsCondition L n → IsPrimary L (.group [n])
  | array {items : List Node} : IsItems L items → IsPrimary L (.array items)
  | map {entries : List Node} : IsEntries L entries → IsPrimary L (.parameters entries)

/-- The arguments of a call or a filter. -/
inductive IsArguments (L : Lexicon) : List Node → Prop
  | nil : IsArguments L []
  | positional {n : Node} {more : List Node} : IsCondition L n → IsArguments L more →
      IsArguments L (.positional n :: more)
  | named {name : String} {n : Node} {more : List Node} : isName name = true → IsCondition L n →
      IsArguments L more → IsArguments L (.named name n :: more)

inductive IsItems (L : Lexicon) : List Node → Prop
  | nil : IsItems L []
  | cons {n : Node} {more : List Node} : IsCondition L n → IsItems L more → IsItems L (n :: more)

/-- The entries of a map, whose keys are any strings. -/
inductive IsEntries (L : Lexicon) : List Node → Prop
  | nil : IsEntries L []
  | cons {key : String} {n : Node} {more : List Node} : IsCondition L n → IsEntries L more →
      IsEntries L (.named key n :: more)

end

/-- The parameters that a macro declares. -/
inductive IsDeclarations : List Node → Prop
  | nil : IsDeclarations []
  | bare {name : String} {more : List Node} : isName name = true → IsDeclarations more →
      IsDeclarations (.parameter (some name) none :: more)
  | defaulted {name : String} {n : Node} {more : List Node} : isName name = true →
      IsCondition L n → IsDeclarations more → IsDeclarations (.named name n :: more)

def isText : Node → Bool
  | .text _ => true
  | _ => false

/-- Not both are text. -/
def Apart (m n : Node) : Prop := (isText m && isText n) = false

mutual

inductive IsStatement (L : Lexicon) : Node → Prop
  | text {s : String} : L.text s → IsStatement L (.text s)
  | output {n : Node} : IsCondition L n → n ≠ .yield → IsStatement L (.output [n])
  | yield : IsStatement L .yield
  | set {x : String} {n : Node} : isName x = true → IsCondition L n →
      IsStatement L (.assign (.var [x]) n .set)
  | blockSet {x : String} {body : List Node} : isName x = true → IsBody L body →
      IsStatement L (.assign (.var [x]) (.list body) .set)
  | branch {c : Node} {yes no : List Node} : IsCondition L c → IsBody L yes → IsBody L no →
      IsStatement L (.branch c yes no)
  | loop {key : Option String} {item : String} {source : Node} {body : List Node} :
      (∀ k ∈ key, isName k = true) → isName item = true → IsCondition L source → IsBody L body →
      IsStatement L (.loop key item source body)
  | call {name : String} {args body : List Node} : L.blockCallee name → IsArguments L args →
      IsBody L body → IsStatement L (.call name (.parameters args) body)
  | macroDef {name : String} {params body : List Node} : isName name = true →
      IsDeclarations L params → IsBody L body →
      IsStatement L (.macroDef name (.parameters params) body none)

inductive IsBody (L : Lexicon) : List Node → Prop
  | nil : IsBody L []
  | cons {n : Node} {more : List Node} : IsStatement L n → (∀ m ∈ more.head?, Apart n m) →
      IsBody L more → IsBody L (n :: more)

end

/-- Forgets the documentation of a macro. -/
def undocumented : Node → Node
  | .macroDef name params body _ => .macroDef name params body none
  | n => n

/-- The elements of a template: a body in which macros may be documented. Inside another element no
macro is. -/
def IsTemplate (ns : List Node) : Prop := IsBody L (ns.map undocumented)

variable {L}

theorem isBody_iff {ns : List Node} :
    IsBody L ns ↔ (∀ n ∈ ns, IsStatement L n) ∧ ns.IsChain Apart := by
  induction ns with
  | nil => exact ⟨fun _ => ⟨by simp, .nil⟩, fun _ => .nil⟩
  | cons n more ih =>
    constructor
    · intro h
      cases h with
      | cons hn apart hmore =>
        obtain ⟨all, chained⟩ := ih.mp hmore
        refine ⟨List.forall_mem_cons.mpr ⟨hn, all⟩, ?_⟩
        exact List.isChain_cons.mpr ⟨apart, chained⟩
    · rintro ⟨all, chained⟩
      obtain ⟨hn, rest⟩ := List.forall_mem_cons.mp all
      obtain ⟨apart, chained⟩ := List.isChain_cons.mp chained
      exact .cons hn apart (ih.mpr ⟨rest, chained⟩)

/-! ### The leaves that reading makes -/

/-- Literals as a template can write them: whole numbers have 64 bits. -/
inductive IsLiteral : Node → Prop
  | string (s : String) : IsLiteral (.string s)
  | int {n : Int} : -0x8000000000000000 ≤ n → n < 0x8000000000000000 → IsLiteral (.int n)
  | float (x : Double) : IsLiteral (.literal (.number (.float x)) .number)
  | bool (b : Bool) : IsLiteral (.bool b)
  | null : IsLiteral .null

/-- The first part is a name that may start an expression, the others are any strings. -/
def IsPath (path : List String) : Prop :=
  ∃ root more, path = root :: more ∧ isName root = true ∧ root ∉ reserved

/-- A path written with dots. Its name is not that of the block a macro was called with. -/
def IsCallee (name : String) : Prop :=
  name ≠ "caller" ∧ ∃ path, IsPath path ∧ name = ".".intercalate path

/-- A name, then any number of parts made of name characters, with dots between them. -/
def IsDotted (name : String) : Prop :=
  ∃ root more, name = ".".intercalate (root :: more) ∧ isName root = true ∧
    ∀ part ∈ more, part ≠ "" ∧ ∀ c ∈ part.toList, isNameChar c = true

/-- The leaves of trees that were read from a template. -/
def Lexicon.parsed : Lexicon where
  literal := IsLiteral
  path := IsPath
  callee := IsCallee
  blockCallee := IsDotted
  yields := True
  text s := s ≠ ""

theorem Apart.symm {m n : Node} (h : Apart m n) : Apart n m := by
  unfold Apart at *
  rwa [Bool.and_comm]

end TagCompiler.Grammar
