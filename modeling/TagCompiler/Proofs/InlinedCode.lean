import TagCompiler.Proofs.CallMeaning
import TagCompiler.Proofs.Rebuilding
/-!
# Code before and after inlining

Before the statements of a macro are inlined, its own names are replaced and its yields are filled;
`Host.adapt` says how each kind of statement comes out of that. After inlining there is no call
left. Such statements are flat, and inlining them once more, as happens to the block of a call,
changes nothing.
-/

namespace TagCompiler.Meaning

open Inlining

/-! ### Code in its host -/

/-- What code is inlined for: the page, or a macro that is called with a block. The block is inlined
already. -/
inductive Host where
  | page
  | expansion (d : Definition) (block : List Node)

namespace Host

/-- Code as it stands just before it is inlined. -/
def adapt : Host → Node → Node
  | .page, n => n
  | .expansion d block, n => substitute d block n

def name : Host → String → String
  | .page, x => x
  | .expansion d _, x => (freshNames d).apply x

def slot : Host → Node
  | .page => .yield
  | .expansion _ block => .list block

variable (host : Host)

theorem runAll_substitution (r : Renaming) (block ns : List Node) :
    Id.run ((substitution r block).runAll ns) =
      ns.map fun n => Id.run ((substitution r block).run n) :=
  Valuation.plain.runAll_eq_map _ ns

theorem runBody_substitution (r : Renaming) (block ns : List Node) :
    Id.run ((substitution r block).runBody ns) =
      ns.map fun n => Id.run ((substitution r block).run n) :=
  Valuation.plain.runBody_eq_map _ (fun _ => rfl) ns

theorem page_adapt : page.adapt = id := rfl

theorem adapt_text (s : String) : host.adapt (.text s) = .text s := by
  cases host <;> rfl

theorem adapt_string (s : String) : host.adapt (.string s) = .string s := by
  cases host <;> rfl

theorem adapt_null : host.adapt .null = .null := by
  cases host <;> rfl

theorem adapt_var (x : String) : host.adapt (.var [x]) = .var [host.name x] := by
  cases host <;> rfl

theorem adapt_output (e : Node) : host.adapt (.output [e]) = .output [host.adapt e] := by
  cases host <;> rfl

theorem adapt_assign (x : String) (e : Node) (op : AssignOp) :
    host.adapt (.assign (.var [x]) e op) = .assign (.var [host.name x]) (host.adapt e) op := by
  cases host <;> rfl

theorem adapt_parameter (x : Option String) (e : Node) :
    host.adapt (.parameter x (some e)) = .parameter x (some (host.adapt e)) := by
  cases host <;> rfl

theorem adapt_bare (x : Option String) :
    host.adapt (.parameter x none) = .parameter x none := by
  cases host <;> rfl

theorem adapt_macroDef (m : String) (params body : List Node) (doc : Option String) :
    host.adapt (.macroDef m (.parameters params) body doc) =
      .macroDef m (.parameters (params.map host.adapt)) (body.map host.adapt) doc := by
  cases host with
  | page => rw [page_adapt, List.map_id, List.map_id, id]
  | expansion d block =>
    show Node.macroDef m (.parameters (Id.run ((substitution (freshNames d) block).runAll params)))
      (Id.run ((substitution (freshNames d) block).runBody body)) doc = _
    rw [runAll_substitution, runBody_substitution]
    rfl

theorem adapt_call (m : String) (args block : List Node) :
    host.adapt (.call m (.parameters args) block) =
      .call m (.parameters (args.map host.adapt)) (block.map host.adapt) := by
  cases host with
  | page => rw [page_adapt, List.map_id, List.map_id, id]
  | expansion d content =>
    show Node.call m (.parameters (Id.run ((substitution (freshNames d) content).runAll args)))
      (Id.run ((substitution (freshNames d) content).runBody block)) = _
    rw [runAll_substitution, runBody_substitution]
    rfl

theorem adapt_yield : host.adapt .yield = host.slot := by
  cases host <;> rfl

end Host

/-! ### Flat code -/

/-- A parameter of a macro after inlining. -/
inductive IsFlatParameter : Node → Prop
  | bare (x : Option String) : IsFlatParameter (.parameter x none)
  | valued (x : Option String) {e : Node} : IsAtom e → IsFlatParameter (.parameter x (some e))

/-- Statements without calls. -/
inductive IsFlat : Node → Prop
  | text (s : String) : IsFlat (.text s)
  | output {e : Node} : IsAtom e → IsFlat (.output [e])
  | assign (x : String) {e : Node} : IsAtom e → IsFlat (.assign (.var [x]) e .set)
  | macroDef (m : String) {params body : List Node} (doc : Option String) :
      (∀ p ∈ params, IsFlatParameter p) → (∀ n ∈ body, IsFlat n) →
      IsFlat (.macroDef m (.parameters params) body doc)
  | yield : IsFlat .yield
  | list {ns : List Node} : (∀ n ∈ ns, IsFlat n) → IsFlat (.list ns)

theorem node_of_isAtom {e : Node} (h : IsAtom e) (here : Library) : node here e = .ok e := by
  rw [node.eq_def]
  cases h <;> rfl

theorem all_of_fixed {here : Library} {ns : List Node} (h : ∀ n ∈ ns, node here n = .ok n) :
    all here ns = .ok ns := by
  induction ns with
  | nil => rw [all]
  | cons n ns ih =>
    obtain ⟨hn, hns⟩ := List.forall_mem_cons.mp h
    rw [all, hn, ih hns]
    rfl

theorem body_of_fixed {here : Library} {ns : List Node} (h : ∀ n ∈ ns, statement here n = .ok n) :
    body here ns = .ok ns := by
  induction ns with
  | nil => rw [body]
  | cons n ns ih =>
    obtain ⟨hn, hns⟩ := List.forall_mem_cons.mp h
    rw [body, hn, ih hns]
    rfl

theorem node_of_flatParameters {ps : List Node} (h : ∀ p ∈ ps, IsFlatParameter p)
    (here : Library) : node here (.parameters ps) = .ok (.parameters ps) := by
  have fixed : ∀ p ∈ ps, node here p = .ok p := by
    intro p hp
    cases h p hp with
    | bare => rw [node.eq_def]
    | valued x he =>
      rw [node, node_of_isAtom he]
      rfl
  rw [node, all_of_fixed fixed]
  rfl

/-- Whether a statement is nothing but a call. -/
def isCall : Node → Bool
  | .call .. => true
  | .output [.call ..] => true
  | _ => false

theorem statement_eq_node {n : Node} (h : isCall n = false) (here : Library) :
    statement here n = node here n := by
  rw [statement.eq_def]
  split
  · cases h
  · cases h
  · rfl

/-- Inlining flat code again leaves it as it is. -/
theorem statement_of_isFlat {n : Node} (h : IsFlat n) (here : Library) :
    statement here n = .ok n := by
  induction h generalizing here with
  | text => rw [statement_eq_node rfl, node.eq_def]
  | @output e he =>
    have noCall : isCall (.output [e]) = false := by cases he <;> rfl
    rw [statement_eq_node noCall, node, all, all, node_of_isAtom he]
    rfl
  | assign x he =>
    rw [statement_eq_node rfl, node, node_of_isAtom (.var x), node_of_isAtom he]
    rfl
  | macroDef m doc hp _ ih =>
    rw [statement_eq_node rfl, node, node_of_flatParameters hp,
      body_of_fixed fun n hn => ih n hn _]
    rfl
  | yield => rw [statement_eq_node rfl, node.eq_def]
  | list _ ih =>
    rw [statement_eq_node rfl, node, body_of_fixed fun n hn => ih n hn here]
    rfl

/-! ### Calls -/

theorem name_of_find? {lib : Library} {m : String} {d : Definition} (h : lib.find? m = some d) :
    d.name = m := by
  simpa using List.find?_some h

theorem extract?_of_find? {here : Library} {m : String} {d : Definition}
    (h : here.find? m = some d) : here.extract? m =
      some ⟨d, here.without m, Library.length_without_lt h⟩ := by
  unfold Library.extract?
  split
  · rename_i found
    obtain rfl := Option.some.inj (found.symm.trans h)
    rfl
  · rename_i missing
    cases missing.symm.trans h

theorem find?_without {here : Library} {m c : String} (h : c ≠ m) :
    (here.without m).find? c = here.find? c := by
  unfold Library.without Library.find?
  rw [List.find?_filter]
  refine congrArg (List.find? · here) (funext fun d => ?_)
  by_cases same : d.name = c
  · simp [same, h]
  · simp [same]

theorem isNamed_adapt (host : Host) (x : String) (a : Node) :
    Node.isNamed x (host.adapt a) = Node.isNamed x a := by
  cases host with
  | page => rfl
  | expansion d block =>
    cases a with
    | parameter name value => cases name <;> cases value <;> rfl
    | _ => rfl

theorem isPositional_adapt (host : Host) (a : Node) :
    isPositional (host.adapt a) = isPositional a := by
  cases host with
  | page => rfl
  | expansion d block =>
    cases a with
    | parameter name value => cases name <;> cases value <;> rfl
    | _ => rfl

theorem valueOfParameter?_adapt (host : Host) (a : Node) :
    valueOfParameter? (host.adapt a) = (valueOfParameter? a).map host.adapt := by
  cases host with
  | page => exact Option.map_id'.symm ▸ rfl
  | expansion d block =>
    cases a with
    | parameter name value => cases name <;> cases value <;> rfl
    | _ => rfl

theorem value?_eq (arguments : Node) (x : String) (place : Nat) :
    (value? arguments x place).map Subtype.val =
      (passed? arguments x place).bind valueOfParameter? := by
  unfold value?
  split
  · rename_i found
    exact (congrArg (Option.bind · valueOfParameter?) found).symm
  · rename_i other
    cases found : passed? arguments x place with
    | none => rfl
    | some a =>
      cases a with
      | parameter name value =>
        cases value with
        | none => rfl
        | some v => exact (other name v found).elim
      | _ => rfl

/-- Adapting a call adapts what it passes. -/
theorem value?_adapt (host : Host) (args : List Node) (x : String) (place : Nat) :
    (value? (.parameters (args.map host.adapt)) x place).map Subtype.val =
      (argument? args x place).map host.adapt := by
  have named : Node.isNamed x ∘ host.adapt = Node.isNamed x := funext (isNamed_adapt host x)
  have positional : isPositional ∘ host.adapt = isPositional := funext (isPositional_adapt host)
  have passed : passed? (.parameters (args.map host.adapt)) x place =
      ((args.find? (Node.isNamed x)).or (args.filter isPositional)[place]?).map host.adapt := by
    show ((args.map host.adapt).find? (Node.isNamed x)).or
      ((args.map host.adapt).filter isPositional)[place]? = _
    rw [List.find?_map, named, List.filter_map, positional, List.getElem?_map, Option.map_or]
  rw [value?_eq, passed, argument?]
  cases (args.find? (Node.isNamed x)).or (args.filter isPositional)[place]? with
  | none => rfl
  | some a => exact valueOfParameter?_adapt host a

theorem isValue_of_argument? {args : List Node} {x : String} {place : Nat} {e : Node}
    (h : ∀ a ∈ args, IsPassed a) (found : argument? args x place = some e) : IsValue e := by
  obtain ⟨a, passed, value⟩ := Option.bind_eq_some_iff.mp found
  have mem : a ∈ args := by
    rcases Option.or_eq_some_iff.mp passed with named | ⟨-, positional⟩
    · exact List.mem_of_find?_eq_some named
    · exact (List.mem_filter.mp (List.mem_of_getElem? positional)).1
  cases h a mem with
  | positional he =>
    cases value
    exact he
  | named he =>
    cases value
    exact he

theorem IsValue.isAtom_adapt {e : Node} (h : IsValue e) (host : Host) : IsAtom (host.adapt e) := by
  cases h with
  | string s =>
    rw [Host.adapt_string]
    exact .string s
  | var =>
    rw [Host.adapt_var]
    exact .var _
  | null =>
    rw [Host.adapt_null]
    exact .null

theorem IsDeclared.adapt {p : Node} (h : IsDeclared p) (host : Host) :
    IsFlatParameter (host.adapt p) := by
  cases h with
  | bare =>
    rw [Host.adapt_bare]
    exact .bare _
  | defaulted _ he =>
    rw [Node.named, Host.adapt_parameter]
    exact .valued _ (he.isAtom_adapt host)

theorem IsDeclared.exists_default {p : Node} (h : IsDeclared p) :
    ∃ x default, p = .parameter (some x) default ∧ IsPlain x ∧ IsValue (default.getD .null) := by
  cases h with
  | bare hx => exact ⟨_, none, rfl, hx, .null⟩
  | defaulted hx he => exact ⟨_, some _, rfl, hx, he⟩

/-- The value that the parameter `x` is set to before an expansion. -/
def setting (host callee : Host) (args : List Node) (x : String) (place : Nat)
    (default : Option Node) : Node :=
  match argument? args x place with
  | some e => host.adapt e
  | none => callee.adapt (default.getD .null)

/-- The assignments before an expansion. -/
def settings (host callee : Host) (d : Definition) (args : List Node) : Nat → List Node → List Node
  | _, [] => []
  | place, .parameter (some x) default :: ps =>
    .assign (.var [boundName d.name x]) (setting host callee args x place default) .set ::
      settings host callee d args (place + 1) ps
  | place, _ :: ps => settings host callee d args (place + 1) ps

theorem bindings_eq {here : Library} {host : Host} {d : Definition} {block args : List Node}
    (ha : ∀ a ∈ args, IsPassed a) {ps : List Node} (hp : ∀ p ∈ ps, IsDeclared p) (place : Nat) :
    bindings here d block (.parameters (args.map host.adapt)) place ps =
      .ok (settings host (.expansion d block) d args place ps) := by
  induction ps generalizing place with
  | nil => rw [bindings, settings]
  | cons p ps ih =>
    obtain ⟨declared, others⟩ := List.forall_mem_cons.mp hp
    obtain ⟨x, default, rfl, -, -⟩ := declared.exists_default
    have passed := value?_adapt host args x place
    rw [bindings.eq_def, settings, setting]
    dsimp only
    rw [ih others]
    cases found : argument? args x place with
    | some e =>
      rw [found] at passed
      obtain ⟨⟨v, small⟩, value, rfl⟩ := Option.map_eq_some_iff.mp passed
      rw [value]
      dsimp only
      rw [node_of_isAtom ((isValue_of_argument? ha found).isAtom_adapt host)]
      rfl
    | none =>
      rw [found] at passed
      rw [Option.map_eq_none_iff.mp passed]
      cases default with
      | none => rfl
      | some v => rfl

theorem isFlat_of_mem_settings {host callee : Host} {d : Definition} {args : List Node}
    (ha : ∀ a ∈ args, IsPassed a) {ps : List Node} (hp : ∀ p ∈ ps, IsDeclared p) {place : Nat} :
    ∀ n ∈ settings host callee d args place ps, IsFlat n := by
  induction ps generalizing place with
  | nil => simp [settings]
  | cons p ps ih =>
    obtain ⟨declared, others⟩ := List.forall_mem_cons.mp hp
    obtain ⟨x, default, rfl, -, value⟩ := declared.exists_default
    rw [settings, List.forall_mem_cons]
    refine ⟨.assign _ ?_, ih others⟩
    unfold setting
    split
    · rename_i found
      exact (isValue_of_argument? ha found).isAtom_adapt host
    · exact value.isAtom_adapt callee

theorem expand_eq {here : Library} {host : Host} {m : String} {d : Definition}
    {args block content statements : List Node} (found : here.find? m = some d)
    (ha : ∀ a ∈ args, IsPassed a) (fits : args.length ≤ d.declared.length)
    (hp : ∀ p ∈ d.declared, IsDeclared p)
    (inner : body here (block.map host.adapt) = .ok content)
    (outer : body (here.without m) (d.body.map (Host.expansion d content).adapt) = .ok statements) :
    expand here ⟨d, here.without m, Library.length_without_lt found⟩
      (.parameters (args.map host.adapt)) (block.map host.adapt) =
        .ok (.list (settings host (.expansion d content) d args 0 d.declared ++ statements)) := by
  have few : ¬ d.declared.length < (positionals (.parameters (args.map host.adapt))).length := by
    rw [Nat.not_lt]
    refine Nat.le_trans (List.length_filter_le _ _) ?_
    rwa [Node.parameterList, List.length_map]
  rw [expand]
  dsimp only
  rw [if_neg few]
  show (body here (block.map host.adapt) >>= _) = _
  rw [inner]
  show (bindings here d content (.parameters (args.map host.adapt)) 0 d.declared >>= _) = _
  rw [bindings_eq ha hp]
  show (body (here.without m) (d.body.map (Host.expansion d content).adapt) >>= _) = _
  rw [outer]
  rfl

end TagCompiler.Meaning
