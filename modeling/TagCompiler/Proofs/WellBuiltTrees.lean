import TagCompiler.Proofs.Rebuilding
import TagCompiler.Proofs.TreeNodes
/-!
# Trees that the checked constructors accept

A tree is well built if every node of it could have been made by the constructor that checks its
shape: variables have a name, connectives are `and` and `or`, parameter lists hold parameters, and
the target of an assignment is a variable. Every tree that is read from a template is well built,
and a tree stays so when it is rebuilt and each node keeps the role it has for the node above it.
-/

namespace TagCompiler

namespace Node

/-- The constructor that checks the shape of such nodes, where there is one, makes this node. -/
def Accepted : Node → Prop
  | .var path => var? path = .ok (.var path)
  | .connective symbol => connective? symbol = .ok (.connective symbol)
  | .parameters entries => parameters? entries = .ok (.parameters entries)
  | .call name p body => ∃ entries, call? name entries body = .ok (.call name p body)
  | .macroDef name p body _ =>
    ∃ entries, macroDef? name entries body = .ok (.macroDef name p body none)
  | .filter name subject p => ∃ entries, filter? name subject entries = .ok (.filter name subject p)
  | .assign target value op => assign? op target value = .ok (.assign target value op)
  | _ => True

/-- Every node of the tree is accepted by its constructor. -/
def WellBuilt (n : Node) : Prop := ∀ k ∈ n.preorder, k.Accepted

/-! ### What the constructors check -/

theorem accepted_var {path : List String} : (Node.var path).Accepted ↔ path ≠ [] := by
  cases path <;> simp [Accepted, var?]

theorem accepted_connective {symbol : String} :
    (connective symbol).Accepted ↔ symbol = "and" ∨ symbol = "or" := by
  show connective? symbol = .ok (.connective symbol) ↔ _
  unfold connective?
  by_cases known : symbol = "and" ∨ symbol = "or"
  · simp [known]
  · simp [known]

/-- The entries of a list that the constructor of parameter lists makes. -/
theorem parameters?_eq_ok {entries : List Node} {p : Node} :
    parameters? entries = .ok p ↔
      p = .parameters entries ∧ ∀ e ∈ entries, e.isParameter = true := by
  unfold parameters?
  rw [← List.all_eq_true]
  split
  · rename_i all
    exact ⟨fun made => ⟨(Except.ok.inj made).symm, all⟩, fun made => congrArg _ made.1.symm⟩
  · rename_i other
    exact ⟨fun made => (by cases made), fun made => absurd made.2 other⟩

theorem accepted_parameters {entries : List Node} :
    (parameters entries).Accepted ↔ ∀ e ∈ entries, e.isParameter = true := by
  show parameters? entries = .ok (.parameters entries) ↔ _
  simp [parameters?_eq_ok]

/-- A parameter list of which all entries are parameters. -/
def IsParameterList (p : Node) : Prop :=
  ∃ entries, p = .parameters entries ∧ ∀ e ∈ entries, e.isParameter = true

/-- A node made around a parameter list. -/
theorem exists_map_parameters? {f : Node → Node} (injective : f.Injective) {p : Node} :
    (∃ entries, (parameters? entries).map f = .ok (f p)) ↔ p.IsParameterList := by
  constructor
  · rintro ⟨entries, made⟩
    cases list : parameters? entries with
    | error e =>
      rw [list] at made
      cases made
    | ok q =>
      rw [list] at made
      obtain rfl : q = p := injective (Except.ok.inj made)
      exact ⟨entries, parameters?_eq_ok.mp list⟩
  · rintro ⟨entries, same, all⟩
    exact ⟨entries, by rw [parameters?_eq_ok.mpr ⟨same, all⟩]; rfl⟩

theorem accepted_call {name : String} {p : Node} {body : List Node} :
    (call name p body).Accepted ↔ p.IsParameterList :=
  exists_map_parameters? (f := fun p => .call name p body) fun _ _ same => by cases same; rfl

theorem accepted_macroDef {name : String} {p : Node} {body : List Node} {doc : Option String} :
    (macroDef name p body doc).Accepted ↔ p.IsParameterList :=
  exists_map_parameters? (f := fun p => .macroDef name p body none)
    fun _ _ same => by cases same; rfl

theorem accepted_filter {name : String} {subject p : Node} :
    (filter name subject p).Accepted ↔ p.IsParameterList :=
  exists_map_parameters? (f := fun p => .filter name subject p)
    fun _ _ same => by cases same; rfl

theorem accepted_assign {target value : Node} {op : AssignOp} :
    (assign target value op).Accepted ↔ target.isVar = true := by
  show assign? op target value = .ok (.assign target value op) ↔ _
  unfold assign?
  by_cases var : target.isVar = true
  · simp [var]
  · simp [var]

/-! ### Well-built trees -/

theorem wellBuilt_iff {n : Node} : n.WellBuilt ↔ n.Accepted ∧ ∀ k ∈ n.subtrees, k.WellBuilt :=
  forall_preorder_iff

theorem WellBuilt.accepted {n : Node} (h : n.WellBuilt) : n.Accepted := (wellBuilt_iff.mp h).1

theorem WellBuilt.subtree {n k : Node} (h : n.WellBuilt) (hk : k ∈ n.subtrees) : k.WellBuilt :=
  (wellBuilt_iff.mp h).2 k hk

theorem WellBuilt.part {n k : Node} (h : n.WellBuilt) (hk : k ∈ n.preorder) : k.WellBuilt :=
  fun j hj => h j (preorder_trans hk hj)

/-- All nodes of the list are well built. -/
def BuiltBody (ns : List Node) : Prop := ∀ n ∈ ns, n.WellBuilt

@[simp]
theorem builtBody_nil : BuiltBody [] := by simp [BuiltBody]

@[simp]
theorem builtBody_cons {n : Node} {ns : List Node} :
    BuiltBody (n :: ns) ↔ n.WellBuilt ∧ BuiltBody ns := List.forall_mem_cons

@[simp]
theorem builtBody_append {ns ms : List Node} :
    BuiltBody (ns ++ ms) ↔ BuiltBody ns ∧ BuiltBody ms := List.forall_mem_append

/-! The conditions on each kind of node, for those kinds that a pass makes. -/

theorem wellBuilt_leaf {n : Node} (noSubtree : n.subtrees = []) : n.WellBuilt ↔ n.Accepted := by
  rw [wellBuilt_iff, noSubtree]
  exact and_iff_left (by simp)

/-- A node on which there is no condition. -/
theorem wellBuilt_unchecked {n : Node} (own : n.Accepted) :
    n.WellBuilt ↔ BuiltBody n.subtrees := by
  rw [wellBuilt_iff]
  exact and_iff_right own

@[simp]
theorem wellBuilt_data {v : Value} : (Node.data v).WellBuilt :=
  (wellBuilt_leaf rfl).mpr trivial

@[simp]
theorem wellBuilt_literal {v : Value} {kind : LiteralKind} : (Node.literal v kind).WellBuilt :=
  (wellBuilt_leaf rfl).mpr trivial

@[simp]
theorem wellBuilt_operator {symbol : String} : (Node.operator symbol).WellBuilt :=
  (wellBuilt_leaf rfl).mpr trivial

@[simp]
theorem wellBuilt_connective {symbol : String} :
    (Node.connective symbol).WellBuilt ↔ symbol = "and" ∨ symbol = "or" :=
  (wellBuilt_leaf rfl).trans accepted_connective

@[simp]
theorem wellBuilt_var {path : List String} : (Node.var path).WellBuilt ↔ path ≠ [] :=
  (wellBuilt_leaf rfl).trans accepted_var

@[simp]
theorem wellBuilt_parameter {name : Option String} {v : Node} :
    (Node.parameter name (some v)).WellBuilt ↔ v.WellBuilt :=
  (wellBuilt_unchecked (n := .parameter name (some v)) trivial).trans (by simp [subtrees])

@[simp]
theorem wellBuilt_parameters {entries : List Node} : (Node.parameters entries).WellBuilt ↔
    (∀ e ∈ entries, e.isParameter = true) ∧ BuiltBody entries := by
  rw [wellBuilt_iff, accepted_parameters]
  rfl

@[simp]
theorem wellBuilt_call {name : String} {p : Node} {body : List Node} :
    (Node.call name p body).WellBuilt ↔ p.IsParameterList ∧ p.WellBuilt ∧ BuiltBody body := by
  rw [wellBuilt_iff, accepted_call]
  exact and_congr_right' List.forall_mem_cons

@[simp]
theorem wellBuilt_filter {name : String} {subject p : Node} :
    (Node.filter name subject p).WellBuilt ↔ p.IsParameterList ∧ subject.WellBuilt ∧ p.WellBuilt := by
  rw [wellBuilt_iff, accepted_filter]
  simp [subtrees]

@[simp]
theorem wellBuilt_assign {target value : Node} {op : AssignOp} :
    (Node.assign target value op).WellBuilt ↔
      target.isVar = true ∧ target.WellBuilt ∧ value.WellBuilt := by
  rw [wellBuilt_iff, accepted_assign]
  simp [subtrees]

@[simp]
theorem wellBuilt_branch {c : Node} {ys ns : List Node} : (Node.branch c ys ns).WellBuilt ↔
    c.WellBuilt ∧ BuiltBody ys ∧ BuiltBody ns := by
  rw [wellBuilt_unchecked (n := .branch c ys ns) trivial]
  simp [subtrees]

@[simp]
theorem wellBuilt_loop {key : Option String} {item : String} {source : Node} {body : List Node} :
    (Node.loop key item source body).WellBuilt ↔ source.WellBuilt ∧ BuiltBody body :=
  (wellBuilt_unchecked (n := .loop key item source body) trivial).trans builtBody_cons

@[simp]
theorem wellBuilt_condition {chain : List Node} :
    (Node.condition chain).WellBuilt ↔ BuiltBody chain :=
  wellBuilt_unchecked trivial

@[simp]
theorem wellBuilt_expression {chain : List Node} :
    (Node.expression chain).WellBuilt ↔ BuiltBody chain :=
  wellBuilt_unchecked trivial

@[simp]
theorem wellBuilt_group {inner : List Node} : (Node.group inner).WellBuilt ↔ BuiltBody inner :=
  wellBuilt_unchecked trivial

@[simp]
theorem wellBuilt_list {items : List Node} : (Node.list items).WellBuilt ↔ BuiltBody items :=
  wellBuilt_unchecked trivial

end Node

/-! ### Templates -/

namespace Grammar

open Template

/-- A parameter whose value, if it has one, is a condition. -/
def IsParameter (n : Node) : Prop :=
  ∃ name value, n = .parameter name value ∧ ∀ v ∈ value, IsCondition .parsed v

/-- What a node of a template can be, and what its subtrees are. -/
inductive IsPart : Node → Prop
  | condition {n : Node} : IsCondition .parsed n → IsPart n
  | operator (symbol : String) : IsPart (.operator symbol)
  | connective {symbol : String} : symbol = "and" ∨ symbol = "or" → IsPart (.connective symbol)
  | parameter {n : Node} : IsParameter n → IsPart n
  | parameters {entries : List Node} : (∀ e ∈ entries, IsParameter e) → IsPart (.parameters entries)
  | target {x : String} : isName x = true → IsPart (.var [x])
  | statement {n : Node} : IsStatement .parsed (undocumented n) → IsPart n
  | block {body : List Node} : IsTemplate .parsed body → IsPart (.list body)

theorem IsConnected.isPart {more : List Node} (h : IsConnected .parsed more) :
    ∀ n ∈ more, IsPart n := by
  cases h with
  | nil => simp
  | cons symbol hn hmore =>
    refine List.forall_mem_cons.mpr ⟨.connective symbol, ?_⟩
    exact List.forall_mem_cons.mpr ⟨.condition (.expression hn), hmore.isPart⟩

theorem IsOperand.isPart {n : Node} (h : IsOperand .parsed n) : IsPart n :=
  .condition (.expression (.operand h))

theorem IsOperated.isPart {more : List Node} (h : IsOperated .parsed more) :
    ∀ n ∈ more, IsPart n := by
  cases h with
  | nil => simp
  | cons _ hn hmore =>
    refine List.forall_mem_cons.mpr ⟨.operator _, ?_⟩
    exact List.forall_mem_cons.mpr ⟨hn.isPart, hmore.isPart⟩

theorem IsArguments.isParameter {args : List Node} (h : IsArguments .parsed args) :
    ∀ a ∈ args, IsParameter a := by
  cases h with
  | nil => simp
  | positional hn hmore | named _ hn hmore =>
    exact List.forall_mem_cons.mpr ⟨⟨_, some _, rfl, by simpa using hn⟩, hmore.isParameter⟩

theorem IsEntries.isParameter {entries : List Node} (h : IsEntries .parsed entries) :
    ∀ e ∈ entries, IsParameter e := by
  cases h with
  | nil => simp
  | cons hn hmore =>
    exact List.forall_mem_cons.mpr ⟨⟨_, some _, rfl, by simpa using hn⟩, hmore.isParameter⟩

theorem IsDeclarations.isParameter {decls : List Node} (h : IsDeclarations .parsed decls) :
    ∀ d ∈ decls, IsParameter d := by
  induction h with
  | nil => simp
  | bare _ _ ih => exact List.forall_mem_cons.mpr ⟨⟨_, none, rfl, by simp⟩, ih⟩
  | defaulted _ hn _ ih =>
    exact List.forall_mem_cons.mpr ⟨⟨_, some _, rfl, by simpa using hn⟩, ih⟩

theorem IsItems.isPart {items : List Node} (h : IsItems .parsed items) :
    ∀ n ∈ items, IsPart n := by
  cases h with
  | nil => simp
  | cons hn hmore => exact List.forall_mem_cons.mpr ⟨.condition hn, hmore.isPart⟩

theorem IsStatement.isPart {n : Node} (h : IsStatement .parsed n) : IsPart n :=
  .statement (by rwa [undocumented_of_isStatement h])

theorem IsBody.isPart {body : List Node} (h : IsBody .parsed body) : ∀ n ∈ body, IsPart n :=
  fun n hn => ((isBody_iff.mp h).1 n hn).isPart

theorem IsBody.isTemplate {body : List Node} (h : IsBody .parsed body) :
    IsTemplate .parsed body := by
  have same : body.map undocumented = body.map id :=
    List.map_congr_left fun n hn => undocumented_of_isStatement ((isBody_iff.mp h).1 n hn)
  rwa [IsTemplate, same, List.map_id]

theorem IsPrimary.isPart_of_mem_subtrees {n : Node} (h : IsPrimary .parsed n) :
    ∀ k ∈ n.subtrees, IsPart k := by
  cases h with
  | literal h => cases h <;> exact List.forall_mem_nil _
  | var | yield => simp [Node.subtrees, Node.children]
  | call _ ha => exact List.forall_mem_singleton.mpr (.parameters ha.isParameter)
  | group h => exact List.forall_mem_singleton.mpr (.condition h)
  | array h => exact h.isPart
  | map h => exact fun e he => .parameter (h.isParameter e he)

theorem IsCondition.isPart_of_mem_subtrees {n : Node} (h : IsCondition .parsed n) :
    ∀ k ∈ n.subtrees, IsPart k := by
  cases h with
  | chain hn hmore => exact List.forall_mem_cons.mpr ⟨.condition (.expression hn), hmore.isPart⟩
  | expression h =>
    cases h with
    | chain hn hmore => exact List.forall_mem_cons.mpr ⟨hn.isPart, hmore.isPart⟩
    | operand h =>
      cases h with
      | negated h =>
        exact List.forall_mem_cons.mpr ⟨.operator _, List.forall_mem_singleton.mpr h.isPart⟩
      | term h =>
        cases h with
        | filtered _ hs ha =>
          have subject : IsOperand .parsed _ := .term hs
          exact List.forall_mem_cons.mpr
            ⟨subject.isPart, List.forall_mem_singleton.mpr (.parameters ha.isParameter)⟩
        | primary h => exact h.isPart_of_mem_subtrees

theorem IsStatement.isPart_of_mem_subtrees {n : Node} (h : IsStatement .parsed n) :
    ∀ k ∈ n.subtrees, IsPart k := by
  cases h with
  | text | yield => simp [Node.subtrees, Node.children]
  | output h => exact List.forall_mem_singleton.mpr (.condition h)
  | set hx h =>
    exact List.forall_mem_cons.mpr ⟨.target hx, List.forall_mem_singleton.mpr (.condition h)⟩
  | blockSet hx h =>
    exact List.forall_mem_cons.mpr ⟨.target hx, List.forall_mem_singleton.mpr (.block h.isTemplate)⟩
  | branch hc hyes hno =>
    have inBodies := List.forall_mem_append.mpr ⟨hyes.isPart, hno.isPart⟩
    exact List.forall_mem_cons.mpr ⟨.condition hc, inBodies⟩
  | loop _ _ hs hb => exact List.forall_mem_cons.mpr ⟨.condition hs, hb.isPart⟩
  | call _ ha hb => exact List.forall_mem_cons.mpr ⟨.parameters ha.isParameter, hb.isPart⟩
  | macroDef _ hd hb => exact List.forall_mem_cons.mpr ⟨.parameters hd.isParameter, hb.isPart⟩

theorem IsTemplate.isPart {ns : List Node} (h : IsTemplate .parsed ns) : ∀ n ∈ ns, IsPart n :=
  fun _ hn => .statement ((isBody_iff.mp h).1 _ (List.mem_map_of_mem hn))

namespace IsPart

/-- The subtrees of parts are parts. -/
theorem of_mem_subtrees {n k : Node} (h : IsPart n) (hk : k ∈ n.subtrees) : IsPart k := by
  cases h with
  | condition h => exact h.isPart_of_mem_subtrees k hk
  | operator | connective | target => cases hk
  | parameter h =>
    obtain ⟨name, value, rfl, conditions⟩ := h
    exact .condition (conditions k (by simpa [Node.subtrees] using hk))
  | parameters all => exact .parameter (all k hk)
  | statement h =>
    rw [← subtrees_undocumented] at hk
    exact h.isPart_of_mem_subtrees k hk
  | block h => exact h.isPart k hk

theorem of_mem_preorder {n k : Node} (h : IsPart n) (hk : k ∈ n.preorder) : IsPart k := by
  induction hs : sizeOf n using Nat.strongRecOn generalizing n with
  | ind size ih =>
    rcases Node.mem_preorder.mp hk with rfl | ⟨m, hm, hk⟩
    · exact h
    · exact ih _ (hs ▸ Node.sizeOf_lt_of_mem_subtrees hm) (h.of_mem_subtrees hm) hk rfl

end IsPart

theorem isPart_of_parse {source : String} {t : Node} (h : parse source = .ok t) : IsPart t := by
  obtain ⟨ns, template, rfl⟩ := isTemplate_of_parse h
  unfold ofElements
  split
  · rename_i name params body doc lone
    have member : Node.macroDef name params body doc ∈ ns.filter (!·.isBlankText) := by
      rw [lone]
      exact List.mem_singleton_self _
    exact template.isPart _ (List.mem_filter.mp member).1
  · exact .block template

theorem IsParameter.isParameter {n : Node} (h : IsParameter n) : n.isParameter = true := by
  obtain ⟨name, value, rfl, -⟩ := h
  rfl

theorem isParameterList {entries : List Node} (h : ∀ e ∈ entries, IsParameter e) :
    (Node.parameters entries).IsParameterList :=
  ⟨entries, rfl, fun e he => (h e he).isParameter⟩

theorem IsPrimary.accepted {n : Node} (h : IsPrimary .parsed n) : n.Accepted := by
  cases h with
  | literal h => cases h <;> trivial
  | var h =>
    obtain ⟨root, more, rfl, -⟩ := h
    exact Node.accepted_var.mpr (List.cons_ne_nil _ _)
  | call _ ha => exact Node.accepted_call.mpr (isParameterList ha.isParameter)
  | map h => exact Node.accepted_parameters.mpr fun e he => (h.isParameter e he).isParameter
  | yield | group | array => trivial

theorem IsCondition.accepted {n : Node} (h : IsCondition .parsed n) : n.Accepted := by
  cases h with
  | chain => trivial
  | expression h =>
    cases h with
    | chain => trivial
    | operand h =>
      cases h with
      | negated => trivial
      | term h =>
        cases h with
        | filtered _ _ ha => exact Node.accepted_filter.mpr (isParameterList ha.isParameter)
        | primary h => exact h.accepted

theorem IsStatement.accepted {n : Node} (h : IsStatement .parsed n) : n.Accepted := by
  cases h with
  | set | blockSet => exact Node.accepted_assign.mpr rfl
  | call _ ha => exact Node.accepted_call.mpr (isParameterList ha.isParameter)
  | macroDef _ hd => exact Node.accepted_macroDef.mpr (isParameterList hd.isParameter)
  | text | output | yield | branch | loop => trivial

theorem IsPart.accepted {n : Node} (h : IsPart n) : n.Accepted := by
  cases h with
  | condition h => exact h.accepted
  | connective known => exact Node.accepted_connective.mpr known
  | parameters all => exact Node.accepted_parameters.mpr fun e he => (all e he).isParameter
  | target => exact Node.accepted_var.mpr (List.cons_ne_nil _ _)
  | parameter h =>
    obtain ⟨name, value, rfl, -⟩ := h
    trivial
  | statement h =>
    have accepted := h.accepted
    cases n <;> exact accepted
  | operator | block => trivial

/-- Every tree that is read is well built. -/
theorem wellBuilt_of_parse {source : String} {t : Node} (h : parse source = .ok t) : t.WellBuilt :=
  fun _ hk => ((isPart_of_parse h).of_mem_preorder hk).accepted

end Grammar

/-! ### Rebuilding -/

/-- What a node can be used for by the node above it, if that is checked. -/
inductive Role where
  | variable
  | parameter
  | parameters
  | other

def Node.role : Node → Role
  | .var _ => .variable
  | .parameter .. => .parameter
  | .parameters _ => .parameters
  | _ => .other

/-- What becomes of a node: it is well built and can take the place of the node. -/
structure Fits (n m : Node) : Prop where
  wellBuilt : m.WellBuilt
  role : m.role = n.role

namespace Fits

variable {n m : Node}

theorem isVar (h : Fits n m) (var : n.isVar = true) : m.isVar = true := by
  have role := h.role
  cases n <;> cases var
  cases m <;> cases role
  rfl

theorem isParameter (h : Fits n m) (parameter : n.isParameter = true) : m.isParameter = true := by
  have role := h.role
  cases n <;> cases parameter
  cases m <;> cases role
  rfl

theorem isParameterList (h : Fits n m) (list : n.IsParameterList) : m.IsParameterList := by
  obtain ⟨entries, rfl, -⟩ := list
  have role := h.role
  cases m <;> cases role
  exact ⟨_, rfl, Node.accepted_parameters.mp h.wellBuilt.accepted⟩

end Fits

/-- A node that is put together from what became of its subtrees fits in its place. -/
theorem Rebuilt.fits {n m : Node} (built : n.WellBuilt)
    (h : Rebuilt Fits (fun _ => Node.BuiltBody) n m) : Fits n m := by
  have below : ∀ k ∈ m.subtrees, k.WellBuilt := by
    intro k hk
    obtain ⟨j, -, fits | ⟨ks, all, hk⟩⟩ := h.exists_of_mem_subtrees hk
    · exact fits.wellBuilt
    · exact all k hk
  have accepted := built.accepted
  suffices own : m.Accepted ∧ m.role = n.role from
    ⟨Node.wellBuilt_iff.mpr ⟨own.1, below⟩, own.2⟩
  cases h with
  | leaf => exact ⟨accepted, rfl⟩
  | parameters parts =>
    refine ⟨Node.accepted_parameters.mpr fun e' he' => ?_, rfl⟩
    obtain ⟨e, he, fits⟩ := exists_of_mem_right parts he'
    exact fits.isParameter (Node.accepted_parameters.mp accepted e he)
  | call hp =>
    have list := hp.isParameterList (Node.accepted_call.mp accepted)
    exact ⟨Node.accepted_call.mpr list, rfl⟩
  | macroDef hp =>
    have list := hp.isParameterList (Node.accepted_macroDef.mp accepted)
    exact ⟨Node.accepted_macroDef.mpr list, rfl⟩
  | filter _ hp =>
    have list := hp.isParameterList (Node.accepted_filter.mp accepted)
    exact ⟨Node.accepted_filter.mpr list, rfl⟩
  | assign ht =>
    have target := ht.isVar (Node.accepted_assign.mp accepted)
    exact ⟨Node.accepted_assign.mpr target, rfl⟩
  | parameter | array | branch | loop | condition | expression | group | output | list =>
    exact ⟨trivial, rfl⟩

namespace Rebuilder

variable {m : Type → Type} [Monad m]

/-- A rebuilder that makes well-built trees from well-built trees. -/
abbrev KeepsBuilt (w : Rebuilder m) (o : Outcome m) : Prop :=
  w.Establishes o Node.WellBuilt Fits fun _ => Node.BuiltBody

/-- Statements that stay one statement need no thought. -/
theorem keepsBuilt_of_node {w : Rebuilder m} {o : Outcome m} (same : w.statement = keep.statement)
    (node : ∀ {n x}, n.WellBuilt → o.Ensures x (Fits n) → o.Ensures (w.node n x) (Fits n)) :
    w.KeepsBuilt o where
  below h _ hk := h.subtree hk
  node built hx := node built (o.mono hx fun _ rebuilt => rebuilt.fits built)
  statement _ hx := by
    rw [same]
    exact o.bind hx fun _ fits => o.pure (by simpa using fits.wellBuilt)

end Rebuilder
end TagCompiler
