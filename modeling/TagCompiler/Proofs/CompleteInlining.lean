import TagCompiler.Proofs.InliningSteps
import TagCompiler.Proofs.RoundTrip
/-!
# Inlining leaves no call of a known macro

If no macro of a template leads back to itself, then the macros that are out of the library, because
they are being expanded or gone through, are never among those that the code at hand calls: each of
them leads to whatever is called there. So every statement that calls a macro of the template is
expanded, and inlining the result once more finds nothing to do.
-/

namespace TagCompiler.Inlining

open Grammar Node

/-! ### What the code at hand may call -/

/-- A macro of the tree that is out of the library. -/
def Spent (t : Node) (lib : Library) (m : String) : Prop := m ∈ t.definedMacros ∧ lib.find? m = none

/-- Code that can be inlined to the end: every macro that is out of the library leads to each macro
that the code calls, and the macros it defines call only what they call in the tree. -/
structure Inlinable (t : Node) (lib : Library) (n : Node) : Prop where
  leads : ∀ c ∈ n.statementCallees, c ∈ t.definedMacros → ∀ s, Spent t lib s →
    Relation.TransGen t.Invokes s c
  defined : ∀ k ∈ n.preorder, ∀ m, k.macroName? = some m → m ∈ t.definedMacros ∧
    ∀ c ∈ k.statementCallees, c ∈ t.definedMacros → t.Invokes m c

/-- Code in which no statement calls a macro of the tree any more. -/
structure Inlined (t n : Node) : Prop where
  noCall : ∀ c ∈ n.statementCallees, c ∉ t.definedMacros
  defined : ∀ k ∈ n.preorder, ∀ m, k.macroName? = some m → m ∈ t.definedMacros

theorem mem_preorder_of_macroName? {k n : Node} {m : String} (hk : k ∈ (Node.list [n]).preorder)
    (name : k.macroName? = some m) : k ∈ n.preorder := by
  rcases mem_preorder.mp hk with rfl | ⟨j, hj, below⟩
  · cases name
  · exact List.mem_singleton.mp hj ▸ below

theorem mem_definedMacros {t k : Node} {m : String} (hk : k ∈ t.preorder)
    (name : k.macroName? = some m) : m ∈ t.definedMacros :=
  List.mem_filterMap.mpr ⟨k, hk, name⟩

theorem invokes_of_statementCallees {t k : Node} {m c : String} (hk : k ∈ t.preorder)
    (name : k.macroName? = some m) (called : c ∈ k.statementCallees) (known : c ∈ t.definedMacros) :
    t.Invokes m c :=
  ⟨known, k, hk, name, mem_callees_of_statementCallees called⟩

theorem Spent.of_without {t : Node} {lib : Library} {m s : String} (h : Spent t (lib.without m) s) :
    s = m ∨ Spent t lib s := by
  by_cases same : s = m
  · exact .inl same
  · exact .inr ⟨h.1, Meaning.find?_without same ▸ h.2⟩

namespace Inlinable

variable {t : Node} {lib : Library} {n k : Node}

theorem of_mem_preorder (h : Inlinable t lib n) (hk : k ∈ n.preorder) : Inlinable t lib k :=
  ⟨fun c hc => h.leads c (statementCallees_subset hk hc),
    fun j hj => h.defined j (preorder_trans hk hj)⟩

theorem of_statement (h : Inlinable t lib (.list [n])) (hk : k ∈ n.preorder) : Inlinable t lib k :=
  h.of_mem_preorder (preorder_subset (n := .list [n]) (List.mem_singleton_self n) hk)

theorem statement (h : Inlinable t lib n) (hk : k ∈ n.elements) : Inlinable t lib (.list [k]) := by
  have below := mem_subtrees_of_mem_elements hk
  refine ⟨fun c hc => h.leads c ?_, fun j hj m name => ?_⟩
  · refine mem_statementCallees.mpr ?_
    rcases mem_statementCallees_singleton.mp hc with called | called
    · exact .inl ⟨k, n.elements_eq ▸ hk, called⟩
    · exact .inr ⟨k, below, called⟩
  · exact h.defined j (preorder_subset below (mem_preorder_of_macroName? hj name)) m name

/-- Inside a definition one more macro is out of the library, which leads to all that is called. -/
theorem enter (h : Inlinable t lib n) : Inlinable t (inside lib n) n := by
  refine ⟨fun c hc known s spent => ?_, h.defined⟩
  cases n with
  | macroDef name p cs doc =>
    rcases spent.of_without with rfl | spent
    · exact .single ((h.defined _ (mem_preorder_self _) s rfl).2 c hc known)
    · exact h.leads c hc known s spent
  | _ => exact h.leads c hc known s spent

end Inlinable

namespace Inlined

variable {t n : Node}

theorem of_parts (name : ∀ m, n.macroName? = some m → m ∈ t.definedMacros)
    (outside : ∀ k ∈ n.outside, Inlined t k)
    (statements : ∀ k ∈ n.elements, Inlined t (.list [k])) : Inlined t n := by
  have below : ∀ k ∈ n.subtrees, Inlined t k := by
    intro k hk
    rw [subtrees_eq_append] at hk
    rcases List.mem_append.mp hk with hk | hk
    · exact outside k hk
    · have done := statements k hk
      have below : k ∈ (Node.list [k]).subtrees := List.mem_singleton_self k
      exact ⟨fun c hc => done.noCall c (mem_statementCallees_singleton.mpr (.inr hc)),
        fun j hj => done.defined j (preorder_subset below hj)⟩
  refine ⟨fun c hc => ?_, fun k hk m hm => ?_⟩
  · rcases mem_statementCallees.mp hc with ⟨k, hk, called⟩ | ⟨k, hk, called⟩
    · rw [← elements_eq] at hk
      exact (statements k hk).noCall c (mem_statementCallees_singleton.mpr (.inl called))
    · exact (below k hk).noCall c called
  · rcases mem_preorder.mp hk with rfl | ⟨j, hj, hk⟩
    · exact name m hm
    · exact (below j hj).defined k hk m hm

theorem of_unnamed (unnamed : n.macroName? = none) (outside : ∀ k ∈ n.outside, Inlined t k)
    (statements : ∀ k ∈ n.elements, Inlined t (.list [k])) : Inlined t n := by
  refine .of_parts (fun m named => ?_) outside statements
  cases unnamed.symm.trans named

theorem list {ns : List Node} (h : ∀ n ∈ ns, Inlined t (.list [n])) : Inlined t (.list ns) :=
  .of_unnamed rfl (by simp [outside]) h

theorem statement (h : Inlined t n)
    (noCall : ∀ c, n.statementCallee? = some c → c ∉ t.definedMacros) : Inlined t (.list [n]) := by
  refine ⟨fun c hc => ?_, fun k hk m name => h.defined k (mem_preorder_of_macroName? hk name) m name⟩
  rcases mem_statementCallees_singleton.mp hc with called | called
  · exact noCall c called
  · exact h.noCall c called

/-- An assignment of a parameter. -/
theorem setting {x : String} (h : Inlined t n) :
    Inlined t (.list [.assign (.var [x]) n .set]) := by
  have target : Inlined t (.var [x]) :=
    .of_unnamed rfl (by simp [outside, Node.subtrees, Node.children]) (by simp [elements])
  refine .statement (.of_unnamed rfl ?_ (by simp [elements])) fun c called => (by cases called)
  simpa [outside, Node.subtrees] using ⟨target, h⟩

end Inlined

/-! ### Expansion -/

/-- The macros of the library are macros of the tree, whose defaults are expressions. -/
structure TakenFrom (lib : Library) (t : Node) : Prop where
  defined : ∀ d ∈ lib, ∃ doc, .macroDef d.name d.parameters d.body doc ∈ t.preorder
  defaults : ∀ d ∈ lib, IsExpressionTree d.parameters

theorem TakenFrom.mono {lib part : Library} {t : Node} (h : TakenFrom lib t) (sub : part ⊆ lib) :
    TakenFrom part t :=
  ⟨fun d hd => h.defined d (sub hd), fun d hd => h.defaults d (sub hd)⟩

theorem TakenFrom.without {lib : Library} {t : Node} (h : TakenFrom lib t) (m : String) :
    TakenFrom (lib.without m) t :=
  h.mono (without_subset lib m)

theorem TakenFrom.enter {lib : Library} {t : Node} (h : TakenFrom lib t) (n : Node) :
    TakenFrom (inside lib n) t :=
  h.mono (inside_subset lib n)

theorem takenFrom_of_parse {source : String} {t : Node} (h : Template.parse source = .ok t) :
    TakenFrom (.ofTree t) t := by
  have node : ∀ d ∈ Library.ofTree t, ∃ doc, .macroDef d.name d.parameters d.body doc ∈ t.preorder := by
    intro d hd
    obtain ⟨k, hk, made⟩ := List.mem_filterMap.mp hd
    cases k with
    | macroDef name p body doc =>
      cases made
      exact ⟨doc, hk⟩
    | _ => cases made
  refine ⟨node, fun ⟨name, p, body⟩ hd => ?_⟩
  obtain ⟨doc, hk⟩ := node _ hd
  cases isStatement_of_mem_parse h hk rfl with
  | macroDef _ declarations _ => exact isExpressionTree_parameters declarations.isExpressionTree

variable {t : Node} {lib : Library} {d : Definition} {content : List Node}

/-- The code of a macro with an inlined block in place of its yields. The macro leads to all that
the code calls, and so does what led to the call. -/
theorem inlinable_substitute (taken : TakenFrom lib t) (hd : d ∈ lib)
    (block : Inlined t (.list content)) (reached : ∀ s, Spent t lib s →
      Relation.TransGen t.Invokes s d.name) {n : Node} (hn : n ∈ d.body) :
    Inlinable t (lib.without d.name) (.list [substitute d content n]) := by
  obtain ⟨doc, inTree⟩ := taken.defined d hd
  have inBody : n ∈ (Node.macroDef d.name d.parameters d.body doc).subtrees :=
    List.mem_cons_of_mem _ hn
  refine ⟨fun c hc known s spent => ?_, fun k hk m name => ?_⟩
  · have called : c ∈ (Node.list [n]).statementCallees := by
      rw [mem_statementCallees_singleton, statementCallee?_substitute] at hc
      rw [mem_statementCallees_singleton]
      rcases hc with call | inside
      · exact .inl call
      · rcases statementCallees_substitute d content inside with own | given
        · exact .inr own
        · exact absurd known (block.noCall c given)
    have invoked : t.Invokes d.name c := by
      refine invokes_of_statementCallees inTree rfl ?_ known
      rcases mem_statementCallees_singleton.mp called with call | inside
      · exact mem_statementCallees.mpr (.inl ⟨n, by simpa [bodies] using hn, call⟩)
      · exact mem_statementCallees.mpr (.inr ⟨n, inBody, inside⟩)
    rcases spent.of_without with rfl | spent
    · exact .single invoked
    · exact .tail (reached s spent) invoked
  · rcases mem_preorder_substitute d content (mem_preorder_of_macroName? hk name) with
      ⟨j, hj, rfl⟩ | ⟨b, hb, below⟩
    · rw [macroName?_substitute] at name
      have inTree := preorder_trans inTree (preorder_subset inBody hj)
      refine ⟨mem_definedMacros inTree name, fun c hc known => ?_⟩
      rcases statementCallees_substitute d content hc with own | given
      · exact invokes_of_statementCallees inTree name own known
      · exact absurd known (block.noCall c given)
    · have inBlock : k ∈ (Node.list content).preorder := preorder_subset hb below
      exact ⟨block.defined k inBlock m name, fun c hc known =>
        absurd known (block.noCall c (statementCallees_subset inBlock hc))⟩

/-- A default calls nothing as a statement, and a block in it is inlined already. -/
theorem inlined_default (taken : TakenFrom lib t) (hd : d ∈ lib)
    (block : Inlined t (.list content)) {x : Option String} {w : Node}
    (declared : .parameter x (some w) ∈ d.declared) : Inlined t (substitute d content w) := by
  have part : w ∈ d.parameters.preorder :=
    preorder_trans (preorder_of_parameterList declared)
      (preorder_subset (by simp [Node.subtrees]) (mem_preorder_self w))
  have expression : IsExpressionTree w := fun k hk => taken.defaults d hd k (preorder_trans part hk)
  refine ⟨fun c hc => ?_, fun k hk m name => ?_⟩
  · rcases statementCallees_substitute d content hc with own | given
    · rw [statementCallees_of_isExpressionTree expression] at own
      cases own
    · exact block.noCall c given
  · rcases mem_preorder_substitute d content hk with ⟨j, hj, rfl⟩ | ⟨b, hb, below⟩
    · rw [macroName?_substitute] at name
      have part := expression j hj
      cases j <;> cases name
      cases part
    · exact block.defined k (preorder_subset hb below) m name

/-- Code that can be inlined to the end is inlined to the end, if inlining succeeds. -/
theorem inductive_inlined (acyclic : ∀ m, ¬ Relation.TransGen t.Invokes m m) : Inductive
    (fun lib n => ∀ m, TakenFrom lib t → Inlinable t lib n → node lib n = .ok m → Inlined t m)
    fun lib n => ∀ m, TakenFrom lib t → Inlinable t lib (.list [n]) → statement lib n = .ok m →
      Inlined t (.list [m]) where
  parts {lib n} outside elements m taken ready h := by
    have name := macroName?_of_node h
    obtain ⟨outs, stats, becomes, rfl⟩ := becomes_of_node h
    have taken := taken.enter n
    refine .of_parts (fun x hx => ?_) (fun k' hk' => ?_) fun k' hk' => ?_
    · exact (ready.defined n n.mem_preorder_self x (name ▸ hx)).1
    · rw [becomes.fit.outside_replace] at hk'
      obtain ⟨k, hk, inlined⟩ := exists_of_mem_right becomes.outs hk'
      have below := preorder_subset (mem_subtrees_of_mem_outside hk) k.mem_preorder_self
      exact outside k hk k' taken (ready.enter.of_mem_preorder below) inlined
    · rw [becomes.fit.elements_replace] at hk'
      obtain ⟨k, hk, stated⟩ := exists_of_mem_right becomes.stats hk'
      exact elements k hk k' taken (ready.enter.statement hk) stated
  kept {lib n} absent own m taken ready h := by
    rw [statement_of_absent absent] at h
    have done := own m taken (ready.of_statement n.mem_preorder_self) h
    -- A macro that is called and out of the library would lead to itself.
    refine .statement done fun c called known => ?_
    have called := statementCallee?_of_node h called
    exact acyclic c (ready.leads c (mem_statementCallees_singleton.mpr (.inl called)) known c
      ⟨known, absent c called⟩)
  expanded {lib n arguments c block d} called found ofBlock ofArgument ofCode m taken ready h := by
    obtain ⟨content, settings, statements, rfl, expands⟩ := called.exists_expands found h
    obtain rfl := Meaning.name_of_find? found
    have hd : d ∈ lib := List.mem_of_find?_eq_some found
    have ofCall := ready.of_statement called.mem_preorder
    have inlinedBlock : Inlined t (.list content) := by
      refine .list fun k' hk' => ?_
      obtain ⟨k, hk, stated⟩ := mem_of_body expands.inner k' hk'
      exact ofBlock k hk k' taken (ofCall.statement hk) stated
    have reached : ∀ s, Spent t lib s → Relation.TransGen t.Invokes s d.name := by
      obtain ⟨doc, inTree⟩ := taken.defined d hd
      exact ready.leads d.name (mem_statementCallees_singleton.mpr (.inl called.statementCallee?))
        (mem_definedMacros inTree rfl)
    refine .statement (.list fun k' hk' => ?_) fun c listed => (by cases listed)
    rcases List.mem_append.mp hk' with hk' | hk'
    · obtain ⟨x, v, rfl, setting⟩ := mem_of_bindings expands.bound k' hk'
      refine .setting ?_
      cases setting with
      | @passed name w _ _ given _ inlined =>
        have part := preorder_of_given given
        have inCall : arguments ∈ (Node.call d.name arguments block).subtrees := List.mem_cons_self
        exact ofArgument w part v taken (ofCall.of_mem_preorder (preorder_subset inCall part)) inlined
      | default declared => exact inlined_default taken hd inlinedBlock declared
      | null =>
        exact .of_unnamed rfl (by simp [Node.null, outside, Node.subtrees, Node.children])
          (by simp [Node.null, elements])
    · obtain ⟨k, hk, stated⟩ := mem_of_body expands.code k' hk'
      obtain ⟨b, hb, rfl⟩ := List.mem_map.mp hk
      exact ofCode _ k' (taken.without d.name)
        (inlinable_substitute taken hd inlinedBlock reached hb) stated

theorem inlined_of_node (acyclic : ∀ m, ¬ Relation.TransGen t.Invokes m m) {lib : Library}
    {n m : Node} (taken : TakenFrom lib t) (ready : Inlinable t lib n) (h : node lib n = .ok m) :
    Inlined t m :=
  (inductive_inlined acyclic).node lib n m taken ready h

theorem inlined_of_statement (acyclic : ∀ m, ¬ Relation.TransGen t.Invokes m m) {lib : Library}
    {n m : Node} (taken : TakenFrom lib t) (ready : Inlinable t lib (.list [n]))
    (h : statement lib n = .ok m) : Inlined t (.list [m]) :=
  (inductive_inlined acyclic).statement lib n m taken ready h

/-! ### Nothing left to inline -/

theorem inert_of_uncalled {lib : Library} {n : Node}
    (uncalled : ∀ c ∈ n.statementCallees, lib.find? c = none) : Inert lib n := by
  induction n using induction_on_subtrees generalizing lib with
  | step n ih =>
    have absent : ∀ c ∈ n.statementCallees, (inside lib n).find? c = none :=
      fun c hc => find?_eq_none_of_subset (inside_subset lib n) (uncalled c hc)
    refine ⟨fun k hk c called => absent c ?_, fun k hk => ih k hk fun c hc => absent c ?_⟩
    · exact mem_statementCallees.mpr (.inl ⟨k, n.elements_eq ▸ hk, called⟩)
    · exact mem_statementCallees.mpr (.inr ⟨k, hk, hc⟩)

/-- Code that calls no macro of the library stays as it is. -/
theorem node_of_uncalled {lib : Library} {n : Node}
    (uncalled : ∀ c ∈ n.statementCallees, lib.find? c = none) : node lib n = .ok n :=
  node_eq_self_iff.mpr (inert_of_uncalled uncalled)

theorem inlinable_ofTree (t : Node) : Inlinable t (.ofTree t) t := by
  refine ⟨fun c hc known s spent => ?_, fun k hk m name => ?_⟩
  · obtain ⟨k, hk, name⟩ := List.mem_filterMap.mp spent.1
    cases k with
    | macroDef m p body doc =>
      have member : ⟨m, p, body⟩ ∈ Library.ofTree t := List.mem_filterMap.mpr ⟨_, hk, rfl⟩
      have other := List.find?_eq_none.mp spent.2 _ member
      cases name
      simp at other
    | _ => cases name
  · exact ⟨mem_definedMacros hk name, fun c => invokes_of_statementCallees hk name⟩

theorem find?_ofTree_eq_none {t n : Node} (h : Inlined t n) {c : String} (other : c ∉ t.definedMacros) :
    (Library.ofTree n).find? c = none := by
  refine List.find?_eq_none.mpr fun d hd => ?_
  obtain ⟨k, hk, made⟩ := List.mem_filterMap.mp hd
  cases k with
  | macroDef m p body doc =>
    cases made
    have known := h.defined _ hk m rfl
    rintro same
    exact other (by simpa using eq_of_beq same ▸ known)
  | _ => cases made

theorem run_inline (external : Bool) (n : Node) (memory : Memory) :
    ((Pass.inline external).run none n).run memory =
      ((n.inline (.ofTree n)).mapError CompileError.surplus, memory) :=
  Run.run_ofExcept CompileError.surplus (n.inline (.ofTree n)) memory

theorem node_of_run {external : Bool} {t out : Node} {before after : Memory}
    (run : ((Pass.inline external).run none t).run before = (.ok out, after)) :
    node (.ofTree t) t = .ok out := by
  rw [run_inline, Node.inline] at run
  cases done : node (.ofTree t) t with
  | error e =>
    rw [done] at run
    cases run
  | ok m =>
    rw [done] at run
    cases run
    rfl

/-- A template in which no macro leads to itself is inlined to the end: if inlining succeeds, no
statement of the result calls a macro of the template, and inlining the result changes nothing. -/
theorem inline_complete {source : String} {t out : Node} {external : Bool} {before after : Memory}
    (parsed : Template.parse source = .ok t) (acyclic : ∀ m, ¬ Relation.TransGen t.Invokes m m)
    (run : ((Pass.inline external).run none t).run before = (.ok out, after)) :
    (∀ c ∈ out.statementCallees, c ∉ t.definedMacros) ∧
      ∀ (external : Bool) (memory : Memory),
        ((Pass.inline external).run none out).run memory = (.ok out, memory) := by
  have done := inlined_of_node acyclic (takenFrom_of_parse parsed) (inlinable_ofTree t)
    (node_of_run run)
  refine ⟨done.noCall, fun external memory => ?_⟩
  have fixed := node_of_uncalled fun c hc => find?_ofTree_eq_none done (done.noCall c hc)
  rw [run_inline, Node.inline, fixed]
  rfl

/-- The macro `a` calls `b` and calls it once more from the block; it is itself called in the block
of an unknown macro and in a block assignment. -/
theorem inline_complete_in_blocks :
    let call (m x : String) : List Node → Node := .call m (.parameters [.positional (.var [x])])
    let define (m x : String) (code : List Node) : Node :=
      .macroDef m (.parameters [.parameter (some x) none]) code none
    let b := define "b" "x" [.output [.var ["x"]], .yield]
    let page (a inA : Node) : List Node :=
      [b, a, call "f" "z" [inA], .assign (.var ["s"]) (.list [inA]) .set]
    let ns := page (define "a" "y" [call "b" "y" [.output [call "b" "y" []]]])
      (.output [call "a" "z" []])
    let inB (y : String) (block : List Node) : Node :=
      .list [.assign (.var ["b_x"]) (.var [y]) .set, .output [.var ["b_x"]], .list block]
    let out : Node := .list (page (define "a" "y" [inB "y" [inB "y" []]])
      (.list [.assign (.var ["a_y"]) (.var ["z"]) .set, inB "a_y" [inB "a_y" []]]))
    Template.parse (print ns) = .ok (.list ns) ∧
      ((Pass.inline true).run none (.list ns)).run .empty = (.ok out, .empty) ∧
      "f" ∈ out.statementCallees ∧ (∀ c ∈ out.statementCallees, c ∉ (Node.list ns).definedMacros) ∧
      ((Pass.inline true).run none out).run .empty = (.ok out, .empty) := by
  intro call define b page ns inB out
  have term : ∀ n, IsPrimary .printable n → IsCondition .printable n :=
    fun n h => .expression (.operand (.term (.primary h)))
  have var : ∀ x ∈ ["x", "y", "z"], IsCondition .printable (.var [x]) := fun x hx =>
    term _ (.var ⟨x, [], rfl, by revert x; decide, by revert x; decide⟩)
  have passed : ∀ x ∈ ["x", "y", "z"], IsArguments .printable [.positional (.var [x])] :=
    fun x hx => .positional (var x hx) .nil
  have dotted : ∀ m ∈ ["a", "b", "f"], IsDottedNames m m [] := fun m hm =>
    ⟨by revert m; decide, by revert m; decide, by simp⟩
  have outputCall : ∀ m ∈ ["a", "b", "f"], ∀ x ∈ ["x", "y", "z"],
      IsBody .printable [.output [call m x []]] := fun m hm x hx =>
    .cons (.output (term _ (.call ⟨by revert m; decide, m, [], dotted m hm, by revert m; decide⟩
      (passed x hx))) (by simp)) (by simp) .nil
  have next : ∀ (n : Node) (ms : List Node), isText n = false → ∀ m ∈ ms.head?, Apart n m :=
    fun n ms other m _ => by rw [Apart, other, Bool.false_and]
  have printable : IsBody .printable ns :=
    .cons (.macroDef (by decide) (.bare (by decide) .nil)
      (.cons (.output (var "x" (by simp)) (by simp)) (next _ _ rfl) (.cons .yield (by simp) .nil)))
      (next _ _ rfl)
    (.cons (.macroDef (by decide) (.bare (by decide) .nil)
      (.cons (.call ⟨_, _, dotted "b" (by simp)⟩ (passed "y" (by simp))
        (outputCall "b" (by simp) "y" (by simp))) (by simp) .nil)) (next _ _ rfl)
    (.cons (.call ⟨_, _, dotted "f" (by simp)⟩ (passed "z" (by simp))
      (outputCall "a" (by simp) "z" (by simp))) (next _ _ rfl)
    (.cons (.blockSet (by decide) (outputCall "a" (by simp) "z" (by simp))) (by simp) .nil)))
  have parsed : Template.parse (print ns) = .ok (.list ns) := by
    have spelled := spells_render (bodyPieces ns) []
    rw [List.append_nil] at spelled
    rw [Template.parse_eq, print, String.toList_ofList,
      elementsFrom_spelled printable spelled (by simp)]
    rfl
  have run : ((Pass.inline true).run none (.list ns)).run .empty = (.ok out, .empty) := by cbv
  have down : ∀ m c, (Node.list ns).Invokes m c → m = "a" ∧ c = "b" := by
    have listed : ∀ d ∈ (Node.list ns).preorder, ∀ m ∈ d.macroName?, ∀ c ∈ Meaning.callees d,
      m = "a" ∧ c = "b" := by decide
    rintro m c ⟨-, d, hd, name, called⟩
    exact listed d hd m name c called
  have acyclic : ∀ m, ¬ Relation.TransGen (Node.list ns).Invokes m m := by
    intro m cycle
    obtain ⟨c, first, -⟩ := Relation.TransGen.head'_iff.mp cycle
    obtain ⟨c', -, last⟩ := Relation.TransGen.tail'_iff.mp cycle
    exact absurd ((down _ _ first).1.symm.trans (down _ _ last).2) (by decide)
  have complete := inline_complete parsed acyclic run
  exact ⟨parsed, run, by decide, complete.1, complete.2 true .empty⟩

end TagCompiler.Inlining
