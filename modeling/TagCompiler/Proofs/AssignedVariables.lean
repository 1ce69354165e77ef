import TagCompiler.Proofs.CompleteInlining
/-!
# The variables that an expansion assigns

The locals of a macro get variables of their own, with the name of the macro and an underscore
before theirs. As both names may have underscores themselves, two macros can end up with one
variable for a local of each: exactly if the name of one macro goes on, after an underscore, with a
word that the local of the other begins with.

Apart from what a statement binds itself, inlining it binds only such variables, of macros that are
in the library. The macro whose code is at hand is not among them.
-/

namespace TagCompiler

/-- The variables that code binds, in assignments and loops at any depth. -/
def Node.assigned (n : Node) : List String := n.preorder.flatMap Inlining.boundBy

namespace Inlining

open Grammar Node

/-! ### Joined names -/

/-- The macro name `n` is `m` and one more word, with which the local `x` begins before `y`. -/
def Continues (m x n y : String) : Prop := ∃ w, n = m ++ "_" ++ w ∧ x = w ++ "_" ++ y

/-- The local `x` of the macro `m` and the local `y` of the macro `n` have the same joined name. -/
def Overlap (m x n y : String) : Prop := Continues m x n y ∨ Continues n y m x

theorem underscored_of_isName {m : String} (h : Template.isName m = true) : underscored m = m := by
  have same : m.toList.map (fun c => if c = '.' then '_' else c) = m.toList.map id := by
    refine List.map_congr_left fun c hc => if_neg fun dot => ?_
    have allowed := Template.all_isNameChar_of_isName h c hc
    rw [dot] at allowed
    exact absurd allowed (by decide)
  rw [underscored, same, List.map_id, String.ofList_toList]

theorem continues_of_split {m x n y : String} {more : List Char} (other : more ≠ [])
    (longer : n.toList = m.toList ++ more) (rest : '_' :: x.toList = more ++ '_' :: y.toList) :
    Continues m x n y := by
  cases more with
  | nil => exact absurd rfl other
  | cons c w =>
    obtain ⟨rfl, begins⟩ := List.cons.inj rest
    refine ⟨String.ofList w, String.ext ?_, String.ext ?_⟩
    · simp [longer]
    · simpa using begins

/-- Two joined names can be split at different underscores only. -/
theorem join_eq_join_iff {m x n y : String} (different : m ≠ n) :
    m ++ "_" ++ x = n ++ "_" ++ y ↔ Overlap m x n y := by
  constructor
  · intro same
    have same : m.toList ++ '_' :: x.toList = n.toList ++ '_' :: y.toList := by
      simpa using congrArg String.toList same
    rcases List.append_eq_append_iff.mp same with ⟨more, longer, rest⟩ | ⟨more, longer, rest⟩
    · refine .inl (continues_of_split ?_ longer rest)
      rintro rfl
      exact different (String.ext (by simpa using longer.symm))
    · refine .inr (continues_of_split ?_ longer rest)
      rintro rfl
      exact different (String.ext (by simpa using longer))
  · rintro (⟨w, rfl, rfl⟩ | ⟨w, rfl, rfl⟩)
    · simp [String.append_assoc]
    · simp [String.append_assoc]

theorem apply_of_mem {d : Definition} {x : String} (h : x ∈ locals d) :
    (freshNames d).apply x = boundName d.name x := by
  simp [Renaming.apply, freshNames, h]

theorem apply_of_not_mem {d : Definition} {x : String} (h : x ∉ locals d) :
    (freshNames d).apply x = x := by
  simp [Renaming.apply, freshNames, h]

/-! ### What is assigned -/

theorem mem_assigned {n : Node} {v : String} :
    v ∈ n.assigned ↔ v ∈ boundBy n ∨ ∃ k ∈ n.subtrees, v ∈ k.assigned := by
  unfold assigned
  simp only [List.mem_flatMap]
  constructor
  · rintro ⟨k, hk, binds⟩
    rcases mem_preorder.mp hk with rfl | ⟨j, hj, below⟩
    · exact .inl binds
    · exact .inr ⟨j, hj, k, below, binds⟩
  · rintro (binds | ⟨j, hj, k, hk, binds⟩)
    · exact ⟨n, n.mem_preorder_self, binds⟩
    · exact ⟨k, preorder_subset hj hk, binds⟩

theorem assigned_subset {k n : Node} (h : k ∈ n.preorder) : k.assigned ⊆ n.assigned := by
  intro v hv
  obtain ⟨j, hj, binds⟩ := List.mem_flatMap.mp hv
  exact List.mem_flatMap.mpr ⟨j, preorder_trans h hj, binds⟩

theorem assigned_of_isExpressionTree {n : Node} (h : IsExpressionTree n) : n.assigned = [] := by
  refine List.eq_nil_iff_forall_not_mem.mpr fun v hv => ?_
  obtain ⟨k, hk, binds⟩ := List.mem_flatMap.mp hv
  have part := h k hk
  cases k <;> simp_all [boundBy, isExpressionPart]

/-- A variable of a macro of the library. -/
def Introduced (lib : Library) (v : String) : Prop :=
  ∃ d ∈ lib, ∃ y ∈ locals d, v = (freshNames d).apply y

theorem Introduced.mono {lib lib' : Library} {v : String} (h : Introduced lib v)
    (sub : lib ⊆ lib') : Introduced lib' v := by
  obtain ⟨d, hd, named⟩ := h
  exact ⟨d, sub hd, named⟩

theorem rootName?_of_rebuilt {R : Node → Node → Prop} {S : Node → List Node → Prop} {n m : Node}
    (h : Rebuilt R S n m) : m.rootName? = n.rootName? := by
  cases h <;> rfl

theorem boundBy_of_node {lib : Library} {n m : Node} (h : node lib n = .ok m) :
    boundBy m = boundBy n := by
  cases rebuilt_of_node h with
  | assign target value =>
    exact congrArg Option.toList (rootName?_of_rebuilt (rebuilt_of_node target))
  | _ => rfl

theorem boundBy_substitute (d : Definition) (block : List Node) (n : Node) :
    boundBy (substitute d block n) = (boundBy n).map (freshNames d).apply := by
  cases n with
  | parameter name value => cases value <;> rfl
  | assign target value op =>
    cases target with
    | var path => cases path <;> rfl
    | parameter name value => cases value <;> rfl
    | _ => rfl
  | loop key item source body => cases key <;> rfl
  | _ => rfl

/-- The code of a macro binds the variables of its locals, and what the block binds. -/
theorem assigned_substitute {d : Definition} {block : List Node} {n : Node} {v : String}
    (h : v ∈ (substitute d block n).assigned) :
    (∃ y ∈ n.assigned, v = (freshNames d).apply y) ∨ ∃ b ∈ block, v ∈ b.assigned := by
  obtain ⟨k, hk, binds⟩ := List.mem_flatMap.mp h
  rcases mem_preorder_substitute d block hk with ⟨j, hj, rfl⟩ | ⟨b, hb, hk⟩
  · rw [boundBy_substitute] at binds
    obtain ⟨y, hy, rfl⟩ := List.mem_map.mp binds
    exact .inl ⟨y, List.mem_flatMap.mpr ⟨j, hj, hy⟩, rfl⟩
  · exact .inr ⟨b, hb, List.mem_flatMap.mpr ⟨k, hk, binds⟩⟩

/-- Each declared parameter is set, under its joined name. -/
theorem boundBy_bindings {lib : Library} {d : Definition} {block : List Node} {arguments : Node}
    {ps ss : List Node} {place : Nat} (h : bindings lib d block arguments place ps = .ok ss) :
    ss.flatMap boundBy = (ps.filterMap parameterName?).map (boundName d.name) := by
  induction ps generalizing place ss with
  | nil =>
    rw [bindings] at h
    cases h
    rfl
  | cons p ps ih =>
    cases name : parameterName? p with
    | none =>
      rw [bindings_unnamed name] at h
      rw [List.filterMap_cons_none name]
      exact ih h
    | some x =>
      cases p with
      | parameter _ default =>
        cases name
        rw [bindings_named] at h
        obtain ⟨v, -, h⟩ := ok_of_bind h
        obtain ⟨more, hmore, h⟩ := ok_of_bind h
        cases h
        exact congrArg (boundName d.name x :: ·) (ih hmore)
      | _ => cases name

/-- What inlined code binds is bound in the code, or it is a variable of a macro of the library. -/
def BindsKnown (inline : Library → Node → Except Surplus Node) (lib : Library) (n : Node) : Prop :=
  (∀ d ∈ lib, IsExpressionTree d.parameters) → ∀ m v, inline lib n = .ok m → v ∈ m.assigned →
    v ∈ n.assigned ∨ Introduced lib v

theorem inductive_bindsKnown : Inductive (BindsKnown node) (BindsKnown statement) where
  parts {lib n} outside elements defaults m v h hv := by
    rcases mem_assigned.mp hv with binds | ⟨k', hk', below⟩
    · exact .inl (mem_assigned.mpr (.inl (boundBy_of_node h ▸ binds)))
    · have defaults : ∀ d ∈ inside lib n, IsExpressionTree d.parameters :=
        fun d hd => defaults d (inside_subset lib n hd)
      have origin : ∃ k ∈ n.subtrees, v ∈ k.assigned ∨ Introduced (inside lib n) v := by
        obtain ⟨outs, stats, becomes, rfl⟩ := becomes_of_node h
        rw [becomes.fit.subtrees_replace] at hk'
        rcases List.mem_append.mp hk' with hk' | hk'
        · obtain ⟨k, hk, inlined⟩ := exists_of_mem_right becomes.outs hk'
          exact ⟨k, mem_subtrees_of_mem_outside hk, outside k hk defaults k' v inlined below⟩
        · obtain ⟨k, hk, stated⟩ := exists_of_mem_right becomes.stats hk'
          exact ⟨k, mem_subtrees_of_mem_elements hk, elements k hk defaults k' v stated below⟩
      obtain ⟨k, hk, own | introduced⟩ := origin
      · exact .inl (mem_assigned.mpr (.inr ⟨k, hk, own⟩))
      · exact .inr (introduced.mono (inside_subset lib n))
  kept {lib n} absent own defaults m v h := by
    rw [statement_of_absent absent] at h
    exact own defaults m v h
  expanded {lib n arguments c code d} called found ofBlock ofArgument ofCode defaults m v h hv := by
    obtain ⟨content, settings, statements, rfl, expands⟩ := called.exists_expands found h
    obtain rfl := Meaning.name_of_find? found
    have hd : d ∈ lib := List.mem_of_find?_eq_some found
    have ofCall : ∀ k ∈ (Node.call d.name arguments code).subtrees, k.assigned ⊆ n.assigned :=
      fun k hk => assigned_subset
        (preorder_trans called.mem_preorder (preorder_subset hk k.mem_preorder_self))
    have block : ∀ b ∈ content, v ∈ b.assigned → v ∈ n.assigned ∨ Introduced lib v := by
      intro b hb hv
      obtain ⟨k, hk, stated⟩ := mem_of_body expands.inner b hb
      refine (ofBlock k hk defaults b v stated hv).imp_left fun own => ?_
      exact ofCall k (List.mem_cons_of_mem _ hk) own
    have ownCode : ∀ k, (∀ y ∈ k.assigned, y ∈ locals d) → v ∈ (substitute d content k).assigned →
        v ∈ n.assigned ∨ Introduced lib v := by
      intro k own hv
      rcases assigned_substitute hv with ⟨y, hy, rfl⟩ | ⟨b, hb, hv⟩
      · exact .inr ⟨d, hd, y, own y hy, rfl⟩
      · exact block b hb hv
    rcases mem_assigned.mp hv with binds | ⟨s, hs, hv⟩
    · cases binds
    rcases List.mem_append.mp hs with hs | hs
    · obtain ⟨x, w, rfl, setting⟩ := mem_of_bindings expands.bound s hs
      rcases mem_assigned.mp hv with binds | ⟨k, hk, below⟩
      · have declared : v ∈ (d.declared.filterMap parameterName?).map (boundName d.name) :=
          boundBy_bindings expands.bound ▸ List.mem_flatMap.mpr ⟨_, hs, binds⟩
        obtain ⟨y, hy, rfl⟩ := List.mem_map.mp declared
        have own : y ∈ locals d := List.mem_append_left _ hy
        exact .inr ⟨d, hd, y, own, (apply_of_mem own).symm⟩
      · have value : v ∈ w.assigned := by
          rcases List.mem_pair.mp hk with rfl | rfl
          · cases below
          · exact below
        cases setting with
        | @passed name u _ _ given _ inlined =>
          have part := preorder_of_given given
          refine (ofArgument u part defaults w v inlined value).imp_left fun own => ?_
          exact ofCall arguments List.mem_cons_self (assigned_subset part own)
        | @default u declared =>
          have part := preorder_of_given declared
          have expression : IsExpressionTree u :=
            fun k hk => defaults d hd k (preorder_trans part hk)
          exact ownCode u (by simp [assigned_of_isExpressionTree expression]) value
        | null => cases value
    · obtain ⟨k, hk, stated⟩ := mem_of_body expands.code s hs
      obtain ⟨b, hb, rfl⟩ := List.mem_map.mp hk
      have rest : ∀ e ∈ lib.without d.name, IsExpressionTree e.parameters :=
        fun e he => defaults e (without_subset lib d.name he)
      rcases ofCode _ rest s v stated hv with own | introduced
      · refine ownCode b (fun y hy => List.mem_append_right _ ?_) own
        obtain ⟨j, hj, binds⟩ := List.mem_flatMap.mp hy
        exact List.mem_flatMap.mpr ⟨j, mem_preorderAll.mpr ⟨b, hb, hj⟩, binds⟩
      · exact .inr (introduced.mono (without_subset lib d.name))

theorem assigned_of_statement {lib : Library} {n m : Node} {v : String}
    (defaults : ∀ d ∈ lib, IsExpressionTree d.parameters) (h : statement lib n = .ok m)
    (hv : v ∈ m.assigned) : v ∈ n.assigned ∨ Introduced lib v :=
  inductive_bindsKnown.statement lib n defaults m v h hv

/-- An expansion sets the variable of each parameter of the macro. -/
theorem assigned_of_expansion {lib : Library} {n m : Node} {d : Definition} {c x : String}
    (h : statement lib n = .ok m) (called : n.statementCallee? = some c)
    (found : lib.find? c = some d)
    (declared : x ∈ d.declared.filterMap parameterName?) : (freshNames d).apply x ∈ m.assigned := by
  rw [apply_of_mem (List.mem_append_left _ declared)]
  obtain ⟨arguments, block, single⟩ := exists_isCallOf called
  rw [single.statement_eq found] at h
  obtain ⟨content, settings, statements, rfl, expands⟩ := expand_eq_ok_iff.mp h
  have bound : boundName d.name x ∈ settings.flatMap boundBy := by
    rw [boundBy_bindings expands.bound]
    exact List.mem_map_of_mem declared
  obtain ⟨s, hs, binds⟩ := List.mem_flatMap.mp bound
  exact mem_assigned.mpr (.inr ⟨s, List.mem_append_left _ hs, mem_assigned.mpr (.inl binds)⟩)

/-! ### Macros of a template -/

theorem underscored_of_parse {source : String} {t : Node} {d : Definition}
    (parsed : Template.parse source = .ok t) (hd : d ∈ Library.ofTree t) :
    underscored d.name = d.name := by
  obtain ⟨doc, inTree⟩ := (takenFrom_of_parse parsed).defined d hd
  have definition := isStatement_of_mem_parse parsed inTree rfl
  generalize d.name = name, d.parameters = p, d.body = code at definition ⊢
  cases definition with
  | macroDef named _ _ => exact underscored_of_isName named

/-- In a template, locals of two macros have the same variable exactly if their names overlap. While
the code of one macro is inlined, which is then out of the library, a statement assigns what it
binds itself and variables of other macros, those of the parameters if it is a call that is
expanded. So it assigns the variable of a local of the macro only if this overlaps with a local of
another one, and a variable that the macro does not bind only if this is spelled like that of a
local. -/
theorem variables_shared_iff_overlap {source : String} {t : Node} {d : Definition}
    (parsed : Template.parse source = .ok t) (hd : d ∈ Library.ofTree t) :
    (∀ e ∈ Library.ofTree t, d.name ≠ e.name → ∀ x ∈ locals d, ∀ y ∈ locals e,
      ((freshNames d).apply x = (freshNames e).apply y ↔ Overlap d.name x e.name y)) ∧
    ∀ lib ⊆ Library.ofTree t, ∀ s r, statement (lib.without d.name) s = .ok r →
      (∀ v ∈ r.assigned, v ∈ s.assigned ∨ Introduced (lib.without d.name) v) ∧
      (∀ c e, s.statementCallee? = some c → (lib.without d.name).find? c = some e →
        ∀ y ∈ e.declared.filterMap parameterName?, (freshNames e).apply y ∈ r.assigned) ∧
      ∀ x, (freshNames d).apply x ∈ r.assigned → (freshNames d).apply x ∈ s.assigned ∨
        ∃ e ∈ lib.without d.name, ∃ y ∈ locals e,
          (x ∈ locals d ∧ Overlap d.name x e.name y) ∨
          (x ∉ locals d ∧ x = (freshNames e).apply y) := by
  have shared : ∀ e ∈ Library.ofTree t, d.name ≠ e.name → ∀ x ∈ locals d, ∀ y ∈ locals e,
      ((freshNames d).apply x = (freshNames e).apply y ↔ Overlap d.name x e.name y) := by
    intro e he different x hx y hy
    rw [apply_of_mem hx, apply_of_mem hy, boundName, boundName, underscored_of_parse parsed hd,
      underscored_of_parse parsed he]
    exact join_eq_join_iff different
  refine ⟨shared, fun lib known s r inlined => ?_⟩
  have known : lib.without d.name ⊆ Library.ofTree t :=
    fun e he => known (without_subset lib d.name he)
  have assigned : ∀ v ∈ r.assigned, v ∈ s.assigned ∨ Introduced (lib.without d.name) v := by
    intro v hv
    have defaults := (takenFrom_of_parse parsed).defaults
    exact assigned_of_statement (fun e he => defaults e (known he)) inlined hv
  refine ⟨assigned, fun c e called found y hy => assigned_of_expansion inlined called found hy, ?_⟩
  intro x hx
  refine (assigned _ hx).imp_right ?_
  rintro ⟨e, he, y, hy, same⟩
  refine ⟨e, he, y, hy, ?_⟩
  have different : d.name ≠ e.name := by
    have other := (List.mem_filter.mp he).2
    exact Ne.symm (by simpa using other)
  by_cases own : x ∈ locals d
  · exact .inl ⟨own, (shared e (known he) different x own y hy).mp same⟩
  · rw [apply_of_not_mem own] at same
    exact .inr ⟨own, same⟩

/-! ### Two macros, of which one calls the other -/

namespace CallingMacros

def callee (n y : String) : Definition := ⟨n, .parameters [.parameter (some y) none], []⟩

def call (n value : String) : Node :=
  .output [.call n (.parameters [.positional (.string value)]) []]

/-- The macro `m` calls `n` before it reads its parameter. -/
def caller (m x n : String) : Definition :=
  ⟨m, .parameters [.parameter (some x) none], [call n "1", .output [.var [x]]]⟩

def definition (d : Definition) : Node := .macroDef d.name d.parameters d.body none

def page (m x n y : String) : List Node :=
  [definition (callee n y), definition (caller m x n), call m "2"]

theorem parse_page {m x n y : String}
    (names : ∀ s ∈ [m, x, n, y], Template.isName s = true ∧ s ∉ reserved ∧ s ≠ "caller") :
    Template.parse (print (page m x n y)) = .ok (.list (page m x n y)) := by
  have output : ∀ k, IsPrimary .printable k → k ≠ .yield → IsStatement .printable (.output [k]) :=
    fun k primary other => .output (.expression (.operand (.term (.primary primary)))) other
  have called : ∀ s ∈ [m, n], ∀ value, IsStatement .printable (call s value) := by
    intro s hs value
    obtain ⟨named, free, other⟩ := names s (by grind)
    have argument : IsPrimary .printable (.string value) := .literal (.string value)
    refine output _ (.call ⟨other, s, [], ⟨by simp, named, by simp⟩, free⟩ ?_) (by simp)
    exact .positional (.expression (.operand (.term (.primary argument)))) .nil
  have read : IsStatement .printable (.output [.var [x]]) := by
    obtain ⟨named, free, -⟩ := names x (by simp)
    exact output _ (.var ⟨x, [], rfl, named, free⟩) (by simp)
  have defined : ∀ s ∈ [m, n], ∀ z ∈ [x, y], ∀ code, IsBody .printable code →
      IsStatement .printable (definition ⟨s, .parameters [.parameter (some z) none], code⟩) :=
    fun s hs z hz code body =>
      .macroDef (names s (by grind)).1 (.bare (names z (by grind)).1 .nil) body
  have body : IsBody .printable [call n "1", .output [.var [x]]] :=
    .cons (called n (by simp) "1") (by simp [Apart, isText, call]) (.cons read (by simp) .nil)
  have printable : IsBody .printable (page m x n y) :=
    .cons (defined n (by simp) y (by simp) [] .nil) (by simp [Apart, isText, definition])
      (.cons (defined m (by simp) x (by simp) _ body) (by simp [Apart, isText, definition])
        (.cons (called m (by simp) "2") (by simp) .nil))
  rw [parse_printed printable]
  rfl

end CallingMacros

open CallingMacros

/-- Both macros have a parameter `x`. -/
theorem variables_apart_in_call :
    let t : Node := .list (page "a" "x" "b" "x")
    let d := caller "a" "x" "b"
    let e := callee "b" "x"
    Template.parse (print (page "a" "x" "b" "x")) = .ok t ∧ d ∈ Library.ofTree t ∧
    (freshNames d).apply "x" ≠ (freshNames e).apply "x" ∧
    ∃ r, statement ((Library.ofTree t).without "a") (substitute d [] (call "b" "1")) = .ok r ∧
      (freshNames e).apply "x" ∈ r.assigned ∧ (freshNames d).apply "x" ∉ r.assigned := by
  intro t d e
  have parsed : Template.parse (print (page "a" "x" "b" "x")) = .ok t := parse_page (by decide)
  have known : Library.ofTree t = [e, d] := rfl
  have apart : ∀ y, ¬ Overlap "a" "x" "b" y := by
    rintro y (⟨w, same, -⟩ | ⟨w, same, -⟩)
    · simpa using congrArg String.toList same
    · simpa using congrArg String.toList same
  have hd : d ∈ Library.ofTree t := by simp [known]
  obtain ⟨shared, assigned⟩ := variables_shared_iff_overlap parsed hd
  have inlined : statement ((Library.ofTree t).without "a") (substitute d [] (call "b" "1")) =
      .ok (.list [.assign (.var ["b_x"]) (.string "1") .set]) := by cbv
  obtain ⟨-, sets, own⟩ := assigned _ (List.Subset.refl _) _ _ inlined
  have set := sets "b" e rfl rfl "x" (by decide)
  refine ⟨parsed, hd, fun same => ?_, _, inlined, set, fun taken => ?_⟩
  · have he : e ∈ Library.ofTree t := by simp [known]
    exact apart "x" ((shared e he (by decide) "x" (by decide) "x" (by decide)).mp same)
  · rcases own "x" taken with given | ⟨e', he', y, hy, ⟨-, overlap⟩ | ⟨foreign, -⟩⟩
    · exact absurd given (by decide)
    · have rest : (Library.ofTree t).without d.name = [e] := rfl
      rw [rest] at he'
      obtain rfl := List.mem_singleton.mp he'
      exact apart y overlap
    · exact foreign (by decide)

/-- The local `c` of `a_b` and the local `b_c` of `a` have one variable, so that the call of `a`
takes away the value that `a_b` was called with. -/
theorem variable_shared_in_call :
    let t : Node := .list (page "a_b" "c" "a" "b_c")
    let d := caller "a_b" "c" "a"
    let e := callee "a" "b_c"
    let set (value : String) : Node := .assign (.var ["a_b_c"]) (.string value) .set
    print (page "a_b" "c" "a" "b_c") =
      "\x7b% macro a(b_c) %\x7d\x7b% endmacro %\x7d\x7b% macro a_b(c) %\x7d" ++
        "\x7b\x7b a('1') \x7d\x7d\x7b\x7b c \x7d\x7d\x7b% endmacro %\x7d" ++
        "\x7b\x7b a_b('2') \x7d\x7d" ∧
    Template.parse (print (page "a_b" "c" "a" "b_c")) = .ok t ∧
    d ∈ Library.ofTree t ∧ e ∈ Library.ofTree t ∧ d.name ≠ e.name ∧
    "c" ∈ locals d ∧ "b_c" ∈ locals e ∧
    (freshNames d).apply "c" = (freshNames e).apply "b_c" ∧
    t.inline (Library.ofTree t) = .ok (.list [definition e,
      definition ⟨d.name, d.parameters, [.list [set "1"], .output [.var ["c"]]]⟩,
      .list [set "2", .list [set "1"], .output [.var ["a_b_c"]]]]) := by
  intro t d e set
  have known : Library.ofTree t = [e, d] := rfl
  refine ⟨by decide +kernel, parse_page (by decide), by simp [known], by simp [known], by decide,
    by decide, by decide, by decide, by cbv⟩

end Inlining
end TagCompiler
