import TagCompiler.Proofs.Execution
import TagCompiler.Proofs.LoweredModels
/-!
# The data that arguments receive

A template runs statement after statement. Before a statement that asks for view models their loads
run, so the last load for the variable that an argument became is one of its own statement, namely
the last one that the statement has for this variable. The variable is named after the macro and the
parameter only. Two calls of one macro in a statement therefore share it, and both receive the model
of the second call.
-/

namespace TagCompiler

open Grammar Node

namespace ModelLoading

open Execution

variable {data : String → Value}

/-! ### Runs of a tree with its loads -/

theorem isLoad_load (v : String) (d : Value) : isLoad (load v d) = true := rfl

theorem isEmpty_loweredBody (body : List Node) :
    (loweredBody data body).isEmpty = body.isEmpty := by
  cases body <;> simp [loweredBody]

theorem isLoad_lowered (n : Node) : isLoad (lowered data n) = isLoad n := by
  cases n with
  | call name p body => cases body <;> simp [lowered, loweredBody, isLoad]
  | parameter x v => cases v <;> rfl
  | _ => rfl

theorem advance_loads (requests : List (String × String)) (body : List Node) :
    advance (loadsOf data requests ++ body) =
      (loadsOf data requests ++ (advance body).1, (advance body).2) := by
  induction requests with
  | nil => rfl
  | cons r requests ih =>
    have here : loadsOf data (r :: requests) = load r.1 (data r.2) :: loadsOf data requests := rfl
    rw [here, List.cons_append, advance, if_pos (isLoad_load _ _), ih]
    rfl

theorem advance_loweredBody (body : List Node) : advance (loweredBody data body) =
    ((advance body).1.flatMap (emitted data), loweredBody data (advance body).2) := by
  induction body with
  | nil => rfl
  | cons s rest ih =>
    rw [loweredBody, advance_loads, advance, advance, isLoad_lowered]
    split
    · simp [ih, emitted]
    · simp [emitted]

/-- One decision starts what the statements become that it starts in the tree itself. -/
theorem step_lowered (bodies stack : List (List Node)) (d : Decision) :
    step (bodies.map (loweredBody data)) (stack.map (loweredBody data)) d =
      ((step bodies stack d).1.flatMap (emitted data),
        (step bodies stack d).2.map (loweredBody data)) := by
  fun_cases step bodies stack d with
  | case1 => rfl
  | case2 outer => rfl
  | case3 s rest outer =>
    have filled : loweredBody data (s :: rest) ≠ [] := by simp [loweredBody]
    obtain ⟨first, others, same⟩ := List.exists_cons_of_ne_nil filled
    rw [List.map_cons, same, step, ← same, advance_loweredBody]
    rfl
  | case4 stack i =>
    rw [step, List.getElem?_map, Option.toList_map, ← List.map_append]
    rfl

theorem run_lowered (bodies stack : List (List Node)) (decisions : List Decision) :
    run (bodies.map (loweredBody data)) (stack.map (loweredBody data)) decisions =
      (run bodies stack decisions).flatMap (emitted data) := by
  induction decisions generalizing stack with
  | nil => rfl
  | cons d decisions ih => rw [run, run, step_lowered, ih, List.flatMap_append]

/-! ### The bodies of a tree with its loads -/

theorem runnable_eq (n : Node) : runnable n = (bodies n).filter (!·.isEmpty) ++
    (n.outside.flatMap runnable ++ (bodies n).flatten.flatMap runnable) := by
  rw [runnable, Effects.allBodies_eq, List.filter_append, List.filter_flatMap, subtrees_eq,
    List.flatMap_append]
  rfl

theorem runnable_of_isExpressionTree {n : Node} (h : IsExpressionTree n) : runnable n = [] := by
  refine List.eq_nil_iff_forall_not_mem.mpr fun body hbody => ?_
  obtain ⟨listed, filled⟩ := List.mem_filter.mp hbody
  obtain ⟨k, hk, own⟩ := List.mem_flatMap.mp listed
  have part := h k hk
  cases k <;> simp_all [bodies, isExpressionPart]

theorem bodies_lowered (n : Node) :
    bodies (lowered data n) = (bodies n).map (loweredBody data) := by
  cases n with
  | parameter x v => cases v <;> rfl
  | _ => rfl

theorem outside_lowered {n : Node} (h : ∀ name p body, n ≠ .call name p body) :
    (lowered data n).outside = n.outside.map (lowered data) := by
  cases n with
  | call name p body => exact absurd rfl (h name p body)
  | parameter x v => cases v <;> rfl
  | _ => simp [lowered, outside, subtrees, children, loweredAll_eq]

/-- The arguments of a call are expressions, wherever it stands. -/
theorem exists_of_isPart_call {name : String} {p : Node} {body : List Node}
    (h : IsPart (.call name p body)) : ∃ args, p = .parameters args ∧ IsExpressionTree p := by
  have arguments : ∃ args, p = .parameters args ∧ IsArguments .parsed args := by
    cases h with
    | condition h =>
      cases h with | expression h =>
      cases h with | operand h =>
      cases h with | term h =>
      cases h with | primary h =>
      cases h with
      | literal h => cases h
      | call _ ha => exact ⟨_, rfl, ha⟩
    | parameter h =>
      obtain ⟨x, value, same, -⟩ := h
      cases same
    | statement h =>
      cases h with
      | call _ ha => exact ⟨_, rfl, ha⟩
  obtain ⟨args, rfl, ha⟩ := arguments
  exact ⟨args, rfl, isExpressionTree_parameters ha.isExpressionTree⟩

theorem runnable_parameters (entries : List Node) :
    runnable (.parameters entries) = entries.flatMap runnable := by
  rw [runnable_eq]
  simp [bodies, outside, subtrees, children]

theorem runnable_passed {call : String} {parameters : List String} {a : Node}
    (h : runnable a = []) : runnable (passed call parameters a) = [] := by
  unfold passed
  split
  · split
    · rfl
    · exact h
  · exact h

theorem runnable_outside_call {name : String} {p : Node} {body : List Node}
    (h : IsPart (.call name p body))
    (inner : runnable (lowered data p) = (runnable p).map (loweredBody data)) :
    (lowered data (.call name p body)).outside.flatMap runnable =
      (runnable p).map (loweredBody data) := by
  obtain ⟨args, rfl, expression⟩ := exists_of_isPart_call h
  have none := runnable_of_isExpressionTree expression
  rw [none, lowered, runnable_parameters, List.map_nil, List.flatMap_eq_nil_iff] at inner
  rw [none, lowered, outside, List.flatMap_singleton, runnable_parameters, List.map_nil,
    List.flatMap_eq_nil_iff]
  intro e he
  obtain ⟨a, ha, rfl⟩ := List.mem_map.mp he
  exact runnable_passed (inner a (by rwa [lowered] at ha))

theorem runnable_emitted (s : Node) :
    (emitted data s).flatMap runnable = runnable (lowered data s) := by
  have silent : (loadsOf data (asked s)).flatMap runnable = [] := by
    refine List.flatMap_eq_nil_iff.mpr fun l hl => ?_
    obtain ⟨r, -, rfl⟩ := List.mem_map.mp hl
    rfl
  rw [emitted, List.flatMap_append, silent, List.nil_append, List.flatMap_singleton]

theorem flatten_map_loweredBody (bs : List (List Node)) :
    (bs.map (loweredBody data)).flatten = loweredBody data bs.flatten := by
  induction bs with
  | nil => rfl
  | cons b bs ih =>
    rw [List.map_cons, List.flatten_cons, List.flatten_cons, ih, loweredBody_eq, loweredBody_eq,
      loweredBody_eq, List.flatMap_append]

theorem runnable_loweredBody {body : List Node}
    (h : ∀ s ∈ body, runnable (lowered data s) = (runnable s).map (loweredBody data)) :
    (loweredBody data body).flatMap runnable = (body.flatMap runnable).map (loweredBody data) := by
  rw [loweredBody_eq, List.flatMap_assoc, List.map_flatMap]
  refine List.flatMap_congr fun s hs => ?_
  rw [runnable_emitted, h s hs]

/-- Loads have no bodies, and no argument that is replaced has one. So the bodies are the old ones,
with their loads. -/
theorem runnable_lowered {n : Node} (h : IsPart n) :
    runnable (lowered data n) = (runnable n).map (loweredBody data) := by
  induction n using Node.induction_on_subtrees with
  | step n ih =>
    have below := fun k (hk : k ∈ n.subtrees) => ih k hk (h.of_mem_subtrees hk)
    rw [subtrees_eq] at below
    obtain ⟨outer, inner⟩ := List.forall_mem_append.mp below
    have own : (bodies (lowered data n)).filter (!·.isEmpty) =
        ((bodies n).filter (!·.isEmpty)).map (loweredBody data) := by
      rw [bodies_lowered, List.filter_map]
      congr 1
      exact List.filter_congr fun body _ => by simp [isEmpty_loweredBody]
    have inBodies : (bodies (lowered data n)).flatten.flatMap runnable =
        ((bodies n).flatten.flatMap runnable).map (loweredBody data) := by
      rw [bodies_lowered, flatten_map_loweredBody, runnable_loweredBody inner]
    have around : (lowered data n).outside.flatMap runnable =
        (n.outside.flatMap runnable).map (loweredBody data) := by
      by_cases call : ∃ name p body, n = .call name p body
      · obtain ⟨name, p, body, rfl⟩ := call
        rw [runnable_outside_call h (outer p (List.mem_singleton_self p)), outside,
          List.flatMap_singleton]
      · rw [outside_lowered fun name p body same => call ⟨name, p, body, same⟩, List.map_flatMap,
          List.flatMap_map]
        exact List.flatMap_congr outer
    rw [runnable_eq, runnable_eq n, own, inBodies, around, List.map_append, List.map_append]

/-- A tree with its loads starts, decision by decision, what the statements become that the tree
starts. -/
theorem trace_lowered {n out : Node} (h : IsPart n)
    (top : out.topLevel = loweredBody data n.topLevel) (decisions : List Decision) :
    trace out decisions = (trace n decisions).flatMap (emitted data) := by
  have parts : ∀ s ∈ n.topLevel, IsPart s := fun s hs =>
    h.of_mem_preorder (mem_preorder_of_mem_topLevel hs)
  rw [trace, top, runnable_loweredBody fun s hs => runnable_lowered (parts s hs)]
  exact run_lowered _ [n.topLevel] decisions

/-! ### The requests of a statement -/

/-- The statement has a call outside of its bodies, of which an argument with this path becomes the
variable `v`. -/
def AsksFor (s : Node) (v path : String) : Prop :=
  ∃ name p body, Within (.call name p body) s ∧
    ∃ a ∈ p.parameterList, ∃ x, modelRequest? a = some (x, path) ∧ variableName name x = v

theorem asked_eq (n : Node) : asked n = n.outside.flatMap asked ++ ownRequests n := by
  cases n with
  | parameter x v => cases v <;> simp [asked, outside, subtrees, ownRequests]
  | _ => simp [asked, outside, subtrees, children, ownRequests, askedAll_eq]

theorem mem_ownRequests_call {name : String} {p : Node} {body : List Node} {v path : String} :
    (v, path) ∈ ownRequests (.call name p body) ↔
      ∃ a ∈ p.parameterList, ∃ x, modelRequest? a = some (x, path) ∧ variableName name x = v := by
  simp only [ownRequests, modelRequests, parameterList, List.mem_map, List.mem_filterMap,
    Prod.mk.injEq, Prod.exists]
  constructor
  · rintro ⟨x, q, ⟨a, ha, asks⟩, same, rfl⟩
    exact ⟨a, ha, x, asks, same⟩
  · rintro ⟨a, ha, x, asks, same⟩
    exact ⟨x, path, ⟨a, ha, asks⟩, same, rfl⟩

theorem mem_asked_iff {n : Node} {v path : String} : (v, path) ∈ asked n ↔ AsksFor n v path := by
  constructor
  · intro h
    induction n using Node.induction_on_subtrees with
    | step n ih =>
      rw [asked_eq, List.mem_append, List.mem_flatMap] at h
      rcases h with ⟨m, hm, h⟩ | own
      · obtain ⟨name, p, body, within, asks⟩ := ih m (mem_subtrees_of_mem_outside hm) h
        exact ⟨name, p, body, .outside hm within, asks⟩
      · cases n with
        | call name p body => exact ⟨name, p, body, .self, mem_ownRequests_call.mp own⟩
        | _ => cases own
  · rintro ⟨name, p, body, within, asks⟩
    induction within with
    | self =>
      rw [asked_eq]
      exact List.mem_append_right _ (mem_ownRequests_call.mpr asks)
    | outside hm _ ih =>
      rw [asked_eq]
      exact List.mem_append_left _ (List.mem_flatMap.mpr ⟨_, hm, ih⟩)

theorem AsksFor.mem_paths {s : Node} {v path : String} (h : AsksFor s v path) : path ∈ paths s := by
  obtain ⟨name, p, body, within, a, ha, x, asks, -⟩ := h
  refine List.mem_flatMap.mpr ⟨_, within.mem_preorder, List.mem_map.mpr ⟨(x, path), ?_, rfl⟩⟩
  exact List.mem_filterMap.mpr ⟨a, ha, asks⟩

/-- The path of the last model that a statement loads into a variable. -/
def lastAsked (s : Node) (v : String) : Option String := (asked s).reverse.lookup v

theorem exists_lastAsked {s : Node} {v path : String} (h : AsksFor s v path) :
    ∃ q, lastAsked s v = some q := by
  refine Option.ne_none_iff_exists'.mp fun none => ?_
  have absent := List.lookup_eq_none_iff.mp none _ (List.mem_reverse.mpr (mem_asked_iff.mpr h))
  simp at absent

theorem exists_of_lastAsked {s : Node} {v q : String} (h : lastAsked s v = some q) :
    ∃ front back, asked s = front ++ (v, q) :: back ∧ ∀ r ∈ back, r.1 ≠ v := by
  obtain ⟨back, front, whole, others⟩ := List.lookup_eq_some_iff.mp h
  refine ⟨front.reverse, back.reverse, ?_, fun r hr same => ?_⟩
  · rw [← List.reverse_reverse (asked s), whole]
    simp
  · have other := others r (List.mem_reverse.mp hr)
    simp [same] at other

theorem AsksFor.of_lastAsked {s : Node} {v q : String} (h : lastAsked s v = some q) :
    AsksFor s v q := by
  obtain ⟨front, back, whole, -⟩ := exists_of_lastAsked h
  exact mem_asked_iff.mp (by simp [whole])

/-! ### The last load -/

/-- The node is a call that loads the variable `v`. -/
def Loads (v : String) (k : Node) : Prop :=
  ∃ p body kind, k = .call "loadModel" p body ∧
    .parameter (some "var") (some (.literal (.string v) kind)) ∈ p.parameterList

/-- The last call among these statements that loads the variable gives it this data. -/
def LastLoad (v : String) (d : Value) (started : List Node) : Prop :=
  ∃ earlier later, started = earlier ++ load v d :: later ∧
    ∀ s ∈ later, ∀ k, Within k s → ¬Loads v k

theorem loads_load (v : String) (d : Value) : Loads v (load v d) :=
  ⟨_, _, .string, rfl, List.mem_cons_self⟩

/-- A load is the only call in it, and loads one variable. -/
theorem eq_of_loads {v w : String} {d : Value} {k : Node} (within : Within k (load w d))
    (h : Loads v k) : w = v := by
  obtain ⟨p, body, kind, rfl, listed⟩ := h
  obtain ⟨rfl, rfl⟩ : p = .parameters [.named "var" (.string w), .named "data" (.data d)] ∧
      body = [] := by
    simpa [load, named, string, preorder, preorderAll] using within.mem_preorder
  obtain ⟨rfl, -⟩ : v = w ∧ kind = .string := by
    simpa [parameterList, named, string] using listed
  rfl

theorem LastLoad.unique {v : String} {d e : Value} {started : List Node}
    (first : LastLoad v d started) (second : LastLoad v e started) : d = e := by
  obtain ⟨earlier, later, rfl, after⟩ := first
  obtain ⟨earlier', later', same, after'⟩ := second
  rcases List.append_eq_append_iff.mp same with ⟨between, -, same⟩ | ⟨between, -, same⟩
  · cases between with
    | nil =>
      cases same
      rfl
    | cons l between =>
      obtain ⟨-, rfl⟩ := List.cons.inj same
      exact absurd (loads_load v e) (after _ (by simp) _ .self)
  · cases between with
    | nil =>
      cases same
      rfl
    | cons l between =>
      obtain ⟨-, rfl⟩ := List.cons.inj same
      exact absurd (loads_load v d) (after' _ (by simp) _ .self)

/-- Right before a statement, the last load for a variable that it asks for is its own last one. -/
theorem lastLoad_iff {s : Node} {v q : String} (h : lastAsked s v = some q) (earlier : List Node)
    (d : Value) : LastLoad v d (earlier ++ loadsOf data (asked s)) ↔ data q = d := by
  have own : LastLoad v (data q) (earlier ++ loadsOf data (asked s)) := by
    obtain ⟨front, back, whole, others⟩ := exists_of_lastAsked h
    refine ⟨earlier ++ loadsOf data front, loadsOf data back, by simp [whole, loadsOf], ?_⟩
    intro l hl k within loads
    obtain ⟨r, hr, rfl⟩ := List.mem_map.mp hl
    exact others r hr (eq_of_loads within loads)
  constructor
  · exact own.unique
  · rintro rfl
    exact own

/-! ### Calls with variables as arguments -/

theorem lowered_ne_call {n : Node} (h : ∀ name p body, n ≠ .call name p body) (name : String)
    (p : Node) (body : List Node) : lowered data n ≠ .call name p body := by
  cases n with
  | call f q b => exact absurd rfl (h f q b)
  | parameter x v => cases v <;> simp [lowered]
  | _ => simp [lowered]

theorem within_passed {name call : String} {parameters : List String} {p a : Node}
    {body : List Node} (h : Within (.call name p body) (passed call parameters a)) :
    Within (.call name p body) a := by
  unfold passed at h
  split at h
  · split at h
    · simpa [named, preorder] using h.mem_preorder
    · exact h
  · exact h

/-- A call in what a statement becomes is one that the statement had, with variables. -/
theorem exists_of_within_lowered {n : Node} (built : n.WellBuilt) {name : String} {p : Node}
    {body : List Node} (h : Within (.call name p body) (lowered data n)) :
    ∃ args block, Within (.call name (.parameters args) block) n ∧
      .call name p body = lowered data (.call name (.parameters args) block) := by
  induction n using Node.induction_on_subtrees with
  | step n ih =>
    have below : ∀ m ∈ n.outside, Within (.call name p body) (lowered data m) →
        ∃ args block, Within (.call name (.parameters args) block) n ∧
          .call name p body = lowered data (.call name (.parameters args) block) := by
      intro m hm within
      have subtree := mem_subtrees_of_mem_outside hm
      obtain ⟨args, block, within, same⟩ := ih m subtree (built.subtree subtree) within
      exact ⟨args, block, .outside hm within, same⟩
    by_cases call : ∃ f q b, n = .call f q b
    · obtain ⟨f, q, b, rfl⟩ := call
      obtain ⟨⟨args, rfl, -⟩, -, -⟩ := wellBuilt_call.mp built
      generalize whole : lowered data (.call f (.parameters args) b) = m at h
      cases h with
      | self =>
        have same := whole
        rw [lowered] at same
        obtain ⟨rfl, -, -⟩ := Node.call.inj same
        exact ⟨args, b, .self, whole.symm⟩
      | outside hm within =>
        rw [← whole, lowered] at hm
        obtain rfl := List.mem_singleton.mp hm
        cases within with
        | outside hm within =>
          obtain ⟨a, ha, rfl⟩ := List.mem_map.mp hm
          exact below _ (List.mem_singleton_self _)
            (.outside (by rwa [lowered] at ha ⊢) (within_passed within))
    · have other : ∀ f q b, n ≠ .call f q b := fun f q b same => call ⟨f, q, b, same⟩
      generalize whole : lowered data n = m at h
      cases h with
      | self => exact absurd whole (lowered_ne_call other name p body)
      | outside hm within =>
        rw [← whole, outside_lowered other] at hm
        obtain ⟨k, hk, rfl⟩ := List.mem_map.mp hm
        exact below k hk within

theorem exists_of_modelRequest? {a : Node} {x path : String}
    (h : modelRequest? a = some (x, path)) :
    ∃ kind, a = .parameter (some x) (some (.literal (.string path) kind)) := by
  unfold modelRequest? at h
  split at h
  · split at h
    · cases h
      exact ⟨_, rfl⟩
    · cases h
  · cases h

/-- In the place of an argument that named a model there is the variable. -/
theorem getElem?_of_modelRequest? {name x path : String} {args block : List Node} {i : Nat}
    {a : Node} (place : args[i]? = some a) (asks : modelRequest? a = some (x, path)) :
    ((lowered data (.parameters args)).parameterList.map (passed name
      ((modelRequests (.call name (.parameters args) block)).map Prod.fst)))[i]? =
        some (.named x (.var [variableName name x])) := by
  have listed : x ∈ (modelRequests (.call name (.parameters args) block)).map Prod.fst :=
    List.mem_map.mpr ⟨(x, path), List.mem_filterMap.mpr ⟨a, List.mem_of_getElem? place, asks⟩, rfl⟩
  obtain ⟨kind, rfl⟩ := exists_of_modelRequest? asks
  rw [lowered, loweredAll_eq, parameterList, List.getElem?_map, List.getElem?_map, place]
  simp only [Option.map_some, lowered, passed, if_pos listed]

end ModelLoading

open ModelLoading Execution in
/-- **The last load wins.** Let there be all models that a template asks for. Then loading them
succeeds. A run of the tree that comes out starts the statements that the template starts, each
with its loads in front. Each call in such a statement is one that the statement had, and
where an argument named the model `path` it now passes a variable. The last load for this variable
before the statement has the data of the model that the statement asks for last under this variable.
That is `path` itself if no argument in the statement that becomes the same variable names another
model. -/
theorem Template.argument_receives_last_model {source : String} {n : Node}
    (parsed : Template.parse source = .ok n) {c : Content}
    (exist : ∀ path ∈ paths n, ∃ v, c.viewModel path = .ok v) (site : String) (m : Memory) :
    ∃ out after, (Pass.staticModel.run (some ⟨c, site⟩) n).run m = (.ok out, after) ∧
      ∀ decisions, trace out decisions = (trace n decisions).flatMap (emitted c.modelData) ∧
        ∀ earlier s later, trace n decisions = earlier ++ s :: later →
          ∀ name p body, Within (.call name p body) (lowered c.modelData s) →
            ∃ args block, Within (.call name (.parameters args) block) s ∧
              .call name p body = lowered c.modelData (.call name (.parameters args) block) ∧
              ∀ (i : Nat) a x path, args[i]? = some a → modelRequest? a = some (x, path) →
                p.parameterList[i]? = some (.named x (.var [variableName name x])) ∧
                ∃ q, lastAsked s (variableName name x) = some q ∧
                  (∀ d, LastLoad (variableName name x) d
                      (earlier.flatMap (emitted c.modelData) ++ loadsOf c.modelData (asked s)) ↔
                    c.viewModel q = .ok d) ∧
                  ((∀ other, AsksFor s (variableName name x) other → other = path) → q = path) := by
  obtain ⟨out, after, run, top⟩ := Pass.staticModel_run (wellBuilt_of_parse parsed) exist site m
  have part := isPart_of_parse parsed
  refine ⟨out, after, run, fun decisions => ⟨trace_lowered part top decisions, ?_⟩⟩
  intro earlier s later split name p body within
  have started : s ∈ trace n decisions := by simp [split]
  have inside : s ∈ n.preorder := mem_preorder_of_mem_trace started
  obtain ⟨args, block, within, same⟩ :=
    exists_of_within_lowered ((wellBuilt_of_parse parsed).part inside) within
  refine ⟨args, block, within, same, fun i a x path place asks => ⟨?_, ?_⟩⟩
  · rw [lowered] at same
    obtain ⟨-, rfl, -⟩ := Node.call.inj same
    exact getElem?_of_modelRequest? place asks
  · have asked : AsksFor s (variableName name x) path :=
      ⟨name, _, block, within, a, List.mem_of_getElem? place, x, asks, rfl⟩
    obtain ⟨q, last⟩ := exists_lastAsked asked
    have model := AsksFor.of_lastAsked last
    have found := Content.viewModel_eq_modelData (exist q (paths_subset inside model.mem_paths))
    refine ⟨q, last, fun d => ?_, fun alone => alone q model⟩
    rw [lastLoad_iff last, found, Except.ok.injEq]

/-! ### Two models for one macro -/

namespace NavigationModels

open ModelLoading Execution

def content : Content :=
  ((Store.empty.addViewModel "a.json" (.bool true)).addViewModel "b.json" (.bool false)).content

/-- The variable for the model of each call. -/
def held : String := "nav_model_data"

def navigation (model : Node) : Node := .call "nav" (.parameters [.named "model" model]) []

def menu (model : Node) : Node := .output [navigation model]

def menus (first second : Node) : Node :=
  .output [.expression [navigation first, .operator "~", navigation second]]

def choice (body : List Node) : Node := .branch (.var ["x"]) body []

/-- A call, and another one in a body. -/
def nested : Node := .list [menu (.string "a.json"), choice [menu (.string "b.json")]]

/-- A run that takes the branch. -/
def branching : List Decision := [.next, .next, .enter 0, .next]

theorem parse_nested : Template.parse ("\x7b\x7b nav(model='a.json') \x7d\x7d\x7b% if x %\x7d" ++
    "\x7b\x7b nav(model='b.json') \x7d\x7d\x7b% endif %\x7d") = .ok nested := by
  rw [Template.parse_eq]
  cbv

theorem viewModels_of_nested : ∀ path ∈ paths nested, ∃ d, content.viewModel path = .ok d := by
  have listed : paths nested = ["a.json", "b.json"] := by decide
  rw [listed]
  exact List.forall_mem_cons.mpr ⟨⟨_, rfl⟩, List.forall_mem_singleton.mpr ⟨_, rfl⟩⟩

/-- In a statement of its own the inner call receives its model. -/
theorem model_received_in_body :
    (∀ path ∈ paths nested, ∃ d, content.viewModel path = .ok d) ∧
    ∃ out after,
      (Pass.staticModel.run (some ⟨content, "base"⟩) nested).run .empty = (.ok out, after) ∧
      trace out branching = [load held (.bool true), menu (.var [held]),
        choice [load held (.bool false), menu (.var [held])],
        load held (.bool false), menu (.var [held])] ∧
      LastLoad held (.bool false) [load held (.bool true), menu (.var [held]),
        choice [load held (.bool false), menu (.var [held])], load held (.bool false)] := by
  obtain ⟨out, after, run, runs⟩ :=
    Template.argument_receives_last_model parse_nested viewModels_of_nested "base" .empty
  obtain ⟨traced, calls⟩ := runs branching
  have started : trace nested branching = [menu (.string "a.json"),
      choice [menu (.string "b.json")]] ++ menu (.string "b.json") :: [] := rfl
  have inside : Within (navigation (.var [held]))
      (lowered content.modelData (menu (.string "b.json"))) := .outside List.mem_cons_self .self
  obtain ⟨args, block, within, -, arguments⟩ := calls _ _ _ started _ _ _ inside
  obtain ⟨rfl, -⟩ : args = [.named "model" (.string "b.json")] ∧ block = [] := by
    simpa [menu, navigation, named, string, preorder, preorderAll] using within.mem_preorder
  obtain ⟨-, q, last, data, -⟩ := arguments 0 _ "model" "b.json" rfl rfl
  obtain rfl : "b.json" = q := Option.some.inj last
  refine ⟨viewModels_of_nested, out, after, run, ?_, (data (.bool false)).mpr rfl⟩
  rw [traced, started]
  rfl

/-- Two calls in one statement pass the same variable, and the last load for it has the model of the
second call. The first call does not receive the model that it names. -/
theorem models_of_calls_in_one_statement :
    Template.parse "\x7b\x7b nav(model='a.json') ~ nav(model='b.json') \x7d\x7d" =
      .ok (.list [menus (.string "a.json") (.string "b.json")]) ∧
    content.viewModel "a.json" = .ok (.bool true) ∧ content.viewModel "b.json" = .ok (.bool false) ∧
    ∃ out after, (Pass.staticModel.run (some ⟨content, "base"⟩)
        (.list [menus (.string "a.json") (.string "b.json")])).run .empty = (.ok out, after) ∧
      trace out [.next] = [load held (.bool true), load held (.bool false),
        menus (.var [held]) (.var [held])] ∧
      LastLoad held (.bool false) [load held (.bool true), load held (.bool false)] ∧
      ¬LastLoad held (.bool true) [load held (.bool true), load held (.bool false)] := by
  have last : LastLoad held (.bool false) [load held (.bool true), load held (.bool false)] :=
    ⟨[load held (.bool true)], [], rfl, by simp⟩
  refine ⟨?_, rfl, rfl, _, _, rfl, rfl, last, fun first => ?_⟩
  · rw [Template.parse_eq]
    cbv
  · cases first.unique last

end NavigationModels
end TagCompiler
