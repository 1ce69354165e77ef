import TagCompiler.Node.Json
/-!
# Trees written as data and read back

Writing a tree as data loses nothing: whatever its shape, reading the data gives the tree again. The
written form of what was read from any value is therefore a full form of that value, with the fields
that were missing filled in and those that no tree has left out. A single field is found without
writing the tree, and it is the member of the written form.
-/

namespace TagCompiler

theorem LiteralKind.ofTag?_tag (kind : LiteralKind) : ofTag? kind.tag = some kind := by
  cases kind <;> rfl

theorem AssignOp.ofTag?_tag (op : AssignOp) : ofTag? op.tag = some op := by
  cases op <;> rfl

theorem Value.asStrings?_map_string (ss : List String) :
    asStrings? (.array (ss.map .string)) = some ss := by
  induction ss with
  | nil => rfl
  | cons s ss ih =>
    simp only [asStrings?, List.map_cons, List.mapM_cons] at ih ⊢
    rw [ih]
    rfl

namespace Node

/-! ### Reading a field -/

theorem nodeField?_eq (ms : Members) (k : String) :
    nodeField? ms k = (ms.lookup k).bind ofValue? := by
  rw [nodeField?, ← Value.map_val_find?]
  cases Value.find? k ms <;> rfl

theorem nodesField?_of_lookup {ms : Members} {k : String} (vs : List Value)
    (h : ms.lookup k = some (.array vs)) : nodesField? ms k = ofValues? vs := by
  rw [← Value.map_val_find?, Option.map_eq_some_iff] at h
  obtain ⟨⟨v, small⟩, found, rfl⟩ := h
  rw [nodesField?, found]

theorem optionalString?_of_lookup {ms : Members} {k : String} {s : Option String}
    (h : ms.lookup k = some (.ofString? s)) : optionalString? ms k = some s := by
  rw [optionalString?, h]
  cases s <;> rfl

/-- A written tree is never taken for the null that stands for no tree. -/
theorem exists_members_toValue (n : Node) : ∃ ms, n.toValue = .object ms := by
  cases n with
  | parameter name value => cases value <;> exact ⟨_, by rw [toValue]⟩
  | _ => exact ⟨_, by rw [toValue]⟩

/-! ### Reading a written tree -/

mutual

theorem ofValue?_toValue : (n : Node) → ofValue? n.toValue = some n
  | .data _ | .text _ | .operator _ | .connective _ | .yield => by
    rw [toValue, ofValue?]
    rfl
  | .literal _ kind => by
    rw [toValue, ofValue?]
    simp [string?, List.lookup_cons, Value.asString?, kind.ofTag?_tag]
  | .var path => by
    rw [toValue, ofValue?]
    simp [string?, List.lookup_cons, Value.asString?, Value.asStrings?_map_string]
  | .parameter name none => by
    rw [toValue, ofValue?]
    simp [string?, List.lookup_cons, Value.asString?, Value.find?,
      optionalString?_of_lookup (s := name)]
  | .parameter name (some v) => by
    have value := v.ofValue?_toValue
    obtain ⟨ms, written⟩ := v.exists_members_toValue
    rw [written] at value
    rw [toValue, ofValue?, written]
    simp [string?, List.lookup_cons, Value.asString?, Value.find?,
      optionalString?_of_lookup (s := name), value]
  | .parameters cs | .array cs | .condition cs | .expression cs | .group cs | .output cs
  | .list cs => by
    have children := ofValues?_toValues cs
    rw [toValue, ofValue?]
    simp [string?, List.lookup_cons, Value.asString?, nodesField?_of_lookup (toValues cs), children]
  | .call _ p body => by
    have arguments := p.ofValue?_toValue
    have children := ofValues?_toValues body
    rw [toValue, ofValue?]
    simp [string?, List.lookup_cons, Value.asString?, nodesField?_of_lookup (toValues body),
      nodeField?_eq, arguments, children]
  | .macroDef _ p body doc => by
    have parameters := p.ofValue?_toValue
    have children := ofValues?_toValues body
    rw [toValue, ofValue?]
    simp [string?, List.lookup_cons, Value.asString?, nodesField?_of_lookup (toValues body),
      nodeField?_eq, optionalString?_of_lookup (s := doc), parameters, children]
  | .assign target value op => by
    have target := target.ofValue?_toValue
    have value := value.ofValue?_toValue
    rw [toValue, ofValue?]
    simp [string?, List.lookup_cons, Value.asString?, op.ofTag?_tag, nodeField?_eq, target, value]
  | .branch c yes no => by
    have condition := c.ofValue?_toValue
    have children := ofValues?_toValues yes
    have otherChildren := ofValues?_toValues no
    rw [toValue, ofValue?]
    simp [string?, List.lookup_cons, Value.asString?, nodesField?_of_lookup (toValues yes),
      nodesField?_of_lookup (toValues no), nodeField?_eq, condition, children, otherChildren]
  | .loop key _ source body => by
    have value := source.ofValue?_toValue
    have children := ofValues?_toValues body
    rw [toValue, ofValue?]
    simp [string?, List.lookup_cons, Value.asString?, nodesField?_of_lookup (toValues body),
      nodeField?_eq, optionalString?_of_lookup (s := key), value, children]
  | .filter _ subject p => by
    have value := subject.ofValue?_toValue
    have parameters := p.ofValue?_toValue
    rw [toValue, ofValue?]
    simp [string?, List.lookup_cons, Value.asString?, nodeField?_eq, value, parameters]

theorem ofValues?_toValues : (ns : List Node) → ofValues? (toValues ns) = some ns
  | [] => by rw [toValues, ofValues?]
  | n :: ns => by
    have first := n.ofValue?_toValue
    have others := ofValues?_toValues ns
    rw [toValues, ofValues?, first, others]
    rfl

end

/-! ### Single fields -/

theorem field?_eq_member? (name : String) (n : Node) : n.field? name = n.toValue.member? name := by
  unfold field?
  split <;> rfl

/-- Reading undoes writing, for any tree and for any tree that was read from a value, and a field of
a tree is a member of its written form. -/
theorem written_tree_reads_back :
    (∀ n : Node, ofValue? n.toValue = some n) ∧
    (∀ (v : Value) (n : Node), ofValue? v = some n → ofValue? n.toValue = some n) ∧
    ∀ (n : Node) (name : String), n.field? name = n.toValue.member? name :=
  ⟨ofValue?_toValue, fun _ n _ => n.ofValue?_toValue, fun n name => n.field?_eq_member? name⟩

/-- An assignment to no variable, without its operator and with a member that is no field, of a
parameter that has a null for its name and no value at all. -/
def sparseAssignment : Value :=
  .object [("note", .bool true), ("type", .string "SetNode"),
    ("value", .object [("name", .null), ("type", .string "ParameterNode")]),
    ("variable", .object [("type", .string "ValueNode"), ("value", .null)])]

theorem sparse_value_reads_back :
    ofValue? sparseAssignment = some (.assign (.data .null) (.parameter none none) .set) ∧
      ofValue? (toValue (.assign (.data .null) (.parameter none none) .set)) =
        some (.assign (.data .null) (.parameter none none) .set) := by
  have read : ofValue? sparseAssignment =
      some (.assign (.data .null) (.parameter none none) .set) := by
    simp [sparseAssignment, ofValue?, nodeField?_eq, string?, optionalString?, List.lookup_cons,
      Value.asString?, Value.find?]
  exact ⟨read, written_tree_reads_back.2.1 sparseAssignment _ read⟩

end Node
end TagCompiler
