import Packrat.Proofs.Assembled
import Packrat.Proofs.WellFormed

/-!
# Rules are made of earlier rules

Whatever a rule names at once is an earlier rule, so a grammar can only be cyclic through its deferred
alternatives, and whatever it names later exists (`Grammar.Layered`). The operations of assembly keep this
and leave alone what has been found so far (`Workspace.Enlarges`); an operation that is refused leaves
everything as it was.
-/

namespace Packrat

variable {V : Type}

/-! ## Layers -/

/-- The rule of an alternative that is there from the start. -/
def Alternative.ready? : Alternative → Option RuleId
  | .ready r => some r
  | .deferred _ => none

/-- The rules that a body names at once. -/
def Body.eager : Body → List RuleId
  | .literal _ | .predicate _ _ => []
  | .sequence rules => rules
  | .choice alternatives => alternatives.filterMap Alternative.ready?
  | .star item | .plus item | .option item | .and item | .not item => [item]

theorem Body.mem_eager_of_operand? {b : Body} {i : RuleId} (h : b.operand? = some i) : i ∈ b.eager := by
  cases b with
  | star | plus | option | and | not =>
      cases h
      exact List.mem_singleton_self _
  | literal | predicate | sequence | choice => cases h

namespace Grammar

/-- A body that can be added to the grammar: the rules and slots that it names exist. -/
structure Admits (g : Grammar V) (b : Body) : Prop where
  rules : ∀ i ∈ b.eager, i ≤ g.rules.size
  slots : ∀ slot, .deferred slot ∈ b.alternatives → slot < g.ruleSlots.size

/-- Rules name earlier rules, and the slots and rules that are named for later use exist. -/
structure Layered (g : Grammar V) : Prop where
  earlier : ∀ r, ∀ i ∈ (g.body r).eager, i < r
  slots : ∀ r slot, .deferred slot ∈ (g.body r).alternatives → slot < g.ruleSlots.size
  sources : ∀ slot r, g.ruleSource slot = .rule r → r ≤ g.rules.size
  forwards : ∀ f r, (g.ruleForward f).definition = some r → r ≤ g.rules.size

variable {g : Grammar V}

namespace Layered

theorem empty : (Grammar.empty : Grammar V).Layered := by
  have hbody : ∀ r, (Grammar.empty : Grammar V).body r = .choice [] := fun r => by
    cases r <;> simp [Grammar.empty, body]
  refine ⟨fun r i h => ?_, fun r slot h => ?_, fun slot r h => ?_, fun f r h => ?_⟩
  · simp [hbody, Body.eager] at h
  · simp [hbody, Body.alternatives] at h
  · cases h
    exact Nat.le_refl _
  · simp [Grammar.empty, ruleForward, Forward.declare] at h

theorem pushRule {b : Body} (h : g.Layered) (hb : g.Admits b) :
    Layered { g with rules := g.rules.push b } := by
  have hsize : (g.rules.push b).size = g.rules.size + 1 := Array.size_push ..
  -- every body is an old one, the new one or that of a number that names no rule
  have hbody : ∀ r, Grammar.body { g with rules := g.rules.push b } r = g.body r ∨
      r = g.rules.size + 1 ∧ Grammar.body { g with rules := g.rules.push b } r = b := by
    intro r
    rcases Nat.lt_trichotomy r (g.rules.size + 1) with hr | rfl | hr
    · exact .inl (extends_rule.body r (Nat.le_of_lt_succ hr))
    · exact .inr ⟨rfl, hsize ▸ body_push⟩
    · left
      rw [body_of_size_lt (g := { g with rules := g.rules.push b }) (hsize.symm ▸ hr),
        body_of_size_lt (Nat.lt_of_succ_lt hr)]
  refine ⟨fun r i hi => ?_, fun r slot hs => ?_, fun slot r hr => ?_, fun f r hr => ?_⟩
  · rcases hbody r with he | ⟨rfl, he⟩
    · exact h.earlier r i (he ▸ hi)
    · exact Nat.lt_succ_of_le (hb.rules i (he ▸ hi))
  · rcases hbody r with he | ⟨-, he⟩
    · exact h.slots r slot (he ▸ hs)
    · exact hb.slots slot (he ▸ hs)
  · exact hsize ▸ Nat.le_succ_of_le (h.sources slot r hr)
  · exact hsize ▸ Nat.le_succ_of_le (h.forwards f r hr)

theorem pushRuleSlot {slot : Slot RuleSource} (h : g.Layered)
    (hs : ∀ r, slot.source = .rule r → r ≤ g.rules.size) :
    Layered { g with ruleSlots := g.ruleSlots.push slot } := by
  refine ⟨h.earlier, fun r k hk => ?_, fun k r hr => ?_, h.forwards⟩
  · exact Nat.lt_of_lt_of_le (h.slots r k hk) (by simp)
  · rw [ruleSource_push] at hr
    split at hr
    · exact hs r hr
    · exact h.sources k r hr

theorem pushParserSlot {slot : Slot (ParserSource V)} (h : g.Layered) :
    Layered { g with parserSlots := g.parserSlots.push slot } :=
  ⟨h.earlier, h.slots, h.sources, h.forwards⟩

theorem pushRuleForward {name : String} (h : g.Layered) :
    Layered { g with ruleForwards := g.ruleForwards.push (.declare name) } :=
  ⟨h.earlier, h.slots, h.sources, fun f r hr => h.forwards f r (definition_push.symm.trans hr)⟩

theorem setRuleForward {f : Nat} {name : String} {r : RuleId} (h : g.Layered) (hr : r ≤ g.rules.size) :
    Layered { g with ruleForwards := g.ruleForwards.setIfInBounds f ⟨name, some r⟩ } := by
  refine ⟨h.earlier, h.slots, h.sources, fun k r' hr' => ?_⟩
  rcases definition_of_set hr' with hold | rfl
  · exact h.forwards k r' hold
  · exact hr

theorem setParserForwards {forwards : Array (Forward (Parser V))} (h : g.Layered) :
    Layered { g with parserForwards := forwards } := ⟨h.earlier, h.slots, h.sources, h.forwards⟩

end Layered

end Grammar

/-! ## Operations of assembly -/

/-- The workspace `w'` comes from `w` by additions to a layered grammar. -/
structure Workspace.Enlarges (w w' : Workspace V) : Prop where
  bindings : w'.bindings = w.bindings
  grows : w.grammar.Extends w'.grammar
  layered : w'.grammar.Layered

namespace Workspace.Enlarges

variable {w w' w'' : Workspace V}

protected theorem refl (h : w.grammar.Layered) : w.Enlarges w := ⟨rfl, .refl, h⟩

protected theorem trans (h : w.Enlarges w') (h' : w'.Enlarges w'') : w.Enlarges w'' :=
  ⟨h'.bindings.trans h.bindings, h.grows.trans h'.grows, h'.layered⟩

end Workspace.Enlarges

namespace Assembly

variable {w : Workspace V} {known : List (Parser V)}

/-! ### Rules -/

theorem node_enlarges {b : Body} (h : w.grammar.Layered) (hb : w.grammar.Admits b) :
    Ensures (node b) w (fun r w' => w.Enlarges w' ∧ r ≤ w'.grammar.rules.size ∧ w'.grammar.body r = b)
      fun _ _ => False :=
  .done rfl ⟨⟨rfl, Grammar.extends_rule, h.pushRule hb⟩, Nat.le_refl _, Grammar.body_push⟩

theorem admits_of_operand? {g : Grammar V} {b : Body} {i : RuleId} (hb : b.operand? = some i)
    (hi : i ≤ g.rules.size) : g.Admits b := by
  cases b with
  | star | plus | option | and | not =>
      cases hb
      exact ⟨List.forall_mem_singleton.mpr hi, fun _ hs => nomatch hs⟩
  | literal | predicate | sequence | choice => cases hb

theorem mem_parts {b : Body} {r i : RuleId} (h : i ∈ b.parts r) : i = r ∨ i ∈ b.eager := by
  cases b with
  | sequence rules => exact .inr h
  | _ => exact .inl (List.mem_singleton.mp h)

theorem flatten_admits {rules : List RuleId} (h : w.grammar.Layered)
    (hr : ∀ r ∈ rules, r ≤ w.grammar.rules.size) :
    w.grammar.Admits (.sequence (flatten w.grammar rules)) := by
  refine ⟨fun i hi => ?_, fun _ hs => nomatch hs⟩
  obtain ⟨r, hmem, hi⟩ := List.mem_flatMap.mp hi
  rcases mem_parts hi with rfl | hi
  · exact hr _ hmem
  · exact Nat.le_of_lt (Nat.lt_of_lt_of_le (h.earlier r i hi) (hr r hmem))

theorem andThen_enlarges {a b : RuleId} (h : w.grammar.Layered) (ha : a ≤ w.grammar.rules.size)
    (hb : b ≤ w.grammar.rules.size) :
    Ensures (andThen a b) w (fun _ w' => w.Enlarges w') fun _ _ => False := by
  have hab := flatten_admits h (List.forall_mem_cons.mpr ⟨ha, List.forall_mem_singleton.mpr hb⟩)
  exact .get ((node_enlarges h hab).imp_left fun _ _ hw => hw.1)

theorem sequence_enlarges {rules : List RuleId} (h : w.grammar.Layered)
    (hr : ∀ r ∈ rules, r ≤ w.grammar.rules.size) :
    Ensures (sequence rules) w (fun _ w' => w.Enlarges w') fun _ w' => w' = w := by
  have hrules := flatten_admits h hr
  apply Ensures.get
  cases hf : flatten w.grammar rules with
  | nil => exact .throw rfl
  | cons r rest =>
      exact ((node_enlarges h (hf ▸ hrules)).imp_left fun _ _ hw => hw.1).of_no_error

theorem choice_enlarges {alternatives : List Alternative} (h : w.grammar.Layered)
    (ha : w.grammar.Admits (.choice alternatives)) :
    Ensures (choice alternatives) w (fun r w' => w.Enlarges w' ∧ r ≤ w'.grammar.rules.size ∧
      w'.grammar.body r = .choice alternatives) fun _ w' => w' = w ∧ alternatives = [] := by
  cases alternatives with
  | nil => exact .throw ⟨rfl, rfl⟩
  | cons a rest => exact (node_enlarges h ha).of_no_error

/-! ### Slots and forward declarations -/

theorem ruleSlot_enlarges {slot : Slot RuleSource} (h : w.grammar.Layered)
    (hs : ∀ r, slot.source = .rule r → r ≤ w.grammar.rules.size) :
    Ensures (ruleSlot slot) w (fun a w' => w.Enlarges w' ∧ ∃ k, a = .deferred k ∧
      k < w'.grammar.ruleSlots.size ∧ w'.grammar.ruleSource k = slot.source) fun _ _ => False := by
  refine .done rfl ⟨⟨rfl, Grammar.extends_ruleSlot, h.pushRuleSlot hs⟩, _, rfl, by simp, ?_⟩
  rw [Grammar.ruleSource_push, if_pos rfl]

theorem parserSlot_enlarges {slot : Slot (ParserSource V)} (h : w.grammar.Layered) :
    Ensures (parserSlot slot) w (fun _ w' => w.Enlarges w') fun _ _ => False :=
  .done rfl ⟨rfl, Grammar.extends_parserSlot, h.pushParserSlot⟩

theorem declareRule_enlarges {name : String} (h : w.grammar.Layered) :
    Ensures (declareRule name) w (fun _ w' => w.Enlarges w') fun _ _ => False :=
  .done rfl ⟨rfl, Grammar.extends_ruleForward, h.pushRuleForward⟩

theorem declareParser_enlarges {name : String} (h : w.grammar.Layered) :
    Ensures (declareParser name) w (fun _ w' => w.Enlarges w') fun _ _ => False :=
  .done rfl ⟨rfl, Grammar.extends_parserForward, h.setParserForwards⟩

/-- A forward declaration that is defined refuses another definition. -/
theorem defineRule_refused {f : Nat} {r r' : RuleId} (hf : (w.grammar.ruleForward f).definition = some r) :
    defineRule f r' w = .error (.alreadyDefined (w.grammar.ruleForward f).name) w := by
  have hdefined : (w.grammar.ruleForward f).isDefined = true := by simp [Forward.isDefined, hf]
  unfold defineRule
  rw [get_bind]
  simp only [hdefined, if_true]
  rfl

theorem defineParser_refused {f : Nat} {p p' : Parser V}
    (hf : (w.grammar.parserForward f).definition = some p) :
    defineParser f p' w = .error (.alreadyDefined (w.grammar.parserForward f).name) w := by
  have hdefined : (w.grammar.parserForward f).isDefined = true := by simp [Forward.isDefined, hf]
  unfold defineParser
  rw [get_bind]
  simp only [hdefined, if_true]
  rfl

theorem defineRule_of_none {f : Nat} {r : RuleId} (hf : (w.grammar.ruleForward f).definition = none) :
    defineRule f r w = .ok () { w with
      grammar := { w.grammar with
        ruleForwards :=
          w.grammar.ruleForwards.setIfInBounds f ⟨(w.grammar.ruleForward f).name, some r⟩ } } := by
  have hdefined : (w.grammar.ruleForward f).isDefined = false := by simp [Forward.isDefined, hf]
  unfold defineRule
  rw [get_bind]
  simp only [hdefined]
  rfl

theorem defineParser_of_none {f : Nat} {p : Parser V}
    (hf : (w.grammar.parserForward f).definition = none) :
    defineParser f p w = .ok () { w with
      grammar := { w.grammar with
        parserForwards :=
          w.grammar.parserForwards.setIfInBounds f ⟨(w.grammar.parserForward f).name, some p⟩ } } := by
  have hdefined : (w.grammar.parserForward f).isDefined = false := by simp [Forward.isDefined, hf]
  unfold defineParser
  rw [get_bind]
  simp only [hdefined]
  rfl

theorem defineRule_enlarges {f : Nat} {r : RuleId} (h : w.grammar.Layered)
    (hr : r ≤ w.grammar.rules.size) :
    Ensures (defineRule f r) w (fun _ w' => w.Enlarges w') fun _ w' => w' = w := by
  cases hf : (w.grammar.ruleForward f).definition with
  | some r' => exact .fail (defineRule_refused hf) rfl
  | none =>
      exact .done (defineRule_of_none hf) ⟨rfl, Grammar.extends_defineRule hf, h.setRuleForward hr⟩

theorem defineParser_enlarges {f : Nat} {p : Parser V} (h : w.grammar.Layered) :
    Ensures (defineParser f p) w (fun _ w' => w.Enlarges w') fun _ w' => w' = w := by
  cases hf : (w.grammar.parserForward f).definition with
  | some p' => exact .fail (defineParser_refused hf) rfl
  | none =>
      exact .done (defineParser_of_none hf) ⟨rfl, Grammar.extends_defineParser hf, h.setParserForwards⟩

end Assembly

end Packrat
