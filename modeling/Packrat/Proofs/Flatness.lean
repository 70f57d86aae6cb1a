import Packrat.Proofs.Scenes

/-!
# Grammars stay flat

No sequence is part of another one and none is empty, nor is any choice (`Grammar.Flat`), whatever is built
and in whatever order (`Scene.Reached.flat`). Putting sequences together looks only one level deep, so each
operation relies on what the others have left.
-/

namespace Packrat

variable {V : Type}

/-! ## Flat grammars -/

namespace Grammar

/-- A sequence has children, which the grammar holds and which are no sequences; a choice has
alternatives. -/
def Flattened (g : Grammar V) : Body → Prop
  | .sequence children => children ≠ [] ∧ ∀ c ∈ children, c ≤ g.rules.size ∧ g.kind c ≠ .sequence
  | .choice alternatives => alternatives ≠ []
  | _ => True

/-- Every rule has a flattened body. -/
def Flat (g : Grammar V) : Prop := ∀ r, 0 < r → r ≤ g.rules.size → g.Flattened (g.body r)

variable {g g' : Grammar V} {b : Body} {r : RuleId} {rules : List RuleId}

theorem Flattened.extend (h : g.Flattened b) (he : g.Extends g') : g'.Flattened b := by
  cases b with
  | sequence children =>
      obtain ⟨hne, hall⟩ := h
      refine ⟨hne, fun c hc => ?_⟩
      obtain ⟨hle, hkind⟩ := hall c hc
      refine ⟨Nat.le_trans hle he.rules, ?_⟩
      rwa [kind, he.body c hle]
  | choice => exact h
  | _ => trivial

namespace Flat

theorem empty : (Grammar.empty : Grammar V).Flat := fun _ hpos hle => absurd hpos (Nat.not_lt.mpr hle)

theorem of_rules (h : g.Flat) (hrules : g'.rules = g.rules) : g'.Flat := by
  obtain ⟨rules, _, _, _, _⟩ := g'
  cases hrules
  exact h

theorem pushRule (h : g.Flat) (hb : g.Flattened b) : Flat { g with rules := g.rules.push b } := by
  intro r hpos hle
  have he : g.Extends { g with rules := g.rules.push b } := extends_rule
  rw [Array.size_push] at hle
  -- the rule is an old one, whose body has stayed, or the new one
  rcases Nat.lt_or_eq_of_le hle with hlt | rfl
  · have hold := Nat.le_of_lt_succ hlt
    rw [he.body r hold]
    exact (h r hpos hold).extend he
  · have hnew : Grammar.body { g with rules := g.rules.push b } (g.rules.size + 1) = b := by
      rw [← Array.size_push b]
      exact body_push
    rw [hnew]
    exact hb.extend he

theorem parts_ne_nil (h : g.Flat) (hr : r ≤ g.rules.size) : (g.body r).parts r ≠ [] := by
  rcases Nat.eq_zero_or_pos r with rfl | hpos
  · exact List.cons_ne_nil _ _
  · have hbody := h r hpos hr
    cases hb : g.body r with
    | sequence children =>
        rw [hb] at hbody
        exact hbody.1
    | _ => exact List.cons_ne_nil _ _

theorem mem_parts (h : g.Flat) (hr : r ≤ g.rules.size) :
    ∀ c ∈ (g.body r).parts r, c ≤ g.rules.size ∧ g.kind c ≠ .sequence := by
  rcases Nat.eq_zero_or_pos r with rfl | hpos
  · exact List.forall_mem_singleton.mpr ⟨hr, nofun⟩
  · have hbody := h r hpos hr
    cases hb : g.body r with
    | sequence children =>
        rw [hb] at hbody
        exact hbody.2
    | _ => exact List.forall_mem_singleton.mpr ⟨hr, by simp [kind, hb, Body.kind]⟩

theorem flatten_eq_nil_iff (h : g.Flat) (hr : ∀ r ∈ rules, r ≤ g.rules.size) :
    Assembly.flatten g rules = [] ↔ rules = [] := by
  constructor
  · intro hf
    cases rules with
    | nil => rfl
    | cons r rest =>
        have hparts := List.flatMap_eq_nil_iff.mp hf r List.mem_cons_self
        exact absurd hparts (h.parts_ne_nil (hr r List.mem_cons_self))
  · rintro rfl
    rfl

theorem flattened (h : g.Flat) (hr : ∀ r ∈ rules, r ≤ g.rules.size) (hne : rules ≠ []) :
    g.Flattened (.sequence (Assembly.flatten g rules)) := by
  refine ⟨(h.flatten_eq_nil_iff hr).not.mpr hne, fun c hc => ?_⟩
  obtain ⟨r, hmem, hc⟩ := List.mem_flatMap.mp hc
  exact h.mem_parts (hr r hmem) c hc

end Flat

end Grammar

/-! ## Operations of assembly -/

namespace Assembly

variable {α β : Type} {w : Workspace V} {rules : List RuleId}

/-- From a flat grammar the operation goes to a flat one, whether or not it is refused. -/
def KeepsFlat (act : Assembly V α) : Prop :=
  ∀ w, w.grammar.Flat → Ensures act w (fun _ w' => w'.grammar.Flat) fun _ w' => w'.grammar.Flat

theorem flat_after {act : Assembly V α}
    (h : Ensures act w (fun _ w' => w'.grammar.Flat) fun _ w' => w'.grammar.Flat) :
    (stateAfter act w).grammar.Flat := h.stateAfter (P := fun w : Workspace V => w.grammar.Flat)

theorem node_flat {b : Body} (h : w.grammar.Flat) (hb : w.grammar.Flattened b) :
    Ensures (node b) w (fun _ w' => w'.grammar.Flat) fun _ w' => w'.grammar.Flat :=
  .done rfl (h.pushRule hb)

theorem andThen_flat {a b : RuleId} (h : w.grammar.Flat) (ha : a ≤ w.grammar.rules.size)
    (hb : b ≤ w.grammar.rules.size) :
    Ensures (andThen a b) w (fun _ w' => w'.grammar.Flat) fun _ w' => w'.grammar.Flat := by
  have hab : ∀ r ∈ [a, b], r ≤ w.grammar.rules.size :=
    List.forall_mem_cons.mpr ⟨ha, List.forall_mem_singleton.mpr hb⟩
  exact .get (node_flat h (h.flattened hab (List.cons_ne_nil _ _)))

theorem sequence_nil : sequence [] w = .error .emptySequence w := rfl

theorem sequence_eq_node (h : w.grammar.Flat) (hr : ∀ r ∈ rules, r ≤ w.grammar.rules.size)
    (hne : rules ≠ []) : sequence rules w = node (.sequence (flatten w.grammar rules)) w := by
  have hflatten := (h.flatten_eq_nil_iff hr).not.mpr hne
  unfold sequence
  rw [get_bind]
  cases hf : flatten w.grammar rules with
  | nil => exact absurd hf hflatten
  | cons => rfl

theorem sequence_flat (h : w.grammar.Flat) (hr : ∀ r ∈ rules, r ≤ w.grammar.rules.size) :
    Ensures (sequence rules) w (fun _ w' => w'.grammar.Flat) fun _ w' => w'.grammar.Flat := by
  by_cases hne : rules = []
  · subst hne
    exact .fail sequence_nil h
  · exact .done (sequence_eq_node h hr hne) (h.pushRule (h.flattened hr hne))

namespace KeepsFlat

protected theorem pure {a : α} : KeepsFlat (pure a : Assembly V α) := fun _ h => .pure h

protected theorem bind {act : Assembly V α} {f : α → Assembly V β} (h : KeepsFlat act)
    (hf : ∀ a, KeepsFlat (f a)) : KeepsFlat (act >>= f) :=
  fun w hw => (h w hw).bind fun a mid hmid => hf a mid hmid

protected theorem mapM {f : β → Assembly V α} {xs : List β} (h : ∀ x, KeepsFlat (f x)) :
    KeepsFlat (xs.mapM f) :=
  mapM_of_bind (P := fun _ act => KeepsFlat act) (fun _ => .pure) .bind fun x _ => h x

theorem node {b : Body} (hb : ∀ g : Grammar V, g.Flattened b) : KeepsFlat (V := V) (node b) :=
  fun _ h => node_flat h (hb _)

theorem choice {alternatives : List Alternative} : KeepsFlat (V := V) (choice alternatives) := by
  intro w h
  cases alternatives with
  | nil => exact .fail rfl h
  | cons a rest => exact node_flat h (List.cons_ne_nil _ _)

theorem ruleSlot {slot : Slot RuleSource} : KeepsFlat (V := V) (ruleSlot slot) :=
  fun _ h => .done rfl (h.of_rules rfl)

theorem parserSlot {slot : Slot (ParserSource V)} : KeepsFlat (parserSlot slot) :=
  fun _ h => .done rfl (h.of_rules rfl)

theorem declareRule {name : String} : KeepsFlat (V := V) (declareRule name) :=
  fun _ h => .done rfl (h.of_rules rfl)

theorem declareParser {name : String} : KeepsFlat (V := V) (declareParser name) :=
  fun _ h => .done rfl (h.of_rules rfl)

theorem defineRule {f : Nat} {r : RuleId} : KeepsFlat (V := V) (defineRule f r) := by
  intro w h
  cases hf : (w.grammar.ruleForward f).definition with
  | some => exact .fail (defineRule_refused hf) h
  | none => exact .done (defineRule_of_none hf) (h.of_rules rfl)

theorem defineParser {f : Nat} {p : Parser V} : KeepsFlat (defineParser f p) := by
  intro w h
  cases hf : (w.grammar.parserForward f).definition with
  | some => exact .fail (defineParser_refused hf) h
  | none => exact .done (defineParser_of_none hf) (h.of_rules rfl)

theorem character {d test} {embed : Char → V} : KeepsFlat (character d test embed) :=
  .bind (.node fun _ => trivial) fun _ => .pure

theorem characters {d test} {embed : List Char → V} : KeepsFlat (characters d test embed) :=
  .bind (.node fun _ => trivial) fun _ => .bind (.node fun _ => trivial) fun _ => .pure

theorem starParser {item : Parser V} {collect} : KeepsFlat (starParser item collect) :=
  .bind (.node fun _ => trivial) fun _ => .pure

theorem plusParser {item : Parser V} {collect} : KeepsFlat (plusParser item collect) :=
  .bind (.node fun _ => trivial) fun _ => .pure

theorem optionParser {item : Parser V} {embed} : KeepsFlat (optionParser item embed) :=
  .bind (.node fun _ => trivial) fun _ => .pure

theorem choose {slots : List Nat} : KeepsFlat (V := V) (choose slots) := by
  refine .bind (.mapM fun slot => ?_) fun _ => .bind .choice fun _ => .pure
  intro w h
  apply Ensures.get
  split
  · exact .pure h
  · exact KeepsFlat.ruleSlot w h

theorem deferredParser {f : Nat} : KeepsFlat (V := V) (deferredParser f) :=
  .bind .parserSlot fun _ => .bind .ruleSlot fun _ => .bind .choice fun _ => .pure

end KeepsFlat

end Assembly

namespace Scene

variable {s s' : Scene V}

theorem makes_workspace {act : Assembly V (Parser V)} :
    (s.makes act).workspace = stateAfter act s.workspace := by
  unfold makes stateAfter
  cases act s.workspace <;> rfl

theorem HasOperand.flattened {b : Body} (h : s.HasOperand b) (g : Grammar V) : g.Flattened b := by
  cases b with
  | sequence | choice => exact h.elim
  | _ => trivial

theorem Orderly.flat (h : s.Orderly) (hs : s.grammar.Flat) (ho : s.Operation s') : s'.grammar.Flat := by
  have does : ∀ {α : Type} {act : Assembly V α}, Assembly.KeepsFlat act → (s.does act).grammar.Flat :=
    fun hact => Assembly.flat_after (hact _ hs)
  have makes : ∀ {act : Assembly V (Parser V)}, Assembly.KeepsFlat act → (s.makes act).grammar.Flat := by
    intro act hact
    rw [grammar, makes_workspace]
    exact does hact
  cases ho with
  | node hb => exact does (.node hb.flattened)
  | sequence hr =>
      exact Assembly.flat_after (Assembly.sequence_flat hs fun r hmem => (hr r hmem).2)
  | andThen ha hb => exact Assembly.flat_after (Assembly.andThen_flat hs ha.2 hb.2)
  | choice => exact does .choice
  | ruleSlot => exact does .ruleSlot
  | parserSlot => exact does .parserSlot
  | declareRule => exact does .declareRule
  | declareParser => exact does .declareParser
  | defineRule => exact does .defineRule
  | defineParser => exact does .defineParser
  | ofRule | map | spanned => exact hs
  | character => exact makes .character
  | characters => exact makes .characters
  | pair ha hb =>
      rw [grammar, makes_workspace]
      have hrule := Assembly.andThen_flat hs (h.rule_le ha) (h.rule_le hb)
      exact Assembly.flat_after (hrule.bind fun _ _ hw => .pure hw)
  | choose => exact makes .choose
  | star => exact makes .starParser
  | plus => exact makes .plusParser
  | option => exact makes .optionParser
  | deferred => exact makes .deferredParser
  | uses hu =>
      obtain ⟨hg, -⟩ := hu.looks
      exact hs.of_rules (congrArg Grammar.rules hg)

theorem Reached.flat (h : s.Reached) : s.grammar.Flat := by
  induction h with
  | refl => exact .empty
  | tail h ho ih => exact (Reached.orderly h).flat ih ho

end Scene

end Packrat
