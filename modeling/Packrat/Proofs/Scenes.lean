import Packrat.Proofs.Twins

/-!
# Scenes

A workspace with the parsers that have been built in it, and everything that can be done there: building
rules and parsers, defining forward declarations, and uses of what has been built, in any order. Whatever
is done, and whether it succeeds or not, the scene stays in order (`Scene.Reached.orderly`), it goes on
from where it was, and what is found there is found by look-ups (`Scene.History`).
-/

namespace Packrat

open Relation (ReflTransGen)

variable {V : Type}

structure Scene (V : Type) where
  workspace : Workspace V
  parsers : List (Parser V)

theorem Bindings.Within.row {g : Grammar V} {b after : Bindings V} {looks : LookUps V}
    (h : b.Within g) (hm : ∀ slot, g.Mentions slot → slot < g.ruleSlots.size)
    (hrow : g.Row b looks after) : after.Within g where
  rule slot r hr := by
    rcases (hrow.course.rules slot).resolved_or_mem hr with hb | hfound
    · exact h.rule slot r hb
    · exact hm slot (hrow.mentions _ (Look.mem_answers.mp hfound))
  parser slot p hp := by
    rcases (hrow.course.parsers slot).resolved_or_mem hp with hb | hfound
    · exact h.parser slot p hb
    · exact hrow.slot_lt _ (Look.mem_answers.mp hfound)

namespace Scene

def empty : Scene V := ⟨.empty, []⟩

abbrev grammar (s : Scene V) : Grammar V := s.workspace.grammar

abbrev bindings (s : Scene V) : Bindings V := s.workspace.bindings

/-- The scene after an operation that makes no parser, whether or not it was refused. -/
def does {α : Type} (s : Scene V) (act : Assembly V α) : Scene V :=
  ⟨stateAfter act s.workspace, s.parsers⟩

/-- The scene after an operation that makes a parser, unless it was refused. -/
def makes (s : Scene V) (act : Assembly V (Parser V)) : Scene V :=
  match act s.workspace with
  | .ok p w => ⟨w, p :: s.parsers⟩
  | .error _ w => ⟨w, s.parsers⟩

/-- The scene with a parser that shares the rule of another. -/
def gains (s : Scene V) (p : Parser V) : Scene V := ⟨s.workspace, p :: s.parsers⟩

/-! ## Operations -/

def HasRule (s : Scene V) (r : RuleId) : Prop := 0 < r ∧ r ≤ s.grammar.rules.size

instance {s : Scene V} {r : RuleId} : Decidable (s.HasRule r) := inferInstanceAs (Decidable (_ ∧ _))

def HasAlternative (s : Scene V) : Alternative → Prop
  | .ready r => s.HasRule r
  | .deferred slot => slot < s.grammar.ruleSlots.size

def HasRuleSource (s : Scene V) : RuleSource → Prop
  | .rule r => s.HasRule r
  | .forward f => f < s.grammar.ruleForwards.size
  | .parser slot => slot < s.grammar.parserSlots.size

def HasParserSource (s : Scene V) : ParserSource V → Prop
  | .ready p | .produced p => p ∈ s.parsers
  | .forward f => f < s.grammar.parserForwards.size

/-- The bodies that a rule is made of directly: terminals, and unary ones about rules of the scene. -/
def HasOperand (s : Scene V) : Body → Prop
  | .literal _ | .predicate _ _ => True
  | .sequence _ | .choice _ => False
  | .star item | .plus item | .option item | .and item | .not item => s.HasRule item

theorem HasOperand.admits {s : Scene V} {b : Body} (h : s.HasOperand b) : s.grammar.Admits b := by
  cases b with
  | literal | predicate => exact Assembly.admits_terminal rfl rfl
  | sequence | choice => exact h.elim
  | star | plus | option | and | not => exact Assembly.admits_of_operand? rfl h.2

theorem admits_choice {s : Scene V} {alternatives : List Alternative}
    (h : ∀ a ∈ alternatives, s.HasAlternative a) : s.grammar.Admits (.choice alternatives) := by
  refine ⟨fun r hr => ?_, fun slot hs => h _ hs⟩
  obtain ⟨a, ha, hready⟩ := List.mem_filterMap.mp hr
  cases a with
  | ready r' =>
      cases hready
      exact (h _ ha).2
  | deferred => cases hready

/-- One operation, which takes rules, slots, forward declarations and parsers from the scene, and what it
makes of the scene. -/
inductive Operation (s : Scene V) : Scene V → Prop
  | node {body} (h : s.HasOperand body) : Operation s (s.does (Assembly.node body))
  | sequence {rules} (h : ∀ r ∈ rules, s.HasRule r) : Operation s (s.does (Assembly.sequence rules))
  | andThen {a b} (ha : s.HasRule a) (hb : s.HasRule b) : Operation s (s.does (Assembly.andThen a b))
  | choice {alternatives} (h : ∀ a ∈ alternatives, s.HasAlternative a) :
      Operation s (s.does (Assembly.choice alternatives))
  | ruleSlot {slot} (h : s.HasRuleSource slot.source) : Operation s (s.does (Assembly.ruleSlot slot))
  | parserSlot {slot} (h : s.HasParserSource slot.source) :
      Operation s (s.does (Assembly.parserSlot slot))
  | declareRule {name} : Operation s (s.does (Assembly.declareRule name))
  | declareParser {name} : Operation s (s.does (Assembly.declareParser name))
  | defineRule {f r} (hf : f < s.grammar.ruleForwards.size) (hr : s.HasRule r) :
      Operation s (s.does (Assembly.defineRule f r))
  | defineParser {f p} (hf : f < s.grammar.parserForwards.size) (hp : p ∈ s.parsers) :
      Operation s (s.does (Assembly.defineParser f p))
  | ofRule {r v} (h : s.HasRule r) : Operation s (s.gains (Assembly.ofRule r v))
  | character {d test embed} : Operation s (s.makes (Assembly.character d test embed))
  | characters {d test embed} : Operation s (s.makes (Assembly.characters d test embed))
  | pair {a b label combine} (ha : a ∈ s.parsers) (hb : b ∈ s.parsers) :
      Operation s (s.makes (Assembly.pair a b label combine))
  | choose {slots} (h : ∀ slot ∈ slots, slot < s.grammar.parserSlots.size) :
      Operation s (s.makes (Assembly.choose slots))
  | star {item collect} (h : item ∈ s.parsers) : Operation s (s.makes (Assembly.starParser item collect))
  | plus {item collect} (h : item ∈ s.parsers) : Operation s (s.makes (Assembly.plusParser item collect))
  | option {item embed} (h : item ∈ s.parsers) : Operation s (s.makes (Assembly.optionParser item embed))
  | map {p label transform} (h : p ∈ s.parsers) : Operation s (s.gains (.map p label transform))
  | spanned {p embed} (h : p ∈ s.parsers) : Operation s (s.gains (.spanned p embed))
  | deferred {f} (h : f < s.grammar.parserForwards.size) :
      Operation s (s.makes (Assembly.deferredParser f))
  | uses {w} (h : s.workspace.Uses w) : Operation s ⟨w, s.parsers⟩

/-- The scenes that operations lead to from nothing. -/
def Reached (s : Scene V) : Prop := ReflTransGen Operation .empty s

/-- Operations one after another, with the look-ups that they make. -/
inductive History (s : Scene V) : LookUps V → Scene V → Prop
  | none : History s .empty s
  | operation {looks more mid s'} (h : History s looks mid) (ho : mid.Operation s')
      (hrow : mid.grammar.Row mid.bindings more s'.bindings) : History s (looks ++ more) s'

/-! ## What stays in order -/

/-- The workspace is assembled and its rules are made of earlier ones, and rules and parsers belong
together. -/
structure Orderly (s : Scene V) : Prop where
  assembled : Assembled s.workspace s.parsers
  layered : s.grammar.Layered
  linked : s.bindings.Linked s.grammar
  twinned : ∀ p ∈ s.parsers, p.Twinned s.grammar s.bindings

/-- After one operation the scene `s'` is in order, its grammar has grown out of that of `s`, and look-ups
have been made. -/
structure Becomes (s s' : Scene V) : Prop where
  orderly : s'.Orderly
  grows : s.grammar.Extends s'.grammar
  row : ∃ looks, s.grammar.Row s.bindings looks s'.bindings

/-- The same after any number of operations. -/
structure Follows (s s' : Scene V) : Prop where
  orderly : s'.Orderly
  grows : s.grammar.Extends s'.grammar
  history : ∃ looks, s.History looks s'

variable {s s' : Scene V}

theorem Orderly.empty : (Scene.empty : Scene V).Orderly where
  assembled := .empty
  layered := .empty
  linked slot k r hk _ := by simp [Scene.empty, Workspace.empty, Grammar.empty, Grammar.ruleSource] at hk
  twinned _ hp := absurd hp List.not_mem_nil

theorem Becomes.of_bindings (h : s'.Orderly) (hg : s.grammar.Extends s'.grammar)
    (hb : s'.bindings = s.bindings) : s.Becomes s' := ⟨h, hg, .empty, hb ▸ .none⟩

protected theorem Becomes.refl (h : s.Orderly) : s.Becomes s := .of_bindings h .refl rfl

theorem History.course {looks : LookUps V} (h : s.History looks s') :
    s.bindings.Course looks s'.bindings := by
  induction h with
  | none => exact .refl
  | operation _ _ hrow ih => exact ih.trans hrow.course

namespace Orderly

theorem rule_le (h : s.Orderly) {p : Parser V} (hp : p ∈ s.parsers) : p.rule ≤ s.grammar.rules.size :=
  (h.assembled.consistent.settled p hp).rule

/-- A slot that exists keeps its source, so additions leave it linked. -/
theorem linked_enlarge {w : Workspace V} (h : s.Orderly) (he : s.workspace.Enlarges w) :
    w.bindings.Linked w.grammar := by
  intro slot k r hk hr
  have hc := h.assembled.consistent
  rw [he.bindings] at hr
  have hslot := hc.within.rule slot r hr
  have hk' : s.grammar.ruleSource slot = .parser k := (he.grows.ruleSource slot hslot).symm.trans hk
  obtain ⟨p, hp, hrule⟩ := h.linked slot k r hk' hr
  refine ⟨p, ?_, hrule⟩
  unfold Grammar.boundParser? at hp ⊢
  rw [he.bindings, he.grows.parserSource k (hc.holds.sources slot k hk')]
  exact hp

theorem enlarge {w : Workspace V} (h : s.Orderly) (he : s.workspace.Enlarges w)
    (ha : Assembled w s.parsers) : s.Becomes ⟨w, s.parsers⟩ := by
  refine .of_bindings ⟨ha, he.layered, h.linked_enlarge he, fun p hp => ?_⟩ he.grows he.bindings
  exact (h.twinned p hp).enlarge he (h.rule_le hp)

theorem add {p : Parser V} (h : s.Orderly) (ha : Assembled s.workspace (p :: s.parsers))
    (hp : p.Twinned s.grammar s.bindings) : (s.gains p).Orderly :=
  ⟨ha, h.layered, h.linked, List.forall_mem_cons.mpr ⟨hp, h.twinned⟩⟩

/-! ### One operation -/

theorem does {α : Type} {act : Assembly V α} (h : s.Orderly)
    (hact : Ensures act s.workspace (fun _ w => s.workspace.Enlarges w) fun _ w => w = s.workspace)
    (ha : ∀ a w, act s.workspace = .ok a w → Assembled w s.parsers) : s.Becomes (s.does act) := by
  unfold Scene.does
  cases hr : act s.workspace with
  | ok a w =>
      rw [stateAfter_of_ok hr]
      exact h.enlarge (hact.of_ok hr) (ha a w hr)
  | error e w =>
      rw [stateAfter_of_error hr, hact.of_error hr]
      exact .refl h

theorem makes {act : Assembly V (Parser V)} (h : s.Orderly)
    (hact : Ensures act s.workspace s.workspace.Makes fun _ w => w = s.workspace)
    (ha : ∀ p w, act s.workspace = .ok p w → Assembled w (p :: s.parsers)) : s.Becomes (s.makes act) := by
  unfold Scene.makes
  cases hr : act s.workspace with
  | ok p w =>
      have hm := hact.of_ok hr
      refine .of_bindings ⟨ha p w hr, hm.layered, h.linked_enlarge hm.toEnlarges, ?_⟩ hm.grows hm.bindings
      refine List.forall_mem_cons.mpr ⟨hm.twinned, fun q hq => ?_⟩
      exact (h.twinned q hq).enlarge hm.toEnlarges (h.rule_le hq)
  | error e w =>
      rw [hact.of_error hr]
      exact .refl h

theorem gains {p : Parser V} (h : s.Orderly) (ha : Assembled s.workspace (p :: s.parsers))
    (hp : p.slots? = none) : s.Becomes (s.gains p) := .of_bindings (h.add ha (.of_slots? hp)) .refl rfl

theorem lt_of_mentions (h : s.Orderly) (slot : Nat) (hs : s.grammar.Mentions slot) :
    slot < s.grammar.ruleSlots.size := by
  rcases hs with hs | ⟨r, hr⟩
  · exact hs
  · exact h.layered.slots r slot hr

theorem uses {w : Workspace V} (h : s.Orderly) (hu : s.workspace.Uses w) : s.Becomes ⟨w, s.parsers⟩ := by
  obtain ⟨hg, looks, hrow⟩ := hu.looks
  obtain ⟨g, b, actions⟩ := w
  cases hg
  have hc := h.assembled.consistent
  have hwithin := hc.within.row h.lt_of_mentions hrow
  refine ⟨⟨.used h.assembled (hrow.sound hc.sound) hwithin, h.layered, hrow.linked h.linked, ?_⟩,
    .refl, looks, hrow⟩
  exact fun p hp => (h.twinned p hp).course hrow.course

theorem operation (h : s.Orderly) (ho : s.Operation s') : s.Becomes s' := by
  have hl := h.layered
  have hc := h.assembled.consistent
  cases ho with
  | node hb =>
      refine h.does ?_ fun _ _ hok => h.assembled.node hok
      exact ((Assembly.node_enlarges hl hb.admits).imp_left fun _ _ hw => hw.1).of_no_error
  | sequence hr =>
      exact h.does (Assembly.sequence_enlarges hl fun r hmem => (hr r hmem).2) fun _ _ hok =>
        h.assembled.sequence hok
  | andThen ha hb =>
      exact h.does (Assembly.andThen_enlarges hl ha.2 hb.2).of_no_error fun _ _ hok =>
        h.assembled.andThen hok
  | choice ha =>
      refine h.does ?_ fun _ _ hok => h.assembled.choice hok
      exact (Assembly.choice_enlarges hl (admits_choice ha)).imp (fun _ _ hw => hw.1) fun _ _ hw => hw.1
  | @ruleSlot slot hs =>
      have hrule : ∀ r, slot.source = .rule r → r ≤ s.grammar.rules.size := fun r hr => by
        rw [hr] at hs
        exact hs.2
      have hparser : ∀ k, slot.source = .parser k → k < s.grammar.parserSlots.size := fun k hk => by
        rw [hk] at hs
        exact hs
      refine h.does ?_ fun _ _ hok => h.assembled.ruleSlot hparser hok
      exact ((Assembly.ruleSlot_enlarges hl hrule).imp_left fun _ _ hw => hw.1).of_no_error
  | @parserSlot slot hs =>
      have hknown : ∀ p, slot.source = .ready p ∨ slot.source = .produced p → p ∈ s.parsers := by
        rintro p (hp | hp) <;> (rw [hp] at hs; exact hs)
      exact h.does (Assembly.parserSlot_enlarges hl).of_no_error fun _ _ hok =>
        h.assembled.parserSlot hknown hok
  | declareRule =>
      exact h.does (Assembly.declareRule_enlarges hl).of_no_error fun _ _ hok =>
        h.assembled.declareRule hok
  | declareParser =>
      exact h.does (Assembly.declareParser_enlarges hl).of_no_error fun _ _ hok =>
        h.assembled.declareParser hok
  | defineRule _ hr =>
      exact h.does (Assembly.defineRule_enlarges hl hr.2) fun _ _ hok => h.assembled.defineRule hok
  | defineParser _ hp =>
      exact h.does (Assembly.defineParser_enlarges hl) fun _ _ hok => h.assembled.defineParser hp hok
  | ofRule hr => exact h.gains (h.assembled.ofRule hr.2) rfl
  | character => exact h.makes (Assembly.character_makes hl) fun _ _ hok => h.assembled.character hok
  | characters => exact h.makes (Assembly.characters_makes hl) fun _ _ hok => h.assembled.characters hok
  | pair ha hb =>
      exact h.makes (Assembly.pair_makes hl (h.rule_le ha) (h.rule_le hb)) fun _ _ hok =>
        h.assembled.pair ha hb hok
  | choose hs => exact h.makes (Assembly.choose_makes hc hl hs) fun _ _ hok => h.assembled.choose hs hok
  | star hi =>
      exact h.makes (Assembly.starParser_makes hl (h.rule_le hi)) fun _ _ hok => h.assembled.star hi hok
  | plus hi =>
      exact h.makes (Assembly.plusParser_makes hl (h.rule_le hi)) fun _ _ hok => h.assembled.plus hi hok
  | option hi =>
      exact h.makes (Assembly.optionParser_makes hl (h.rule_le hi)) fun _ _ hok =>
        h.assembled.option hi hok
  | map hp => exact h.gains (h.assembled.map hp) rfl
  | spanned hp => exact h.gains (h.assembled.spanned hp) rfl
  | deferred _ =>
      exact h.makes (Assembly.deferredParser_makes hl) fun _ _ hok => h.assembled.deferred hok
  | uses hu => exact h.uses hu

end Orderly

theorem Orderly.operations (h : s.Orderly) (ho : ReflTransGen Operation s s') : s.Follows s' := by
  induction ho with
  | refl => exact ⟨h, .refl, _, .none⟩
  | tail _ ho ih =>
      obtain ⟨horderly, hgrows, looks, hhistory⟩ := ih
      obtain ⟨horderly', hgrows', more, hrow⟩ := horderly.operation ho
      exact ⟨horderly', hgrows.trans hgrows', _, hhistory.operation ho hrow⟩

theorem Reached.orderly (h : s.Reached) : s.Orderly := (Orderly.empty.operations h).orderly

end Scene

end Packrat
