import Packrat.Proofs.Scenes

/-!
# What is found is found once

Whatever is built and used, and in whatever order: a forward declaration keeps its first definition; the
look-ups of a slot fail until one of them returns, and then all of them answer the same without a run of
the producer; and recognition and construction follow the same parser at every alternative
(`Scene.found_once`).
-/

namespace Packrat

open Relation (ReflTransGen)

variable {V : Type}

namespace Grammar

/-- An alternative and a parser slot stand for the same parser. If the rule of the alternative is there,
so is the parser of the slot, and it is the rule of that parser; and if recognition can look up the rule,
construction finds a parser of that rule. -/
structure Agree (g : Grammar V) (b : Bindings V) (slot : Nat) (a : Alternative) : Prop where
  bound : ∀ r, boundRule? b a = some r → ∃ p, g.boundParser? b slot = some p ∧ p.rule = r
  lookup : Ensures (g.resolveAlternative a) b
    (fun r after => Ensures (g.resolveParser slot) after (fun p _ => p.rule = r) fun _ _ => False)
    fun _ _ => True

theorem Twins.sameTarget {w : Workspace V} {known : List (Parser V)} {slot : Nat} {a : Alternative}
    (h : w.grammar.Twins w.bindings slot a) (hw : w.Consistent known) : w.grammar.SameTarget slot a := by
  unfold SameTarget
  cases h with
  | ready hs hp => simp [alternativeTarget, Assembly.boundParser?_target hw hp]
  | deferred hk hsource => simp [alternativeTarget, ruleTarget, hsource]

theorem SameTarget.lookup {g : Grammar V} {b : Bindings V} {slot : Nat} {a : Alternative}
    (h : g.SameTarget slot a) (hb : b.Sound g) :
    Ensures (g.resolveAlternative a) b
      (fun r after => Ensures (g.resolveParser slot) after (fun p _ => p.rule = r) fun _ _ => False)
      fun _ _ => True := by
  refine (resolveAlternative_finds a b hb).imp ?_ fun _ _ _ => trivial
  rintro r after ⟨ha, hafter⟩
  rw [h, Option.map_eq_some_iff] at ha
  obtain ⟨p, hp, rfl⟩ := ha
  refine (resolveParser_finds slot after hafter).imp ?_ ?_
  · rintro q _ ⟨hq, -⟩
    cases hp.symm.trans hq
    rfl
  · rintro _ _ ⟨-, hnone, -⟩
    cases hp.symm.trans hnone

end Grammar

/-! ## Forward declarations -/

section

variable {w : Workspace V} {f : Nat}

theorem Grammar.definition_set_self {α : Type} {forwards : Array (Forward α)} {f' : Forward α}
    (hf : f < forwards.size) : ((forwards.setIfInBounds f f')[f]?).getD (.declare "") = f' := by
  simp [hf]

theorem Assembly.defineRule_first {r : RuleId} (hf : f < w.grammar.ruleForwards.size)
    (h : (w.grammar.ruleForward f).definition = none) :
    ∃ w', defineRule f r w = .ok () w' ∧ (w'.grammar.ruleForward f).definition = some r :=
  ⟨_, defineRule_of_none h, congrArg Forward.definition (Grammar.definition_set_self hf)⟩

theorem Assembly.defineParser_first {p : Parser V} (hf : f < w.grammar.parserForwards.size)
    (h : (w.grammar.parserForward f).definition = none) :
    ∃ w', defineParser f p w = .ok () w' ∧ (w'.grammar.parserForward f).definition = some p :=
  ⟨_, defineParser_of_none h, congrArg Forward.definition (Grammar.definition_set_self hf)⟩

end

namespace Scene

/-- Between any two moments of a run of operations, each of which may fail: a forward declaration takes a
first definition, keeps it, and refuses any other without a change. A look-up of a deferred slot, wherever
it is made, leaves the slot resolved to its answer, or unresolved if it fails, and one of a resolved slot
answers without a change. So those look-ups of a slot that have been made in between have failed, each with
a run of the producer, up to the first that returned; all later ones have given its answer, without a run.
At any moment each alternative of a parser that chooses agrees with its slot. -/
theorem found_once {s s' : Scene V} (reached : s.Reached) (operations : ReflTransGen Operation s s') :
    (∀ f, (f < s.grammar.ruleForwards.size → (s.grammar.ruleForward f).definition = none →
        ∀ r, ∃ w, Assembly.defineRule f r s.workspace = .ok () w ∧
          (w.grammar.ruleForward f).definition = some r) ∧
      ∀ r, (s.grammar.ruleForward f).definition = some r →
        (s'.grammar.ruleForward f).definition = some r ∧ ∀ r', Assembly.defineRule f r' s'.workspace =
          .error (.alreadyDefined (s'.grammar.ruleForward f).name) s'.workspace) ∧
    (∀ f, (f < s.grammar.parserForwards.size → (s.grammar.parserForward f).definition = none →
        ∀ p, ∃ w, Assembly.defineParser f p s.workspace = .ok () w ∧
          (w.grammar.parserForward f).definition = some p) ∧
      ∀ p, (s.grammar.parserForward f).definition = some p →
        (s'.grammar.parserForward f).definition = some p ∧ ∀ p', Assembly.defineParser f p' s'.workspace =
          .error (.alreadyDefined (s'.grammar.parserForward f).name) s'.workspace) ∧
    (∀ slot, FindsOnceAnywhere (s'.grammar.resolveRule slot) Bindings.rules slot) ∧
    (∀ slot, s'.grammar.Lazy slot →
      FindsOnceAnywhere (s'.grammar.resolveParser slot) Bindings.parsers slot) ∧
    ((∃ looks, s.History looks s') ∧ ∀ looks, s.History looks s' → s.bindings.Course looks s'.bindings) ∧
    ∀ p ∈ s'.parsers, ∀ slots, p.slots? = some slots →
      ∃ alternatives, s'.grammar.body p.rule = .choice alternatives ∧
        List.Forall₂ (s'.grammar.Agree s'.bindings) slots alternatives := by
  obtain ⟨horderly, hgrows, hhistory⟩ := reached.orderly.operations operations
  have hc := horderly.assembled.consistent
  refine ⟨fun f => ⟨fun hf h r => ?_, fun r h => ?_⟩, fun f => ⟨fun hf h p => ?_, fun p h => ?_⟩,
    fun slot => (Grammar.resolveRule_findsOnce slot).anywhere,
    fun _ hs => (Grammar.resolveParser_findsOnce hs).anywhere,
    ⟨hhistory, fun _ => History.course⟩, ?_⟩
  · exact Assembly.defineRule_first hf h
  · exact ⟨hgrows.ruleForward f r h, fun _ => Assembly.defineRule_refused (hgrows.ruleForward f r h)⟩
  · exact Assembly.defineParser_first hf h
  · exact ⟨hgrows.parserForward f p h, fun _ => Assembly.defineParser_refused (hgrows.parserForward f p h)⟩
  · intro p hp slots hslots
    obtain ⟨alternatives, hbody, hall⟩ := horderly.twinned p hp slots hslots
    refine ⟨alternatives, hbody, hall.imp fun slot a ht => ⟨fun r => ht.agree horderly.linked, ?_⟩⟩
    exact (ht.sameTarget hc).lookup hc.sound

/-- A parser that is used before its forward declaration is defined, which fails, and again twice after
that: of the look-ups of its rule and of its parser the first has failed, and all others have found what is
found from then on. -/
theorem found_once_late :
    ∃ (s : Scene Unit) (q : Parser Unit), s.Reached ∧ q.rule = 2 ∧
      (∃ looks m n, Scene.empty.History looks s ∧
        Look.answers looks.rules 0 = none :: List.replicate (m + 1) (some 2) ∧
        Look.answers looks.parsers 0 = none :: List.replicate (n + 1) (some q)) ∧
      s.grammar.resolveRule 0 s.bindings = .ok 2 s.bindings ∧
      s.grammar.resolveParser 0 s.bindings = .ok q s.bindings ∧
      (∀ p, Assembly.defineParser 0 p s.workspace = .error (.alreadyDefined "late") s.workspace) ∧
      ∃ p ∈ s.parsers, ∃ alternatives, s.grammar.body p.rule = .choice alternatives ∧
        List.Forall₂ (s.grammar.Agree s.bindings) [0] alternatives := by
  let used (s : Scene Unit) : Scene Unit :=
    ⟨stateAfter (Session.recognize 1 "x" .memoized) s.workspace, s.parsers⟩
  let declared : Scene Unit := Scene.empty.does (Assembly.declareParser "late")
  let deferring := declared.makes (Assembly.deferredParser 0)
  let letter := (used deferring).does (Assembly.node (.literal ['x']))
  let parser := letter.gains (Assembly.ofRule 2 ())
  let defined := parser.does (Assembly.defineParser 0 (Assembly.ofRule 2 ()))
  let last := used (used defined)
  have hbuilt : ReflTransGen Operation .empty deferring :=
    (ReflTransGen.single .declareParser).tail (.deferred (by decide +kernel))
  have hletter : Operation (used deferring) letter := .node (by trivial)
  have hparser : ReflTransGen Operation .empty parser :=
    ((hbuilt.tail (.uses .recognize)).tail hletter).tail (.ofRule (by decide +kernel))
  have hdefined : ReflTransGen Operation parser defined :=
    .single (.defineParser (by decide +kernel) List.mem_cons_self)
  have hused : ReflTransGen Operation defined last :=
    (ReflTransGen.single (.uses .recognize)).tail (.uses .recognize)
  have reached : ReflTransGen Operation .empty last := (hparser.trans hdefined).trans hused
  obtain ⟨-, -, hrule, hslot, ⟨⟨looks, hhistory⟩, hcourse⟩, hagree⟩ :=
    found_once (s := .empty) .refl reached
  obtain ⟨-, hfirst, -⟩ := found_once hparser .refl
  obtain ⟨-, hagain, -⟩ := found_once (hparser.trans hdefined) hused
  have hname : (last.grammar.parserForward 0).name = "late" := by decide +kernel
  have hr : (last.bindings.rules.get 0).resolved = some 2 := by decide +kernel
  have hq : (last.bindings.parsers.get 0).resolved.map Parser.rule = some 2 := by decide +kernel
  obtain ⟨q, hq, hqrule⟩ := Option.map_eq_some_iff.mp hq
  obtain ⟨hrules, hparsers⟩ := hcourse looks hhistory
  -- both producers have run twice, so one look-up has failed
  obtain ⟨m, hm⟩ := (hrules 0).answers_of_runs (k := 1) (by decide +kernel) hr (by decide +kernel)
  have hnone : ((Scene.empty : Scene Unit).bindings.parsers.get 0).resolved = none :=
    Option.isNone_iff_eq_none.mp (by decide +kernel)
  obtain ⟨n, hn⟩ := (hparsers 0).answers_of_runs (k := 1) hnone hq (by decide +kernel)
  refine ⟨last, q, reached, hqrule, ⟨looks, m, n, hhistory, hm, hn⟩, (hrule 0).alone.again _ _ hr,
    (hslot 0 (by decide +kernel)).alone.again _ _ hq, fun p => ?_, .deferred 1 0, ?_⟩
  · have hundefined : (parser.grammar.parserForward 0).definition = none :=
      Option.isNone_iff_eq_none.mp (by decide +kernel)
    obtain ⟨w, hok, hw⟩ := (hfirst 0).1 (by decide +kernel) hundefined (Assembly.ofRule 2 ())
    have hdefinition : (defined.grammar.parserForward 0).definition = some (Assembly.ofRule 2 ()) := by
      rw [← hw, ← stateAfter_of_ok hok]
      rfl
    rw [← hname]
    exact ((hagain 0).2 _ hdefinition).2 p
  · have hmem : Parser.deferred 1 0 ∈ deferring.parsers := List.mem_cons_self
    have hlater : Parser.deferred 1 0 ∈ last.parsers := List.mem_cons_of_mem _ hmem
    exact ⟨hlater, hagree _ hlater [0] rfl⟩

end Scene

end Packrat
