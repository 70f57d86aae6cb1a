import Packrat.Proofs.Flatness
import Packrat.Proofs.Completeness

/-!
# Nested sequences

Sequences that are put together in any nesting give one flat sequence, and it matches as the operands do
one after another (`Scene.sequences_flat`). The operands may be sequences themselves, with rules and memo
keys of their own.
-/

namespace Packrat

open Relation (ReflTransGen)

variable {V : Type}

/-! ## Matching rules one after another -/

namespace Engine

/-- With some fuel, the act comes to the outcome. -/
def Ends (act : Nat → Engine V Bool) (run : Run V) (o : Outcome) : Prop :=
  ∃ fuel x after, act fuel run = .ok x after ∧ .ofAnswer x after.position = o

variable {g : Grammar V} {text : Buffer} {run : Run V} {r : RuleId} {rules : List RuleId} {o : Outcome}

theorem accept_ends_iff (good : run.Good g text) :
    Ends (fun fuel => accept g text fuel r) run o ↔ Matches g text r run.position o := by
  constructor
  · rintro ⟨fuel, x, after, hok, rfl⟩
    exact ((accept_recognizes fuel r run good).of_ok hok).outcome
  · intro hm
    obtain ⟨x, after, hok⟩ := hm.answers good (Nat.lt_succ_self _)
    exact ⟨_, x, after, hok, ((accept_recognizes _ r run good).of_ok hok).outcome.unique hm⟩

theorem accept_supplies {fuel : Nat} {b : Body} {p : Nat}
    (hfuel : g.rules.size * (text.length + 1) + 1 + text.length < fuel) :
    Supplies g text (accept g text fuel) b p where
  recognizes := accept_recognizes_or_halts
  answers k o _ hm run good hp := by
    rw [← hp] at hm
    exact hm.answers good hfuel

theorem matchAll_ends_iff (good : run.Good g text) :
    Ends (fun fuel => matchAll (accept g text fuel) rules) run o ↔
      Derives g text (.sequence rules) run.position o := by
  have hevaluates : ∀ fuel, Ensures (matchAll (accept g text fuel) rules) run
      (Evaluated g text (.sequence rules) run) fun _ _ => True := fun _ =>
    matchAll_evaluates (fun r _ => accept_recognizes_or_halts r) good
  constructor
  · rintro ⟨fuel, x, after, hok, rfl⟩
    exact ((hevaluates fuel).of_ok hok).derives
  · intro hd
    obtain ⟨x, after, hok⟩ := matchAll_answers (accept_supplies (Nat.lt_succ_self _)) good hd
    exact ⟨_, x, after, hok, ((hevaluates _).of_ok hok).derives.unique hd⟩

end Engine

theorem Derives.flatten_iff {g : Grammar V} {text : Buffer} {rules : List RuleId} {p : Nat} {o : Outcome} :
    Derives g text (.sequence (Assembly.flatten g rules)) p o ↔ Derives g text (.sequence rules) p o := by
  induction rules generalizing p with
  | nil => exact Iff.rfl
  | cons r rest ih =>
      change Derives g text (.sequence ((g.body r).parts r ++ Assembly.flatten g rest)) p o ↔ _
      constructor
      · intro h
        rcases h.of_append with ⟨q, hr, hrest⟩ | hr
        · exact .sequence_cons (parts_iff.mp hr) (ih.mp hrest)
        · -- a part that rejects decides alone, whatever was to come after it
          cases h.unique hr.append_reject
          exact .sequence_reject (parts_iff.mp hr)
      · intro h
        cases h with
        | sequence_cons hr hrest => exact .append (parts_iff.mpr hr) (ih.mpr hrest)
        | sequence_reject hr => exact .append_reject (parts_iff.mpr hr)

/-! ## Nested sequences -/

namespace Assembly

variable {w w' : Workspace V}

theorem flatten_extends {g g' : Grammar V} {rules : List RuleId} (he : g.Extends g')
    (hr : ∀ r ∈ rules, r ≤ g.rules.size) : flatten g' rules = flatten g rules :=
  List.flatMap_congr fun r hmem => by rw [he.body r (hr r hmem)]

theorem node_made {b : Body} {r : RuleId} (hok : node b w = .ok r w') :
    0 < r ∧ r ≤ w'.grammar.rules.size ∧ w'.grammar.body r = b := by
  have hnode : node b w = .ok (w.grammar.rules.push b).size
    { w with grammar := { w.grammar with rules := w.grammar.rules.push b } } := rfl
  cases hnode.symm.trans hok
  exact ⟨by simp, Nat.le_refl _, Grammar.body_push⟩

theorem andThen_of_pair {a b p : Parser V} {label combine}
    (hok : pair a b label combine w = .ok p w') : andThen a.rule b.rule w = .ok p.rule w' := by
  have hrule : andThen a.rule b.rule w = .ok _ _ := rfl
  cases (bind_of_ok hrule).symm.trans hok
  exact hrule

end Assembly

namespace Scene

/-- From the scene `s` on, the rules of `s` have been put together to one rule, by pairs of rules or of
parsers and by sequences, in any nesting. Anything else may have been done in between. -/
inductive Nests (s : Scene V) : Scene V → List RuleId → RuleId → Prop
  | operand {r} (h : s.HasRule r) : Nests s s [r] r
  | later {s' s'' rules r} (h : Nests s s' rules r) (ho : s'.Operation s'') : Nests s s'' rules r
  | andThen {s' xs ys a b r w} (ha : Nests s s' xs a) (hb : Nests s s' ys b)
      (hok : Assembly.andThen a b s'.workspace = .ok r w) :
      Nests s (s'.does (Assembly.andThen a b)) (xs ++ ys) r
  | pair {s' xs ys p w} {a b : Parser V} {label combine} (hp : a ∈ s'.parsers) (hq : b ∈ s'.parsers)
      (ha : Nests s s' xs a.rule) (hb : Nests s s' ys b.rule)
      (hok : Assembly.pair a b label combine s'.workspace = .ok p w) :
      Nests s (s'.makes (Assembly.pair a b label combine)) (xs ++ ys) p.rule
  | sequence {s' r w} {parts : List (List RuleId × RuleId)} (h : ∀ x ∈ parts, Nests s s' x.1 x.2)
      (hok : Assembly.sequence (parts.map Prod.snd) s'.workspace = .ok r w) :
      Nests s (s'.does (Assembly.sequence (parts.map Prod.snd))) (parts.flatMap Prod.fst) r

/-- The rule is one of the operands itself, or a sequence of what the operands consist of. -/
structure Nested (s s' : Scene V) (rules : List RuleId) (r : RuleId) : Prop where
  leads : ReflTransGen Operation s s'
  made : s'.HasRule r
  operands : ∀ x ∈ rules, s.HasRule x
  parts : (s'.grammar.body r).parts r = Assembly.flatten s.grammar rules
  listed : rules = [r] ∨ s'.grammar.body r = .sequence (Assembly.flatten s.grammar rules)

variable {s s' s'' : Scene V} {r a b : RuleId} {rules xs ys : List RuleId}

theorem does_ok {α : Type} {act : Assembly V α} {x : α} {w : Workspace V}
    (hok : act s.workspace = .ok x w) : act s.workspace = .ok x (s.does act).workspace := by
  rw [does, stateAfter_of_ok hok, hok]

theorem makes_ok {act : Assembly V (Parser V)} {p : Parser V} {w : Workspace V}
    (hok : act s.workspace = .ok p w) : act s.workspace = .ok p (s.makes act).workspace := by
  rw [makes_workspace, stateAfter_of_ok hok, hok]

namespace Nested

theorem reached (h : s.Nested s' rules r) (hs : s.Reached) : s'.Reached := ReflTransGen.trans hs h.leads

theorem later (h : s.Nested s' rules r) (hs : s.Reached) (ho : s'.Operation s'') :
    s.Nested s'' rules r := by
  have he := ((h.reached hs).orderly.operation ho).grows
  have hbody := he.body r h.made.2
  refine ⟨h.leads.tail ho, ⟨h.made.1, Nat.le_trans h.made.2 he.rules⟩, h.operands, ?_, ?_⟩
  · rw [hbody]
    exact h.parts
  · rw [hbody]
    exact h.listed

theorem of_node {children : List RuleId} (leads : ReflTransGen Operation s s') (ho : s'.Operation s'')
    (operands : ∀ x ∈ rules, s.HasRule x)
    (hok : Assembly.node (.sequence children) s'.workspace = .ok r s''.workspace)
    (hchildren : children = Assembly.flatten s.grammar rules) : s.Nested s'' rules r := by
  obtain ⟨hpos, hle, hbody⟩ := Assembly.node_made hok
  have hlisted : s''.grammar.body r = .sequence (Assembly.flatten s.grammar rules) := hchildren ▸ hbody
  refine ⟨leads.tail ho, ⟨hpos, hle⟩, operands, ?_, .inr hlisted⟩
  rw [hlisted]
  rfl

theorem both (ha : s.Nested s' xs a) (hb : s.Nested s' ys b) (ho : s'.Operation s'')
    (hok : Assembly.andThen a b s'.workspace = .ok r s''.workspace) : s.Nested s'' (xs ++ ys) r := by
  have hchildren : Assembly.flatten s'.grammar [a, b] = Assembly.flatten s.grammar (xs ++ ys) := by
    simp only [Assembly.flatten, List.flatMap_cons, List.flatMap_nil, List.append_nil,
      List.flatMap_append, ha.parts, hb.parts]
  have hoperands := List.forall_mem_append.mpr ⟨ha.operands, hb.operands⟩
  exact .of_node ha.leads ho hoperands hok hchildren

theorem all {parts : List (List RuleId × RuleId)} (h : ∀ x ∈ parts, s.Nested s' x.1 x.2) (hs : s.Reached)
    (hok : Assembly.sequence (parts.map Prod.snd) s'.workspace = .ok r s''.workspace)
    (ho : (∀ x ∈ parts.map Prod.snd, s'.HasRule x) → s'.Operation s'') :
    s.Nested s'' (parts.flatMap Prod.fst) r := by
  by_cases hne : parts = []
  · subst hne
    cases hok
  · obtain ⟨first, hfirst⟩ := List.exists_mem_of_ne_nil parts hne
    have hmade : ∀ x ∈ parts.map Prod.snd, s'.HasRule x := by
      intro x hx
      obtain ⟨y, hy, rfl⟩ := List.mem_map.mp hx
      exact (h y hy).made
    have hoperands : ∀ x ∈ parts.flatMap Prod.fst, s.HasRule x := by
      intro x hx
      obtain ⟨y, hy, hmem⟩ := List.mem_flatMap.mp hx
      exact (h y hy).operands x hmem
    have hchildren : Assembly.flatten s'.grammar (parts.map Prod.snd) =
        Assembly.flatten s.grammar (parts.flatMap Prod.fst) := by
      simp only [Assembly.flatten, List.flatMap_map, List.flatMap_assoc]
      exact List.flatMap_congr fun y hy => (h y hy).parts
    -- only in a flat grammar is a sequence of something sure to have children
    have hflat := ((h first hfirst).reached hs).flat
    rw [Assembly.sequence_eq_node hflat (fun x hx => (hmade x hx).2) (by simpa using hne)] at hok
    exact .of_node (h first hfirst).leads (ho hmade) hoperands hok hchildren

theorem matches_iff (h : s.Nested s' rules r) (hs : s.Reached) {text : Buffer} {p : Nat} {o : Outcome} :
    Matches s'.grammar text r p o ↔ Derives s'.grammar text (.sequence rules) p o := by
  have he := (hs.orderly.operations h.leads).grows
  rw [← Derives.parts_iff, h.parts, ← Assembly.flatten_extends he fun x hx => (h.operands x hx).2,
    Derives.flatten_iff]

end Nested

theorem Nests.nested (h : s.Nests s' rules r) (reached : s.Reached) : s.Nested s' rules r := by
  induction h with
  | operand h => exact ⟨.refl, h, List.forall_mem_singleton.mpr h, (List.append_nil _).symm, .inl rfl⟩
  | later _ ho ih => exact ih.later reached ho
  | andThen _ _ hok iha ihb => exact iha.both ihb (.andThen iha.made ihb.made) (does_ok hok)
  | pair hp hq _ _ hok iha ihb =>
      exact iha.both ihb (.pair hp hq) (Assembly.andThen_of_pair (makes_ok hok))
  | sequence _ hok ih => exact .all ih reached (does_ok hok) .sequence

/-- In whatever scene, no sequence has a sequence as a child, and no sequence and no choice is empty. A
sequence of no rules at all is refused without a trace, and no other is. However operands are nested, and
whatever is done in between, the outcome is the rule with the children that their plain sequence has; and
in any later scene it matches as the operands do one after another, whatever two right tables (such as
empty ones with or without memory) the two start with. -/
theorem sequences_flat (reached : s.Reached) :
    s.grammar.Flat ∧
    (∀ rules, (∀ r ∈ rules, s.HasRule r) →
      (rules = [] → Assembly.sequence rules s.workspace = .error .emptySequence s.workspace) ∧
      (rules ≠ [] → ∃ r w, Assembly.sequence rules s.workspace = .ok r w ∧
        w.grammar.body r = .sequence (Assembly.flatten s.grammar rules))) ∧
    ∀ s' rules r, s.Nests s' rules r →
      (rules = [r] ∨ s'.grammar.body r = .sequence (Assembly.flatten s.grammar rules)) ∧
      ∀ text p, p ≤ text.length → ∀ m m' : Memo, m.Correct s'.grammar text → m'.Correct s'.grammar text →
        ∀ o, Engine.Ends (fun fuel => Engine.accept s'.grammar text fuel r) (.begin p m s'.bindings) o ↔
          Engine.Ends (fun fuel => Engine.matchAll (Engine.accept s'.grammar text fuel) rules)
            (.begin p m' s'.bindings) o := by
  refine ⟨reached.flat, fun rules hr => ⟨?_, fun hne => ?_⟩, fun s' rules r h => ?_⟩
  · rintro rfl
    rfl
  · have hnode := Assembly.sequence_eq_node reached.flat (fun r hmem => (hr r hmem).2) hne
    exact ⟨_, _, hnode, Grammar.body_push⟩
  · have hn := h.nested reached
    have sound := (hn.reached reached).orderly.assembled.consistent.sound
    refine ⟨hn.listed, fun text p hp m m' hm hm' o => ?_⟩
    have good : (Run.begin p m s'.bindings).Good s'.grammar text := ⟨hp, sound, hm⟩
    have good' : (Run.begin p m' s'.bindings).Good s'.grammar text := ⟨hp, sound, hm'⟩
    rw [Engine.accept_ends_iff good, Engine.matchAll_ends_iff good']
    exact hn.matches_iff reached

/-- Three operands, of which the second is a sequence, nested to the left. -/
theorem sequences_flat_nested :
    ∃ s : Scene Unit, s.Reached ∧ s.grammar.Flat ∧
      Assembly.sequence [] s.workspace = .error .emptySequence s.workspace ∧
      ∃ s' r, s.Nests s' [1, 4, 1] r ∧ s'.grammar.body r = .sequence [1, 2, 3, 1] ∧
        Engine.Ends (fun fuel => Engine.matchAll (Engine.accept s'.grammar (.load 0 "abca!") fuel) [1, 4, 1])
          (.begin 0 (.empty .full) s'.bindings) (.accepted 4) := by
  let letter (s : Scene Unit) (c : Char) : Scene Unit := s.does (Assembly.node (.literal [c]))
  let letters := letter (letter (letter .empty 'a') 'b') 'c'
  let s := letters.does (Assembly.sequence [2, 3])
  let left := s.does (Assembly.andThen 1 4)
  let whole := left.does (Assembly.sequence [5, 1])
  have hletter : ∀ s c, Operation s (letter s c) := fun _ _ => .node (by trivial)
  have hletters : letters.Reached :=
    ((ReflTransGen.single (hletter _ 'a')).tail (hletter _ 'b')).tail (hletter _ 'c')
  have reached : s.Reached := hletters.tail (.sequence (by decide +kernel))
  have hfirst : s.Nests s [1] 1 := .operand (by decide +kernel)
  have hsecond : s.Nests s [4] 4 := .operand (by decide +kernel)
  have hleft : s.Nests left [1, 4] 5 := .andThen hfirst hsecond rfl
  have hlast : s.Nests left [1] 1 := .later hfirst (.andThen (by decide +kernel) (by decide +kernel))
  have hparts : ∀ x ∈ [([1, 4], 5), ([1], 1)], s.Nests left x.1 x.2 := by simpa using ⟨hleft, hlast⟩
  have hmade : Ensures (Assembly.sequence [5, 1]) left.workspace (fun r _ => r = 6) fun _ _ => False := by
    decide +kernel
  obtain ⟨_, _, hok, rfl⟩ := hmade.exists_ok
  have hnested := Nests.sequence hparts hok
  have hwhole : s.Nests whole [1, 4, 1] 6 := hnested
  have hflatten : Assembly.flatten s.grammar [1, 4, 1] = [1, 2, 3, 1] := by decide +kernel
  obtain ⟨hflat, hsequence, hnests⟩ := sequences_flat reached
  obtain ⟨hlisted, hmatch⟩ := hnests whole [1, 4, 1] 6 hwhole
  have hrun : Ensures (Engine.accept whole.grammar (.load 0 "abca!") 20 6)
      (.begin 0 (.empty .none) whole.bindings)
      (fun x after => Outcome.ofAnswer x after.position = .accepted 4) fun _ _ => False := by decide +kernel
  obtain ⟨x, after, hok, ho⟩ := hrun.exists_ok
  refine ⟨s, reached, hflat, (hsequence [] nofun).1 rfl, whole, 6, hwhole, ?_, ?_⟩
  · rcases hlisted with hone | hlisted
    · cases hone
    · rw [hlisted, hflatten]
  · exact (hmatch _ 0 (Nat.zero_le _) _ _ .empty .empty _).mp ⟨20, x, after, hok, ho⟩

end Scene

end Packrat
