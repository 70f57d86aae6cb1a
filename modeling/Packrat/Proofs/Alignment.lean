import Mathlib.Data.List.Forall2
import Packrat.Grammar.Assembly

/-!
# Parsers that fit their rules

A parser and its rule are two descriptions of one thing, and alignment says that they agree part by
part (`Parser.Aligned`). A grammar only ever grows while it is assembled (`Grammar.Extends`), and what
is in it keeps its meaning.
-/

namespace Packrat

variable {V : Type}

/-! ## Alignment -/

/-- The alternative stands for the rule of the parser that the slot stands for. -/
def Grammar.SameTarget (g : Grammar V) (slot : Nat) (a : Alternative) : Prop :=
  g.alternativeTarget a = (g.parserTarget slot).map Parser.rule

namespace Parser

/-- The parts of the parser agree with the body. A sequence is flat, so a part of a pair may enter it
by its own children. -/
inductive Fits (g : Grammar V) : Parser V → Body → Prop
  | silent {r v} : Fits g (.silent r v) (g.body r)
  | character {r embed d test} (hb : g.body r = .predicate d test) :
      Fits g (.character r embed) (.predicate d test)
  | characters {r embed i d test} (hb : g.body r = .plus i) (hi : g.body i = .predicate d test) :
      Fits g (.characters r embed) (.plus i)
  | pair {r a b label combine} (ha : Fits g a (g.body a.rule)) (hb : Fits g b (g.body b.rule)) :
      Fits g (.pair r a b label combine)
        (.sequence ((g.body a.rule).parts a.rule ++ (g.body b.rule).parts b.rule))
  | choice {r slots alternatives} (h : List.Forall₂ g.SameTarget slots alternatives) :
      Fits g (.choice r slots) (.choice alternatives)
  | star {r item collect} (hi : Fits g item (g.body item.rule)) :
      Fits g (.star r item collect) (.star item.rule)
  | plus {r item collect} (hi : Fits g item (g.body item.rule)) :
      Fits g (.plus r item collect) (.plus item.rule)
  | option {r item embed} (hi : Fits g item (g.body item.rule)) :
      Fits g (.option r item embed) (.option item.rule)
  | map {inner label transform b} (hi : Fits g inner b) : Fits g (.map inner label transform) b
  | spanned {inner embed b} (hi : Fits g inner b) : Fits g (.spanned inner embed) b
  | deferred {r slot a} (h : g.SameTarget slot a) : Fits g (.deferred r slot) (.choice [a])

/-- The parser fits the body of its rule. -/
def Aligned (g : Grammar V) (p : Parser V) : Prop := p.Fits g (g.body p.rule)

/-- The parsers that the parser is put together from. -/
def operands : Parser V → List (Parser V)
  | .silent _ _ | .character _ _ | .characters _ _ | .choice _ _ | .deferred _ _ => []
  | .pair _ a b _ _ => [a, b]
  | .star _ item _ | .plus _ item _ | .option _ item _ => [item]
  | .map inner _ _ => [inner]
  | .spanned inner _ => [inner]

namespace Aligned

variable {g : Grammar V}

theorem operand {p : Parser V} (h : p.Aligned g) : ∀ q ∈ p.operands, q.Aligned g := by
  unfold Aligned at h
  generalize hbody : g.body p.rule = body at h
  cases h with
  | silent | character | characters | choice | deferred => exact fun _ hq => nomatch hq
  | pair ha hb => exact List.forall_mem_cons.mpr ⟨ha, List.forall_mem_singleton.mpr hb⟩
  | star hi | plus hi | option hi => exact List.forall_mem_singleton.mpr hi
  | map hi | spanned hi =>
      subst hbody
      exact List.forall_mem_singleton.mpr hi

theorem of_character {r : RuleId} {embed : Char → V} (h : (character r embed).Aligned g) :
    ∃ d test, g.body r = .predicate d test := by
  unfold Aligned at h
  generalize hb : g.body _ = body at h
  cases h with
  | character => exact ⟨_, _, hb⟩

theorem of_characters {r : RuleId} {embed : List Char → V} (h : (characters r embed).Aligned g) :
    ∃ i d test, g.body r = .plus i ∧ g.body i = .predicate d test := by
  unfold Aligned at h
  generalize hb : g.body _ = body at h
  cases h with
  | characters _ hi => exact ⟨_, _, _, hb, hi⟩

end Aligned

end Parser

namespace Grammar

/-- Every parser that a slot stands for is aligned. -/
def Aligned (g : Grammar V) : Prop := ∀ slot p, g.parserTarget slot = some p → p.Aligned g

/-! ## Growth -/

/-- What `g` holds is in `g'` under the same numbers, and what `g` defines stays defined as it is. -/
structure Extends (g g' : Grammar V) : Prop where
  rules : g.rules.size ≤ g'.rules.size
  body : ∀ r ≤ g.rules.size, g'.body r = g.body r
  ruleSlots : g.ruleSlots.size ≤ g'.ruleSlots.size
  ruleSource : ∀ slot < g.ruleSlots.size, g'.ruleSource slot = g.ruleSource slot
  parserSlots : g.parserSlots.size ≤ g'.parserSlots.size
  parserSource : ∀ slot < g.parserSlots.size, g'.parserSource slot = g.parserSource slot
  ruleForward : ∀ f r, (g.ruleForward f).definition = some r → (g'.ruleForward f).definition = some r
  parserForward : ∀ f p, (g.parserForward f).definition = some p →
    (g'.parserForward f).definition = some p

variable {g g' g'' : Grammar V}

namespace Extends

protected theorem refl : g.Extends g :=
  ⟨Nat.le_refl _, fun _ _ => rfl, Nat.le_refl _, fun _ _ => rfl, Nat.le_refl _, fun _ _ => rfl,
    fun _ _ => id, fun _ _ => id⟩

protected theorem trans (h : g.Extends g') (h' : g'.Extends g'') : g.Extends g'' where
  rules := Nat.le_trans h.rules h'.rules
  body r hr := (h'.body r (Nat.le_trans hr h.rules)).trans (h.body r hr)
  ruleSlots := Nat.le_trans h.ruleSlots h'.ruleSlots
  ruleSource slot hs := (h'.ruleSource slot (Nat.lt_of_lt_of_le hs h.ruleSlots)).trans (h.ruleSource slot hs)
  parserSlots := Nat.le_trans h.parserSlots h'.parserSlots
  parserSource slot hs :=
    (h'.parserSource slot (Nat.lt_of_lt_of_le hs h.parserSlots)).trans (h.parserSource slot hs)
  ruleForward f r hr := h'.ruleForward f r (h.ruleForward f r hr)
  parserForward f p hp := h'.parserForward f p (h.parserForward f p hp)

theorem parserTarget {slot p} (h : g.Extends g') (hs : slot < g.parserSlots.size)
    (hp : g.parserTarget slot = some p) : g'.parserTarget slot = some p := by
  unfold Grammar.parserTarget at hp ⊢
  rw [h.parserSource slot hs]
  cases hsource : g.parserSource slot with
  | ready q | produced q => simpa [hsource] using hp
  | forward f => exact h.parserForward f p (by simpa [hsource] using hp)

theorem ruleTarget {slot r} (h : g.Extends g') (hs : slot < g.ruleSlots.size)
    (hk : ∀ k, g.ruleSource slot = .parser k → k < g.parserSlots.size)
    (hr : g.ruleTarget slot = some r) : g'.ruleTarget slot = some r := by
  unfold Grammar.ruleTarget at hr ⊢
  rw [h.ruleSource slot hs]
  cases hsource : g.ruleSource slot with
  | rule r' => simpa [hsource] using hr
  | forward f => exact h.ruleForward f r (by simpa [hsource] using hr)
  | parser k =>
      simp only [hsource, Option.map_eq_some_iff] at hr ⊢
      obtain ⟨p, hp, hrule⟩ := hr
      exact ⟨p, h.parserTarget (hk k hsource) hp, hrule⟩

end Extends

/-! ## Additions -/

theorem body_push {b : Body} :
    Grammar.body { g with rules := g.rules.push b } (g.rules.push b).size = b := by
  rw [Array.size_push]
  simp [Grammar.body]

theorem extends_rule {b : Body} : g.Extends { g with rules := g.rules.push b } := by
  refine { Extends.refl with rules := by simp, body := fun r hr => ?_ }
  cases r with
  | zero => rfl
  | succ r => simp [Grammar.body, Array.getElem?_push, Nat.ne_of_lt hr]

theorem ruleSource_push {slot : Slot RuleSource} {k : Nat} :
    Grammar.ruleSource { g with ruleSlots := g.ruleSlots.push slot } k =
      if k = g.ruleSlots.size then slot.source else g.ruleSource k := by
  by_cases hk : k = g.ruleSlots.size
  · simp [Grammar.ruleSource, hk]
  · simp [Grammar.ruleSource, Array.getElem?_push, hk]

theorem parserSource_push {slot : Slot (ParserSource V)} {k : Nat} :
    Grammar.parserSource { g with parserSlots := g.parserSlots.push slot } k =
      if k = g.parserSlots.size then slot.source else g.parserSource k := by
  by_cases hk : k = g.parserSlots.size
  · simp [Grammar.parserSource, hk]
  · simp [Grammar.parserSource, Array.getElem?_push, hk]

theorem extends_ruleSlot {slot : Slot RuleSource} :
    g.Extends { g with ruleSlots := g.ruleSlots.push slot } := by
  refine { Extends.refl with ruleSlots := by simp, ruleSource := fun k hk => ?_ }
  rw [ruleSource_push, if_neg (Nat.ne_of_lt hk)]

theorem extends_parserSlot {slot : Slot (ParserSource V)} :
    g.Extends { g with parserSlots := g.parserSlots.push slot } := by
  refine { Extends.refl with parserSlots := by simp, parserSource := fun k hk => ?_ }
  rw [parserSource_push, if_neg (Nat.ne_of_lt hk)]

section Forwards

variable {α : Type} {forwards : Array (Forward α)} {f k : Nat} {a : α} {name : String}

theorem definition_push :
    (((forwards.push (.declare name))[k]?).getD (.declare "")).definition =
      ((forwards[k]?).getD (.declare "")).definition := by
  rw [Array.getElem?_push]
  split
  · next h => simp [h, Forward.declare]
  · rfl

theorem definition_set {f' : Forward α} (hf : ((forwards[f]?).getD (.declare "")).definition = none)
    (h : ((forwards[k]?).getD (.declare "")).definition = some a) :
    (((forwards.setIfInBounds f f')[k]?).getD (.declare "")).definition = some a := by
  have hne : f ≠ k := by
    rintro rfl
    rw [hf] at h
    cases h
  rw [Array.getElem?_setIfInBounds_ne hne]
  exact h

theorem definition_of_set {a' : α} (h : (((forwards.setIfInBounds f ⟨name, some a'⟩)[k]?).getD
    (.declare "")).definition = some a) :
    ((forwards[k]?).getD (.declare "")).definition = some a ∨ a = a' := by
  by_cases hk : f = k
  · subst hk
    rw [Array.getElem?_setIfInBounds_self] at h
    split at h
    · exact .inr (Option.some.inj h).symm
    · cases h
  · rw [Array.getElem?_setIfInBounds_ne hk] at h
    exact .inl h

end Forwards

theorem extends_ruleForward {name : String} :
    g.Extends { g with ruleForwards := g.ruleForwards.push (.declare name) } :=
  { Extends.refl with ruleForward := fun _ _ h => definition_push.trans h }

theorem extends_parserForward {name : String} :
    g.Extends { g with parserForwards := g.parserForwards.push (.declare name) } :=
  { Extends.refl with parserForward := fun _ _ h => definition_push.trans h }

theorem extends_defineRule {f : Nat} {f' : Forward RuleId} (hf : (g.ruleForward f).definition = none) :
    g.Extends { g with ruleForwards := g.ruleForwards.setIfInBounds f f' } :=
  { Extends.refl with ruleForward := fun _ _ h => definition_set hf h }

theorem extends_defineParser {f : Nat} {f' : Forward (Parser V)}
    (hf : (g.parserForward f).definition = none) :
    g.Extends { g with parserForwards := g.parserForwards.setIfInBounds f f' } :=
  { Extends.refl with parserForward := fun _ _ h => definition_set hf h }

end Grammar

end Packrat
