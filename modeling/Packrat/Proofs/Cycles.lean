import Packrat.Proofs.Marks

/-!
# Cycles go through deferred alternatives

Rules are numbered as they are made, and whatever a rule names at once was made before it. So a walk from
rule to rule that comes back to where it started takes a deferred alternative somewhere
(`Grammar.Cycle.defers`). What is written for a rule goes through unary rules only, never through a choice,
and so it ends in any grammar (`Scene.rendering_ends`).
-/

namespace Packrat

open Relation (ReflTransGen)

variable {V : Type}

/-! ## Numbers -/

/-- What a counter of 32 bits shows, which starts at one and wraps around, when the rule is made. -/
def identity (r : RuleId) : UInt32 := (· + 1)^[r - 1] 1

theorem toNat_identity {r : Nat} (hpos : 0 < r) (h : r < 2 ^ 32) : (identity r).toNat = r := by
  induction r with
  | zero => exact absurd hpos (Nat.lt_irrefl 0)
  | succ r ih =>
      cases r with
      | zero => rfl
      | succ r =>
          have hnext : identity (r + 2) = identity (r + 1) + 1 := Function.iterate_succ_apply' ..
          rw [hnext, UInt32.toNat_add, ih (Nat.succ_pos r) (Nat.lt_of_succ_lt h)]
          exact Nat.mod_eq_of_lt h

namespace Grammar

variable {g g' : Grammar V} {names : Names} {r i : RuleId} {walk : List RuleId}

/-- The identities of all rules, in the order in which the rules were made. -/
def identities (g : Grammar V) : List UInt32 := (List.range' 1 g.rules.size).map identity

theorem identities_increase (few : g.rules.size < 2 ^ 32) : g.identities.Pairwise (· < ·) := by
  have htoNat : ∀ r ∈ List.range' 1 g.rules.size, (identity r).toNat = r := by
    intro r hr
    rw [List.mem_range'_1] at hr
    have hlt : r < 1 + g.rules.size := hr.2
    exact toNat_identity hr.1 (by omega)
  refine List.pairwise_map.mpr ((List.pairwise_lt_range' (s := 1)).imp_of_mem fun hr hr' hlt => ?_)
  rw [UInt32.lt_iff_toNat_lt, htoNat _ hr, htoNat _ hr']
  exact hlt

/-- Rules that have been made keep their numbers and their bodies, and later ones come after them. -/
theorem Extends.rules_prefix (h : g.Extends g') : g.rules.toList <+: g'.rules.toList := by
  rw [List.prefix_iff_getElem?]
  intro k hk
  have hsize : k < g.rules.size := by simpa using hk
  have hsize' : k < g'.rules.size := Nat.lt_of_lt_of_le hsize h.rules
  have hbody := h.body (k + 1) hsize
  simp only [Grammar.body, Array.getElem?_eq_getElem hsize, Array.getElem?_eq_getElem hsize',
    Option.getD_some] at hbody
  simp [hsize', hbody]

/-! ## Cycles -/

/-- The second rule is what a deferred alternative of the first stands for. -/
def Defers (g : Grammar V) (r i : RuleId) : Prop :=
  ∃ slot, .deferred slot ∈ (g.body r).alternatives ∧ g.ruleTarget slot = some i

/-- A walk from rule to rule that ends where it starts, after at least one step. -/
structure Cycle (g : Grammar V) (walk : List RuleId) : Prop where
  moves : 2 ≤ walk.length
  closed : walk.head? = walk.getLast?
  steps : walk.IsChain fun r i => i ∈ g.operands (g.body r)

theorem mem_eager_or_defers (h : i ∈ g.operands (g.body r)) : i ∈ (g.body r).eager ∨ g.Defers r i := by
  unfold Defers
  cases hb : g.body r with
  | choice alternatives =>
      rw [hb] at h
      obtain ⟨a, ha, htarget⟩ := List.mem_filterMap.mp h
      cases a with
      | ready r' =>
          cases htarget
          exact .inl (List.mem_filterMap.mpr ⟨_, ha, rfl⟩)
      | deferred slot => exact .inr ⟨slot, ha, htarget⟩
  | _ =>
      rw [hb] at h
      exact .inl h

/-- A walk that only goes to earlier rules does not come back. -/
theorem Cycle.not_descending (h : g.Cycle walk) : ¬ walk.IsChain fun r i => i < r := by
  intro hchain
  obtain ⟨hmoves, hclosed, -⟩ := h
  match walk, hmoves, hclosed, hchain with
  | r :: i :: rest, _, hclosed, hchain =>
      have : Trans (fun r i : RuleId => i < r) (fun r i => i < r) (fun r i => i < r) :=
        ⟨fun h h' => Nat.lt_trans h' h⟩
      obtain ⟨hbelow, -⟩ := List.pairwise_cons.mp (List.isChain_iff_pairwise.mp hchain)
      have hlast : r ∈ (i :: rest).getLast? := by
        rw [List.getLast?_cons_cons] at hclosed
        exact hclosed.symm
      exact Nat.lt_irrefl r (hbelow r (List.mem_of_getLast? hlast))

/-- Some step of a cycle is taken by a deferred alternative, and by nothing that the rule names at once. -/
theorem Cycle.defers (h : g.Cycle walk) (earlier : ∀ r, ∀ i ∈ (g.body r).eager, i < r) :
    ∃ k, ∃ hk : k + 1 < walk.length,
      g.Defers walk[k] walk[k + 1] ∧ walk[k + 1] ∉ (g.body walk[k]).eager := by
  by_contra hnone
  push Not at hnone
  refine h.not_descending (List.isChain_iff_getElem.mpr fun k hk => earlier _ _ ?_)
  rcases mem_eager_or_defers (List.isChain_iff_getElem.mp h.steps k hk) with heager | hdefers
  · exact heager
  · exact hnone k hk hdefers

/-! ## Writing rules -/

theorem Grounded.subject_of_fuel (hg : g.Grounded) (names : Names) (hr : r ≤ g.rules.size) {fuel : Nat}
    (hfuel : r < fuel) : g.subject names fuel r = some (g.about names r) := by
  obtain ⟨t, ht, hdepth⟩ := hg.subject_of_lt names hfuel (Nat.lt_succ_of_le hr)
  rw [ht, ← hdepth]
  exact hg.subject_eq_about names hr

/-- The act fails, at a forward declaration that is left undefined. -/
def FailsUndefined {α : Type} (act : Resolution V α) (b : Bindings V) : Prop :=
  Ensures act b (fun _ _ => False) fun halt _ => ∃ name, halt = .faulted (.undefinedForward name)

theorem FailsUndefined.bind {α β : Type} {act : Resolution V α} {f : α → Resolution V β} {b : Bindings V}
    (h : FailsUndefined act b) : FailsUndefined (act >>= f) b :=
  Ensures.bind h fun _ _ hfalse => False.elim hfalse

theorem mapM_failsUndefined {alternatives : List Alternative} {b : Bindings V}
    (h : ∃ a ∈ alternatives, g.alternativeTarget a = none) (hb : b.Sound g) :
    FailsUndefined (alternatives.mapM g.resolveAlternative) b := by
  induction alternatives generalizing b with
  | nil =>
      obtain ⟨_, ha, -⟩ := h
      cases ha
  | cons a rest ih =>
      rw [List.mapM_cons]
      refine ((resolveAlternative_finds a b hb).imp_right fun _ _ he => he.1).bind fun r mid ⟨hr, hmid⟩ => ?_
      obtain ⟨a', ha', hnone⟩ := h
      rcases List.mem_cons.mp ha' with rfl | hrest
      · cases hr.symm.trans hnone
      · exact (ih ⟨a', hrest, hnone⟩ hmid).bind

theorem describe_failsUndefined {b : Bindings V} {a : Alternative} (names : Names)
    (ha : a ∈ (g.body r).alternatives) (hnone : g.alternativeTarget a = none) (hb : b.Sound g) :
    FailsUndefined (g.describe names r) b := by
  cases hbody : g.body r with
  | choice alternatives =>
      rw [hbody] at ha
      have hchildren : FailsUndefined (g.children r) b := by
        rw [children, hbody]
        exact mapM_failsUndefined ⟨a, ha, hnone⟩ hb
      have hrhs : g.rhs names r = g.listed names "/" r := by
        have hkind : g.kind r = .choice := congrArg Body.kind hbody
        rw [rhs, hkind]
        rfl
      rw [describe, line, hrhs]
      exact hchildren.bind.bind.bind
  | _ =>
      rw [hbody] at ha
      cases ha

/-- The line of a rule is written, unless an alternative of the rule is left undefined. -/
theorem Grounded.describe_ends (hg : g.Grounded) (names : Names) {b : Bindings V} (hb : b.Sound g) :
    (∃ text, answer (g.describe names r) b = .ok text) ∨
      (∃ a ∈ (g.body r).alternatives, g.alternativeTarget a = none) ∧
        ∃ name, answer (g.describe names r) b = .error (.faulted (.undefinedForward name)) := by
  by_cases h : ∃ a ∈ (g.body r).alternatives, g.alternativeTarget a = none
  · right
    obtain ⟨a, ha, hnone⟩ := h
    obtain ⟨_, _, hfails, name, rfl⟩ := (describe_failsUndefined names ha hnone hb).exists_error
    exact ⟨⟨a, ha, hnone⟩, name, answer_of_error hfails⟩
  · left
    push Not at h
    obtain ⟨line, hline, -⟩ := hg.line_determined names fun a ha => Option.isSome_iff_ne_none.mpr (h a ha)
    have hdescribe := hline.bind (f := fun line => (pure line.display : Resolution V _)) .pure
    exact ⟨_, (hdescribe b hb).1⟩

end Grammar

/-! ## Grammars that have been built -/

namespace Scene

/-- In a grammar that has been built, with fewer rules than the counter can count, every rule has a number of
its own, which shows when it was made, and what a rule names at once has a smaller one; so every cycle goes
through a deferred alternative. And whatever the names, nothing that is written for a rule takes more steps
than its number. -/
theorem rendering_ends {s : Scene V} (reached : s.Reached) (few : s.grammar.rules.size < 2 ^ 32) :
    (∀ s₀ : Scene V, s₀.Reached → ReflTransGen Operation s₀ s →
      s₀.grammar.rules.toList <+: s.grammar.rules.toList) ∧
    s.grammar.identities.Pairwise (· < ·) ∧ (∀ r, s.HasRule r → (identity r).toNat = r) ∧
    (∀ r, ∀ i ∈ (s.grammar.body r).eager, i < r) ∧
    (∀ walk, s.grammar.Cycle walk → ∃ k, ∃ hk : k + 1 < walk.length,
      s.grammar.Defers walk[k] walk[k + 1] ∧ walk[k + 1] ∉ (s.grammar.body walk[k]).eager) ∧
    ∀ names r, s.HasRule r →
      (∃ t, ∀ fuel, r < fuel → s.grammar.subject names fuel r = some t) ∧
      (∃ pieces, ∀ fuel, r < fuel → s.grammar.inline names fuel r = some pieces) ∧
      (∃ pieces, ∀ fuel, r < fuel → Grammar.referTo names (s.grammar.inline names fuel) r = some pieces) ∧
      ((∃ text, answer (s.grammar.describe names r) s.bindings = .ok text) ∨
        (∃ a ∈ (s.grammar.body r).alternatives, s.grammar.alternativeTarget a = none) ∧
          ∃ name, answer (s.grammar.describe names r) s.bindings =
            .error (.faulted (.undefinedForward name))) := by
  have hg := reached.orderly.grounded
  refine ⟨fun s₀ reached₀ hleads => ?_, s.grammar.identities_increase few, fun r hr => ?_, hg.earlier,
    fun walk h => h.defers hg.earlier, fun names r hr => ?_⟩
  · exact (reached₀.orderly.operations hleads).grows.rules_prefix
  · exact toNat_identity hr.1 (Nat.lt_of_le_of_lt hr.2 few)
  · exact ⟨⟨_, fun _ => hg.subject_of_fuel names hr.2⟩, hg.inline_of_lt names r, hg.referTo_of_lt names r,
      hg.describe_ends names reached.orderly.assembled.consistent.sound⟩

/-- A repetition of a choice that stands for the repetition. -/
theorem rendering_ends_cyclic :
    ∃ s : Scene Unit, s.Reached ∧ s.grammar.Cycle [2, 1, 2] ∧ s.grammar.Defers 1 2 ∧
      (∃ pieces, ∀ fuel, 2 < fuel → s.grammar.inline .empty fuel 2 = some pieces) ∧
      answer (s.grammar.describe .empty 2) s.bindings = .ok "<2> ::= <1>*" := by
  let declared : Scene Unit := Scene.empty.does (Assembly.declareRule "loop")
  let slot := declared.does (Assembly.ruleSlot ⟨.forward 0, none⟩)
  let again := slot.does (Assembly.choice [.deferred 0])
  let loop := again.does (Assembly.node (.star 1))
  let defined := loop.does (Assembly.defineRule 0 2)
  have hslot : declared.Operation slot := by
    have hforward : 0 < declared.grammar.ruleForwards.size := by decide +kernel
    exact .ruleSlot hforward
  have hagain : slot.Operation again := by
    have hslots : 0 < slot.grammar.ruleSlots.size := by decide +kernel
    exact .choice (List.forall_mem_singleton.mpr hslots)
  have hloop : again.Operation loop := by
    have hrule : again.HasRule 1 := by decide +kernel
    exact .node hrule
  have hdefined : loop.Operation defined := .defineRule (by decide +kernel) (by decide +kernel)
  have reached : defined.Reached := ((((ReflTransGen.single .declareRule).tail hslot).tail hagain).tail
    hloop).tail hdefined
  have hcycle : defined.grammar.Cycle [2, 1, 2] := ⟨by decide, rfl, by decide +kernel⟩
  obtain ⟨-, -, -, -, hcycles, hends⟩ := rendering_ends reached (by decide +kernel)
  have hdefers : defined.grammar.Defers 1 2 := by
    obtain ⟨k, hk, hdefers, -⟩ := hcycles _ hcycle
    cases k with
    | zero =>
        -- the repetition has no alternatives
        obtain ⟨_, hdeferred, -⟩ := hdefers
        have hnone : (defined.grammar.body 2).alternatives = [] := by decide +kernel
        cases hnone ▸ hdeferred
    | succ k => cases k with
        | zero => exact hdefers
        | succ k => exact absurd hk (Nat.not_lt.mpr (Nat.le_add_left 3 k))
  obtain ⟨-, hinline, -⟩ := hends .empty 2 (by decide +kernel)
  have hok : Ensures (defined.grammar.describe .empty 2) defined.bindings
      (fun text _ => text = "<2> ::= <1>*") fun _ _ => False := by decide +kernel
  obtain ⟨_, after, htext, rfl⟩ := hok.exists_ok
  exact ⟨defined, reached, hcycle, hdefers, hinline, answer_of_ok htext⟩

end Scene

end Packrat
