import Packrat.Proofs.Ensures

/-!
# Resolution

Looking up a deferred alternative gives its target, and what was found earlier stays true. It fails
only at a forward declaration that is left undefined.
-/

namespace Packrat

variable {V : Type}

/-- Whatever has been found for a slot is what the slot stands for. -/
structure Bindings.Sound (g : Grammar V) (b : Bindings V) : Prop where
  rule : ∀ slot r, (b.rules.get slot).resolved = some r → g.ruleTarget slot = some r
  parser : ∀ slot p, (b.parsers.get slot).resolved = some p → g.parserTarget slot = some p

namespace Cells

variable {α : Type} {cells : Cells α} {slot k : Nat}

@[simp] theorem resolved_countRun :
    ((cells.countRun slot).get k).resolved = (cells.get k).resolved := by
  simp only [countRun, get_set]
  split
  · next h => rw [h]
  · rfl

theorem resolved_settle {a : α} :
    ((cells.settle slot a).get k).resolved = if slot = k then some a else (cells.get k).resolved := by
  simp only [settle, get_set]
  split <;> rfl

end Cells

namespace Bindings.Sound

variable {g : Grammar V} {b : Bindings V}

theorem empty : Bindings.Sound g .empty :=
  ⟨fun _ _ h => by simp [Bindings.empty] at h, fun _ _ h => by simp [Bindings.empty] at h⟩

theorem countRule (h : b.Sound g) (slot : Nat) :
    Bindings.Sound g { b with rules := b.rules.countRun slot } :=
  ⟨fun k r hk => h.rule k r (by simpa using hk), h.parser⟩

theorem countParser (h : b.Sound g) (slot : Nat) :
    Bindings.Sound g { b with parsers := b.parsers.countRun slot } :=
  ⟨h.rule, fun k p hk => h.parser k p (by simpa using hk)⟩

theorem settleRule (h : b.Sound g) {slot : Nat} {r : RuleId} (hr : g.ruleTarget slot = some r) :
    Bindings.Sound g { b with rules := b.rules.settle slot r } := by
  refine ⟨fun k r' hk => ?_, h.parser⟩
  rw [Cells.resolved_settle] at hk
  split at hk
  · next he => rw [← he, hr, ← hk]
  · exact h.rule k r' hk

theorem settleParser (h : b.Sound g) {slot : Nat} {p : Parser V} (hp : g.parserTarget slot = some p) :
    Bindings.Sound g { b with parsers := b.parsers.settle slot p } := by
  refine ⟨h.rule, fun k p' hk => ?_⟩
  rw [Cells.resolved_settle] at hk
  split at hk
  · next he => rw [← he, hp, ← hk]
  · exact h.parser k p' hk

end Bindings.Sound

/-! ## Looking up -/

/-- A look-up gives the target, if there is one, and otherwise fails at a forward declaration that is
left undefined. What has been found stays sound either way. -/
def Resolution.Finds {α : Type} (g : Grammar V) (lookup : Resolution V α) (target : Option α) : Prop :=
  ∀ b : Bindings V, b.Sound g → Ensures lookup b
    (fun a after => target = some a ∧ after.Sound g)
    (fun halt after => (∃ name, halt = .faulted (.undefinedForward name)) ∧ target = none ∧ after.Sound g)

namespace Grammar

variable {g : Grammar V}

theorem resolveForward_finds {α : Type} (f : Forward α) :
    Resolution.Finds g (resolveForward f) f.definition := by
  intro b hb
  unfold resolveForward
  cases h : f.definition with
  | some a => exact .pure ⟨rfl, hb⟩
  | none => exact .throw ⟨⟨f.name, rfl⟩, rfl, hb⟩

theorem resolveParser_finds (slot : Nat) :
    Resolution.Finds g (g.resolveParser slot) (g.parserTarget slot) := by
  intro b hb
  unfold resolveParser
  cases hs : g.parserSource slot with
  | ready p => exact .pure ⟨by simp [parserTarget, hs], hb⟩
  | produced p =>
      apply Ensures.get
      cases hr : (b.parsers.get slot).resolved with
      | some q => exact .pure ⟨hb.parser slot q hr, hb⟩
      | none =>
          have ht : g.parserTarget slot = some p := by simp [parserTarget, hs]
          apply Ensures.modify
          simp only [pure_bind]
          exact .modify (.pure ⟨ht, (hb.countParser slot).settleParser ht⟩)
  | forward f =>
      apply Ensures.get
      cases hr : (b.parsers.get slot).resolved with
      | some q => exact .pure ⟨hb.parser slot q hr, hb⟩
      | none =>
          have ht : g.parserTarget slot = (g.parserForward f).definition := by simp [parserTarget, hs]
          rw [ht]
          refine .modify (Ensures.bind (resolveForward_finds (g.parserForward f) _ (hb.countParser slot)) ?_)
          rintro p mid ⟨hp, hmid⟩
          exact .modify (.pure ⟨hp, hmid.settleParser (ht.trans hp)⟩)

theorem resolveRule_finds (slot : Nat) : Resolution.Finds g (g.resolveRule slot) (g.ruleTarget slot) := by
  intro b hb
  unfold resolveRule
  apply Ensures.get
  cases hr : (b.rules.get slot).resolved with
  | some r => exact .pure ⟨hb.rule slot r hr, hb⟩
  | none =>
      apply Ensures.modify
      have hc := hb.countRule slot
      -- whatever the source, the rule that is found is kept
      have hkeep : ∀ {r} {mid : Bindings V}, g.ruleTarget slot = some r ∧ mid.Sound g →
          Ensures (do modify fun b => { b with rules := b.rules.settle slot r }; pure r : Resolution V RuleId)
            mid (fun r after => g.ruleTarget slot = some r ∧ after.Sound g)
            (fun halt after => (∃ name, halt = .faulted (.undefinedForward name)) ∧
              g.ruleTarget slot = none ∧ after.Sound g) :=
        fun h => .modify (.pure ⟨h.1, h.2.settleRule h.1⟩)
      cases hs : g.ruleSource slot with
      | rule r =>
          have ht : g.ruleTarget slot = some r := by simp [ruleTarget, hs]
          simp only [pure_bind]
          exact hkeep ⟨ht, hc⟩
      | forward f =>
          have ht : g.ruleTarget slot = (g.ruleForward f).definition := by simp [ruleTarget, hs]
          rw [ht] at hkeep ⊢
          exact (resolveForward_finds (g.ruleForward f) _ hc).bind fun r mid => hkeep
      | parser k =>
          have ht : g.ruleTarget slot = (g.parserTarget k).map Parser.rule := by simp [ruleTarget, hs]
          rw [ht] at hkeep ⊢
          simp only [bind_map_left]
          refine ((resolveParser_finds k _ hc).imp_right ?_).bind fun p mid ⟨hp, hmid⟩ => hkeep ⟨?_, hmid⟩
          · rintro halt after ⟨hname, hp, hafter⟩
            exact ⟨hname, by simp [hp], hafter⟩
          · simp [hp]

theorem resolveAlternative_finds (a : Alternative) :
    Resolution.Finds g (g.resolveAlternative a) (g.alternativeTarget a) := by
  cases a with
  | ready r => exact fun b hb => .pure ⟨rfl, hb⟩
  | deferred slot => exact resolveRule_finds slot

end Grammar

end Packrat
