import Packrat.Proofs.Lookups

/-!
# What look-ups leave behind

A look-up of a slot that nothing has been found for runs a producer. What that returns is the answer, and
is kept; if it fails, the slot stays as it was. From then on the slot has that answer, and no producer is
run (`FindsOnce`). So look-ups one after another fail until one of them returns, and then all of them
answer the same (`Cell.Course`, `Grammar.Row.course`). A rule slot that takes its rule from a parser slot
is resolved after it (`Bindings.Linked`).
-/

namespace Packrat

variable {V α : Type}

/-! ## Cells -/

namespace Cell

/-- What a look-up with the given answer does to the cell of its slot. A run of the producer is counted,
whether or not it returns. -/
inductive Step : Cell α → Option α → Cell α → Prop
  | found {a n} : Step ⟨some a, n⟩ (some a) ⟨some a, n⟩
  | failed {n} : Step ⟨none, n⟩ none ⟨none, n + 1⟩
  | returned {a n} : Step ⟨none, n⟩ (some a) ⟨some a, n + 1⟩

/-- What look-ups with the given answers do to the cell of their slot. All those of a resolved slot give
what has been found. Those of an unresolved one fail, and each of them is a run of the producer; after
them perhaps one returns, which is the last run, and all later ones give what it has found. -/
inductive Course : Cell α → List (Option α) → Cell α → Prop
  | resolved {a n m} : Course ⟨some a, n⟩ (List.replicate m (some a)) ⟨some a, n⟩
  | unresolved {n k} : Course ⟨none, n⟩ (List.replicate k none) ⟨none, n + k⟩
  | resolves {a n k m} : Course ⟨none, n⟩ (List.replicate k none ++ List.replicate (m + 1) (some a))
      ⟨some a, n + k + 1⟩

variable {c c' c'' : Cell α} {xs ys : List (Option α)}

namespace Step

variable {x : Option α} {a : α}

theorem of_found (h : c.resolved = some a) : c.Step (some a) c := by
  cases c
  cases h
  exact .found

theorem of_failed (h : c.resolved = none) : c.Step none ⟨c.resolved, c.runs + 1⟩ := by
  cases c
  cases h
  exact .failed

theorem of_returned (h : c.resolved = none) : c.Step (some a) ⟨some a, c.runs + 1⟩ := by
  cases c
  cases h
  exact .returned

/-- Afterwards the slot is resolved to the answer, or unresolved if there was none. -/
theorem resolved_eq (h : c.Step x c') : c'.resolved = x := by
  cases h <;> rfl

theorem course (h : c.Step x c') : c.Course [x] c' := by
  cases h with
  | found => exact .resolved (m := 1)
  | failed => exact .unresolved (k := 1)
  | returned => exact .resolves (k := 0) (m := 0)

end Step

namespace Course

protected theorem refl : c.Course [] c := by
  rcases c with ⟨_ | a, n⟩
  · exact .unresolved (k := 0)
  · exact .resolved (m := 0)

protected theorem trans (h : c.Course xs c') (h' : c'.Course ys c'') : c.Course (xs ++ ys) c'' := by
  cases h with
  | resolved =>
      cases h' with
      | resolved =>
          rw [← List.replicate_add]
          exact .resolved
  | @unresolved n k =>
      cases h' with
      | unresolved =>
          rw [← List.replicate_add, Nat.add_assoc]
          exact .unresolved
      | resolves =>
          rw [← List.append_assoc, ← List.replicate_add, Nat.add_assoc n]
          exact .resolves
  | resolves =>
      cases h' with
      | resolved =>
          rw [List.append_assoc, ← List.replicate_add, Nat.add_right_comm]
          exact .resolves

/-- What has been found stays. -/
theorem keeps {a : α} (h : c.Course xs c') (ha : c.resolved = some a) : c'.resolved = some a := by
  cases h with
  | resolved => exact ha
  | unresolved | resolves => cases ha

/-- What is found later was there already, or it has been given as an answer. -/
theorem resolved_or_mem {a : α} (h : c.Course xs c') (ha : c'.resolved = some a) :
    c.resolved = some a ∨ some a ∈ xs := by
  cases h with
  | resolved => exact .inl ha
  | unresolved => cases ha
  | resolves =>
      cases ha
      exact .inr (by simp)

/-- The number of runs tells how many look-ups have failed before the slot was resolved. -/
theorem answers_of_runs {a : α} {k : Nat} (h : c.Course xs c') (hc : c.resolved = none)
    (ha : c'.resolved = some a) (hruns : c'.runs = c.runs + k + 1) :
    ∃ m, xs = List.replicate k none ++ List.replicate (m + 1) (some a) := by
  cases h with
  | resolved => cases hc
  | unresolved => cases ha
  | @resolves _ n k' m =>
      cases ha
      obtain rfl : k' = k := Nat.add_left_cancel (Nat.succ.inj hruns)
      exact ⟨m, rfl⟩

end Course

end Cell

/-- What a look-up with the given answer does to the cells: a step at its slot. -/
structure Cells.Step (before : Cells α) (slot : Nat) (x : Option α) (after : Cells α) : Prop where
  look : (before.get slot).Step x (after.get slot)
  elsewhere : ∀ k, slot ≠ k → after.get k = before.get k

namespace Cells.Step

variable {before after : Cells α} {slot : Nat} {x : Option α} {a : α}

theorem found (h : (before.get slot).resolved = some a) : before.Step slot (some a) before :=
  ⟨.of_found h, fun _ _ => rfl⟩

theorem failed (h : (before.get slot).resolved = none) : before.Step slot none (before.countRun slot) where
  look := by
    rw [countRun, get_set, if_pos rfl]
    exact .of_failed h
  elsewhere k hk := by simp only [countRun, get_set, hk, if_false]

theorem returned (h : (before.get slot).resolved = none) :
    before.Step slot (some a) ((before.countRun slot).settle slot a) where
  look := by
    simp only [settle, countRun, get_set, if_true]
    exact .of_returned h
  elsewhere k hk := by simp only [settle, countRun, get_set, hk, if_false]

/-- At each slot, with the answers that have been given there. -/
theorem course (h : before.Step slot x after) (k : Nat) :
    (before.get k).Course (if slot = k then [x] else []) (after.get k) := by
  split
  · next hk => exact hk ▸ h.look.course
  · next hk => exact h.elsewhere k hk ▸ .refl

end Cells.Step

/-- A look-up of the slot finds what it looks for once. It leaves the slot resolved to its answer, or
unresolved if it fails; and where the slot is resolved, it answers that without a run of the producer. -/
structure FindsOnce {σ : Type} (lookup : EStateM Halt σ α) (cells : σ → Cells α) (slot : Nat) : Prop where
  step : ∀ s, (cells s).Step slot (answer lookup s).toOption (cells (stateAfter lookup s))
  again : ∀ s a, ((cells s).get slot).resolved = some a → lookup s = .ok a s

/-- The look-up finds what it looks for once wherever it is made: as part of a listing, by a run, under a
lookahead of a run, or on its own in a workspace. -/
structure FindsOnceAnywhere (lookup : Resolution V α) (cells : Bindings V → Cells α) (slot : Nat) :
    Prop where
  alone : FindsOnce lookup cells slot
  run : FindsOnce (Engine.resolve lookup) (fun run => cells run.bindings) slot
  lookahead : FindsOnce (Engine.unmemoized (Engine.resolve lookup)) (fun run => cells run.bindings) slot
  session : FindsOnce (Session.resolve fun _ => lookup) (fun w => cells w.bindings) slot

theorem Engine.unmemoized_resolve {lookup : Resolution V α} :
    unmemoized (resolve lookup) = resolve lookup := by
  funext run
  unfold unmemoized resolve
  cases lookup run.bindings <;> rfl

namespace FindsOnce

variable {lookup : Resolution V α} {cells : Bindings V → Cells α} {slot : Nat}

protected theorem run (h : FindsOnce lookup cells slot) :
    FindsOnce (Engine.resolve lookup) (fun run => cells run.bindings) slot where
  step run := by
    have hstep := h.step run.bindings
    unfold answer stateAfter Engine.resolve at *
    cases hr : lookup run.bindings <;> simpa only [hr] using hstep
  again run a ha := by
    simp only [Engine.resolve, h.again run.bindings a ha]

protected theorem session (h : FindsOnce lookup cells slot) :
    FindsOnce (Session.resolve fun _ => lookup) (fun w => cells w.bindings) slot where
  step w := by
    have hstep := h.step w.bindings
    unfold answer stateAfter Session.resolve at *
    cases hr : lookup w.bindings <;> simpa only [hr] using hstep
  again w a ha := by
    simp only [Session.resolve, h.again w.bindings a ha]

theorem anywhere (h : FindsOnce lookup cells slot) : FindsOnceAnywhere lookup cells slot where
  alone := h
  run := h.run
  lookahead := by
    rw [Engine.unmemoized_resolve]
    exact h.run
  session := h.session

end FindsOnce

/-- What look-ups do to the cells of all slots. -/
structure Bindings.Course (b : Bindings V) (looks : LookUps V) (after : Bindings V) : Prop where
  rules : ∀ slot, (b.rules.get slot).Course (Look.answers looks.rules slot) (after.rules.get slot)
  parsers : ∀ slot, (b.parsers.get slot).Course (Look.answers looks.parsers slot) (after.parsers.get slot)

namespace Bindings.Course

variable {b mid after : Bindings V} {looks more : LookUps V}

protected theorem refl : b.Course .empty b := ⟨fun _ => .refl, fun _ => .refl⟩

protected theorem trans (h : b.Course looks mid) (h' : mid.Course more after) :
    b.Course (looks ++ more) after where
  rules slot := by
    rw [LookUps.rules_append, Look.answers_append]
    exact (h.rules slot).trans (h'.rules slot)
  parsers slot := by
    rw [LookUps.parsers_append, Look.answers_append]
    exact (h.parsers slot).trans (h'.parsers slot)

end Bindings.Course

/-! ## Single look-ups -/

namespace Grammar

variable {g : Grammar V}

/-- The parser of the slot is not there from the start. -/
def Lazy (g : Grammar V) (slot : Nat) : Prop := ∀ p, g.parserSource slot ≠ .ready p

instance {slot : Nat} : Decidable (g.Lazy slot) :=
  match h : g.parserSource slot with
  | .ready p => isFalse fun hs => hs p h
  | .produced _ => isTrue fun _ hp => nomatch h.symm.trans hp
  | .forward _ => isTrue fun _ hp => nomatch h.symm.trans hp

theorem resolveForward_still (f : Forward α) (b : Bindings V) :
    Ensures (resolveForward f) b (fun _ after => after = b) fun _ after => after = b := by
  unfold resolveForward
  cases f.definition with
  | some a => exact .pure rfl
  | none => exact .throw rfl

theorem resolveParser_of_ready {slot : Nat} {p : Parser V} (h : g.parserSource slot = .ready p)
    (b : Bindings V) : g.resolveParser slot b = .ok p b := by
  simp only [resolveParser, h]
  rfl

theorem resolveParser_of_found {slot : Nat} {p : Parser V} {b : Bindings V} (hs : g.Lazy slot)
    (h : (b.parsers.get slot).resolved = some p) : g.resolveParser slot b = .ok p b := by
  unfold resolveParser
  cases hsource : g.parserSource slot with
  | ready p => exact absurd hsource (hs p)
  | produced | forward => simp only [get_bind, h]; rfl

theorem resolveRule_of_found {slot : Nat} {r : RuleId} {b : Bindings V}
    (h : (b.rules.get slot).resolved = some r) : g.resolveRule slot b = .ok r b := by
  simp only [resolveRule, get_bind, h]
  rfl

/-- At a slot that is not ready. -/
theorem resolveParser_step {slot : Nat} (hs : g.Lazy slot) (b : Bindings V) :
    Ensures (g.resolveParser slot) b
      (fun p after => after.rules = b.rules ∧ b.parsers.Step slot (some p) after.parsers)
      (fun _ after => after.rules = b.rules ∧ b.parsers.Step slot none after.parsers) := by
  cases hr : (b.parsers.get slot).resolved with
  | some p => exact .done (resolveParser_of_found hs hr) ⟨rfl, .found hr⟩
  | none =>
      unfold resolveParser
      cases hsource : g.parserSource slot with
      | ready p => exact absurd hsource (hs p)
      | produced p =>
          apply Ensures.get
          simp only [hr, pure_bind]
          exact .modify (.modify (.pure ⟨rfl, .returned hr⟩))
      | forward f =>
          apply Ensures.get
          simp only [hr]
          refine .modify (((resolveForward_still (g.parserForward f) _).imp_right ?_).bind ?_)
          · rintro halt _ rfl
            exact ⟨rfl, .failed hr⟩
          · rintro p _ rfl
            exact .modify (.pure ⟨rfl, .returned hr⟩)

theorem resolveParser_rules (slot : Nat) (b : Bindings V) :
    (stateAfter (g.resolveParser slot) b).rules = b.rules := by
  by_cases hs : g.Lazy slot
  · exact ((resolveParser_step hs b).imp (fun _ _ h => h.1) fun _ _ h => h.1).stateAfter
  · obtain ⟨p, hp⟩ := not_forall_not.mp hs
    rw [stateAfter_of_ok (resolveParser_of_ready hp b)]

theorem resolveParser_findsOnce {slot : Nat} (hs : g.Lazy slot) :
    FindsOnce (g.resolveParser slot) Bindings.parsers slot where
  step b := Ensures.observed (P := fun x after => b.parsers.Step slot x after.parsers)
    ((resolveParser_step hs b).imp (fun _ _ h => h.2) fun _ _ h => h.2)
  again _ _ := resolveParser_of_found hs

theorem parserLooks_of_lazy {slot : Nat} (hs : g.Lazy slot) (b : Bindings V) :
    g.parserLooks slot b = [⟨slot, (answer (g.resolveParser slot) b).toOption⟩] := by
  unfold parserLooks
  split
  · next p hp => exact absurd hp (hs p)
  · rfl

theorem parserLooks_course (slot : Nat) (b : Bindings V) :
    b.Course ⟨[], g.parserLooks slot b⟩ (stateAfter (g.resolveParser slot) b) := by
  by_cases hs : g.Lazy slot
  · rw [parserLooks_of_lazy hs]
    refine ⟨fun k => ?_, fun k => ?_⟩
    · rw [resolveParser_rules, Look.answers_nil]
      exact .refl
    · rw [Look.answers_singleton]
      exact ((resolveParser_findsOnce hs).step b).course k
  · obtain ⟨p, hp⟩ := not_forall_not.mp hs
    rw [stateAfter_of_ok (resolveParser_of_ready hp b), parserLooks, hp]
    exact .refl

/-- A slot whose look-up has given a parser has been found. -/
theorem resolveParser_bound (slot : Nat) (b : Bindings V) :
    Ensures (g.resolveParser slot) b (fun p after => g.boundParser? after slot = some p)
      fun _ _ => True := by
  by_cases hs : g.Lazy slot
  · refine (resolveParser_step hs b).imp ?_ fun _ _ _ => trivial
    rintro p after ⟨-, hstep⟩
    unfold boundParser?
    split
    · next q hq => exact absurd hq (hs q)
    · exact hstep.look.resolved_eq
  · obtain ⟨p, hp⟩ := not_forall_not.mp hs
    refine .done (resolveParser_of_ready hp b) ?_
    simp only [boundParser?, hp]

/-- What the producer of a rule slot does. -/
def ruleProducer (g : Grammar V) (slot : Nat) : Resolution V RuleId :=
  match g.ruleSource slot with
  | .rule r => pure r
  | .forward f => resolveForward (g.ruleForward f)
  | .parser k => Parser.rule <$> g.resolveParser k

theorem resolveRule_of_none {slot : Nat} {b : Bindings V} (h : (b.rules.get slot).resolved = none) :
    g.resolveRule slot b = (g.ruleProducer slot >>= fun r => do
      modify fun b => { b with rules := b.rules.settle slot r }
      return r) { b with rules := b.rules.countRun slot } := by
  unfold resolveRule ruleProducer
  simp only [get_bind, h]
  cases g.ruleSource slot <;> rfl

/-- The producer of a rule slot may look up a parser slot; what that has found stays also if the producer
fails. -/
theorem ruleProducer_step (slot : Nat) (b : Bindings V) : Ensures (g.ruleProducer slot) b
    (fun r after => (after.rules = b.rules ∧ b.Course ⟨[], g.producerLooks slot b⟩ after) ∧
      ∀ k, g.ruleSource slot = .parser k → ∃ p, g.boundParser? after k = some p ∧ p.rule = r)
    (fun _ after => after.rules = b.rules ∧ b.Course ⟨[], g.producerLooks slot b⟩ after) := by
  unfold ruleProducer producerLooks
  cases hsource : g.ruleSource slot with
  | rule r => exact .pure ⟨⟨rfl, .refl⟩, nofun⟩
  | forward f =>
      refine (resolveForward_still _ b).imp ?_ ?_
      · rintro r _ rfl
        exact ⟨⟨rfl, .refl⟩, nofun⟩
      · rintro halt _ rfl
        exact ⟨rfl, .refl⟩
  | parser k =>
      simp only [map_eq_pure_bind]
      have hmid := Ensures.of_stateAfter (P := fun after => after.rules = b.rules ∧
        b.Course ⟨[], g.parserLooks k b⟩ after) ⟨resolveParser_rules k b, parserLooks_course k b⟩
      refine ((hmid.and (resolveParser_bound k b)).imp_right fun _ _ h => h.1).bind ?_
      rintro p mid ⟨hmid, hbound⟩
      refine .pure ⟨hmid, fun k' hk => ?_⟩
      cases hk
      exact ⟨p, hbound, rfl⟩

theorem resolveRule_step (slot : Nat) (b : Bindings V) : Ensures (g.resolveRule slot) b
    (fun r after => b.rules.Step slot (some r) after.rules ∧ ((b.rules.get slot).resolved = none →
      ∀ k, g.ruleSource slot = .parser k → ∃ p, g.boundParser? after k = some p ∧ p.rule = r))
    (fun _ after => b.rules.Step slot none after.rules) := by
  cases hr : (b.rules.get slot).resolved with
  | some r => exact .done (resolveRule_of_found hr) ⟨.found hr, nofun⟩
  | none =>
      have hproduced := ruleProducer_step (g := g) slot { b with rules := b.rules.countRun slot }
      refine .of_eq (resolveRule_of_none hr) ((hproduced.imp_right ?_).bind ?_)
      · rintro halt after ⟨hrules, -⟩
        exact hrules ▸ .failed hr
      · rintro r mid ⟨⟨hrules, -⟩, hlinked⟩
        exact .modify (.pure ⟨hrules ▸ .returned hr, fun _ => hlinked⟩)

theorem resolveRule_findsOnce (slot : Nat) : FindsOnce (g.resolveRule slot) Bindings.rules slot where
  step b := Ensures.observed (P := fun x (after : Bindings V) => b.rules.Step slot x after.rules)
    ((resolveRule_step slot b).imp_left fun _ _ h => h.1)
  again _ _ := resolveRule_of_found

/-- What the producer has found for parser slots stays, whether or not it comes to a rule. -/
theorem resolveRule_parsers {slot : Nat} {b : Bindings V} (hr : (b.rules.get slot).resolved = none)
    (k : Nat) : (b.parsers.get k).Course
      (Look.answers (g.producerLooks slot { b with rules := b.rules.countRun slot }) k)
      ((stateAfter (g.resolveRule slot) b).parsers.get k) := by
  have hproduced := ruleProducer_step (g := g) slot { b with rules := b.rules.countRun slot }
  refine Ensures.stateAfter (P := fun after => (b.parsers.get k).Course _ (after.parsers.get k))
    (.of_eq (resolveRule_of_none hr) ((hproduced.imp_right ?_).bind ?_))
  · rintro halt after ⟨-, hcourse⟩
    exact hcourse.parsers k
  · rintro r mid ⟨⟨-, hcourse⟩, -⟩
    exact .modify (.pure (hcourse.parsers k))

theorem ruleLooks_course (slot : Nat) (b : Bindings V) :
    b.Course (g.ruleLooks slot b) (stateAfter (g.resolveRule slot) b) where
  rules k := by
    rw [ruleLooks, Look.answers_singleton]
    exact ((resolveRule_findsOnce slot).step b).course k
  parsers k := by
    unfold ruleLooks
    cases hr : (b.rules.get slot).resolved with
    | some r =>
        rw [stateAfter_of_ok (resolveRule_of_found hr)]
        exact .refl
    | none => exact resolveRule_parsers hr k

end Grammar

/-! ## Rows of look-ups -/

/-- A rule slot that takes its rule from a parser slot has the rule of what has been found for that. -/
def Bindings.Linked (g : Grammar V) (b : Bindings V) : Prop :=
  ∀ slot k r, g.ruleSource slot = .parser k → (b.rules.get slot).resolved = some r →
    ∃ p, g.boundParser? b k = some p ∧ p.rule = r

variable {g : Grammar V} {b after : Bindings V} {looks : LookUps V}

namespace Grammar

theorem boundParser?_keeps {slot : Nat} {p : Parser V} (h : b.Course looks after)
    (hp : g.boundParser? b slot = some p) : g.boundParser? after slot = some p := by
  unfold boundParser? at hp ⊢
  split at hp
  · exact hp
  · exact (h.parsers slot).keeps hp

theorem slot_lt_of_parserLooks {slot : Nat} :
    ∀ look ∈ g.parserLooks slot b, look.slot < g.parserSlots.size := by
  by_cases hs : g.Lazy slot
  · rw [parserLooks_of_lazy hs, List.forall_mem_singleton]
    by_contra hn
    exact hs (.choice 0 []) (by simp [parserSource, hn])
  · obtain ⟨p, hp⟩ := not_forall_not.mp hs
    simp [parserLooks, hp]

theorem slot_lt_of_producerLooks {slot : Nat} :
    ∀ look ∈ g.producerLooks slot b, look.slot < g.parserSlots.size := by
  unfold producerLooks
  split
  · exact slot_lt_of_parserLooks
  · nofun

namespace Looks

theorem mentions (h : g.Looks b looks after) : ∀ look ∈ looks.rules, g.Mentions look.slot := by
  cases h with
  | rule hs => exact List.forall_mem_singleton.mpr hs
  | parser => nofun

theorem slot_lt (h : g.Looks b looks after) : ∀ look ∈ looks.parsers, look.slot < g.parserSlots.size := by
  cases h with
  | rule =>
      unfold ruleLooks
      split
      · nofun
      · exact slot_lt_of_producerLooks
  | parser => exact slot_lt_of_parserLooks

theorem course (h : g.Looks b looks after) : b.Course looks after := by
  cases h with
  | rule => exact ruleLooks_course _ b
  | parser => exact parserLooks_course _ b

theorem sound (h : g.Looks b looks after) (hb : b.Sound g) : after.Sound g := by
  have hfinds : ∀ {α : Type} {lookup : Resolution V α} {target}, Resolution.Finds g lookup target →
      (stateAfter lookup b).Sound g := fun hf =>
    ((hf b hb).imp (fun _ _ hs => hs.2) fun _ _ hs => hs.2.2).stateAfter
  cases h with
  | rule => exact hfinds (resolveRule_finds _)
  | parser => exact hfinds (resolveParser_finds _)

theorem linked (h : g.Looks b looks after) (hb : b.Linked g) : after.Linked g := by
  intro k k' r hk hr
  cases hbefore : (b.rules.get k).resolved with
  | some r' =>
      cases hr.symm.trans ((h.course.rules k).keeps hbefore)
      obtain ⟨p, hp, hrule⟩ := hb k k' r hk hbefore
      exact ⟨p, boundParser?_keeps h.course hp, hrule⟩
  | none =>
      -- only the slot that is looked up can have been resolved now
      cases h with
      | @parser slot =>
          rw [resolveParser_rules, hbefore] at hr
          cases hr
      | @rule slot =>
          by_cases hslot : slot = k
          · subst hslot
            let Q (after : Bindings V) := (after.rules.get slot).resolved = some r →
              ∃ p, g.boundParser? after k' = some p ∧ p.rule = r
            refine Ensures.stateAfter (P := Q) ((resolveRule_step slot b).imp ?_ ?_) hr
            · rintro r' after ⟨hstep, hlinked⟩ hr'
              cases hr'.symm.trans hstep.look.resolved_eq
              exact hlinked hbefore k' hk
            · rintro halt after hstep hr'
              cases hr'.symm.trans hstep.look.resolved_eq
          · rw [((resolveRule_findsOnce slot).step b).elsewhere k hslot, hbefore] at hr
            cases hr

end Looks

namespace Row

variable (h : g.Row b looks after)

include h

theorem mentions : ∀ look ∈ looks.rules, g.Mentions look.slot := by
  induction h with
  | none => nofun
  | tail _ hl ih => exact List.forall_mem_append.mpr ⟨ih, hl.mentions⟩

theorem slot_lt : ∀ look ∈ looks.parsers, look.slot < g.parserSlots.size := by
  induction h with
  | none => nofun
  | tail _ hl ih => exact List.forall_mem_append.mpr ⟨ih, hl.slot_lt⟩

theorem course : b.Course looks after := by
  induction h with
  | none => exact .refl
  | tail _ hl ih => exact ih.trans hl.course

theorem sound (hb : b.Sound g) : after.Sound g := by
  induction h with
  | none => exact hb
  | tail _ hl ih => exact hl.sound ih

theorem linked (hb : b.Linked g) : after.Linked g := by
  induction h with
  | none => exact hb
  | tail _ hl ih => exact hl.linked ih

end Row

end Grammar

end Packrat
